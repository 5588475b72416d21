import Sbunix.Sys.TarLookup

/-!
# Listing a directory

`openSyscall` in mode 4 gives the index of a directory and `readdirSyscall` prints the entries that
have it for their parent, without the directory's name.
-/

namespace Sbunix

open Reasoning Machine

variable {s : Machine} {t : Tarfs} {pcb : Memory} {start i j left fuel : Nat}
  {path d rest name : CString} {m : Member} {ms pre post : List Member}

/-! ## Names in a directory -/

/-- What a path is called in the directory `d`: the rest behind `d`, with a slash at its end only. -/
def nameIn (d path : CString) : Option CString :=
  if d <+: path ∧ path.drop d.length ≠ [] ∧ slash ∉ (path.drop d.length).dropLast then
    some (path.drop d.length)
  else none

/-- The members that lie in the directory `d`. -/
def listing (ms : List Member) (d : CString) : List CString := ms.filterMap fun m ↦ nameIn d m.path

theorem rdropWhile_append (hrest : slash ∉ rest) (hd : d = [] ∨ d.getLast? = some slash) :
    (d ++ rest).rdropWhile (· != slash) = d := by
  -- the bytes behind the directory are dropped from the end on
  induction rest using List.reverseRecOn with
  | nil =>
      rw [List.append_nil]
      rcases List.eq_nil_or_concat d with rfl | ⟨d, b, rfl⟩
      · rfl
      · rw [List.concat_eq_append, List.getLast?_concat, Option.some_inj] at hd
        obtain rfl : b = slash := hd.resolve_left (List.append_ne_nil_of_right_ne_nil d (by simp))
        rw [List.concat_eq_append, List.rdropWhile_concat, if_neg (by decide)]
  | append_singleton rest b ih =>
      rw [List.mem_append, not_or, List.mem_singleton] at hrest
      rw [← List.append_assoc, List.rdropWhile_concat, if_pos (bne_iff_ne.mpr (Ne.symm hrest.2)),
        ih hrest.1]

theorem dirPart_append (hrest : rest ≠ []) (hslash : slash ∉ rest.dropLast)
    (hd : d = [] ∨ d.getLast? = some slash) : dirPart (d ++ rest) = d := by
  rw [dirPart, List.dropLast_append_of_ne_nil hrest, rdropWhile_append hslash hd]

/-- A path is its directory and its name there. -/
theorem dirPart_split (h : path ≠ []) :
    ∃ rest, path = dirPart path ++ rest ∧ rest ≠ [] ∧ slash ∉ rest.dropLast := by
  refine ⟨path.dropLast.rtakeWhile (· != slash) ++ [path.getLast h], ?_, by simp, ?_⟩
  · rw [dirPart, ← List.append_assoc, List.rdropWhile_append_rtakeWhile, List.dropLast_append_getLast]
  · rw [List.dropLast_concat]
    intro hs
    exact absurd (List.mem_rtakeWhile_imp hs) (by decide)

theorem nameIn_eq (h : path ≠ []) (hd : d = [] ∨ d.getLast? = some slash) :
    nameIn d path = if dirPart path = d then some (path.drop d.length) else none := by
  refine if_congr ⟨?_, ?_⟩ rfl rfl
  · rintro ⟨⟨rest, rfl⟩, hrest, hslash⟩
    rw [List.drop_left] at hrest hslash
    exact dirPart_append hrest hslash hd
  · intro hdir
    obtain ⟨rest, hsplit, hrest, hslash⟩ := dirPart_split h
    rw [hdir] at hsplit
    subst hsplit
    rw [List.drop_left]
    exact ⟨List.prefix_append d rest, hrest, hslash⟩

theorem listing_cons (h : m.path ≠ []) (hd : d = [] ∨ d.getLast? = some slash) :
    listing (m :: ms) d =
      if dirPart m.path = d then m.path.drop d.length :: listing ms d else listing ms d := by
  rw [listing, List.filterMap_cons, nameIn_eq h hd]
  by_cases hdir : dirPart m.path = d
  · rw [if_pos hdir, if_pos hdir]
    rfl
  · rw [if_neg hdir, if_neg hdir]
    rfl

/-! ## The entries of a directory -/

/-- The entries whose parent is the directory are those of the members that lie in it. -/
theorem IsIndex.parent_eq_iff (h : IsIndex start ms t) (hj : t.First d Fnode.directory j)
    (hd : d ≠ []) (hsplit : ms = pre ++ m :: post) :
    (t.root (pre.length + 1)).parent = j ↔ dirPart m.path = d := by
  rcases (h.entry pre m post hsplit).parent with
    ⟨hnil, hzero⟩ | ⟨pre₁, d', pre₂, rfl, hdir, hpath, hp, hfirst⟩
  · have hpos := hj.pos
    rw [hzero, hnil]
    exact iff_of_false (by omega) (Ne.symm hd)
  · have he := h.entry pre₁ d' (pre₂ ++ m :: post) (by rw [hsplit, List.append_assoc]; rfl)
    rw [hp]
    constructor
    · rintro rfl
      rw [← hpath, ← he.name, hj.has.1]
    · rintro rfl
      -- the directory's own entry is the first one of its name
      rcases Nat.lt_trichotomy j (pre₁.length + 1) with hlt | heq | hgt
      · -- an entry before it has another name
        obtain ⟨k, rfl⟩ := Nat.exists_eq_add_of_le' hj.pos
        have hk : k < pre₁.length := Nat.lt_of_succ_lt_succ hlt
        have hk' : k < (pre₁ ++ d' :: pre₂).length := by
          rw [List.length_append]
          omega
        have hlen : k < ms.length := by
          rw [hsplit, List.length_append]
          omega
        have hname : (t.root (k + 1)).name = pre₁[k].path := by
          subst hsplit
          rw [(h.entry_get hlen).name, List.getElem_append_left hk', List.getElem_append_left hk]
        exact absurd (hname.symm.trans hj.has.1) (hfirst _ (List.getElem_mem hk))
      · exact heq.symm
      · refine absurd ⟨?_, ?_⟩ (hj.first (pre₁.length + 1) (Nat.succ_pos _) hgt)
        · rw [he.name, hpath]
        · rw [he.typeflag, if_pos hdir]

/-- What `readdirSyscall` prints for a name. -/
def entryOps (name : CString) : List ConsoleOp := prints (name ++ cstr "     ")

theorem kprintf_entry : kprintf (cstr "%s     ") [.str name] = entryOps name := by
  rw [entryOps, prints, List.map_append]
  rfl

/-- `readdirSyscall` prints the names of the members that have the directory for their parent. -/
theorem IsIndex.readdirLoop (h : IsIndex start (pre ++ post) t) (hne : ∀ m ∈ post, m.path ≠ [])
    (hd : d = [] ∨ d.getLast? = some slash)
    (hparent : ∀ pre' m post', pre ++ post = pre' ++ m :: post' →
      ((t.root (pre'.length + 1)).parent = j ↔ dirPart m.path = d)) :
    t.readdirLoop j d.length post.length (pre.length + 1) =
      some ((listing post d).flatMap entryOps) := by
  -- on the entries to come; the index stays that of the whole archive
  induction post generalizing pre with
  | nil => rfl
  | cons m post ih =>
      have he := h.entry pre m post rfl
      have hm := hparent pre m post rfl
      rw [List.append_cons] at h hparent
      have hrest := ih h (fun x hx ↦ hne x (List.mem_cons_of_mem m hx)) hparent
      rw [List.length_append, List.length_singleton] at hrest
      have hm' := hne m List.mem_cons_self
      rw [List.length_cons, Tarfs.readdirLoop, hrest, listing_cons hm' hd, he.name]
      by_cases hdir : dirPart m.path = d
      · have hlen : ¬ m.path.length < d.length := by
          obtain ⟨rest, hsplit, -, -⟩ := dirPart_split hm'
          rw [hsplit, hdir, List.length_append]
          omega
        rw [if_pos (hm.mpr hdir), if_neg hlen, if_pos hdir, Option.map_some, kprintf_entry,
          List.flatMap_cons]
      · rw [if_neg (mt hm.mp hdir), if_neg hdir]

/-! ## Listings -/

theorem withSlash_of_slash (h : path.getLast? = some slash) : withSlash path = some path := by
  have hne : path ≠ [] := fun hnil ↦ by
    rw [hnil] at h
    cases h
  rw [withSlash, if_neg hne, if_pos h]

theorem withSlash_append (hne : path ≠ []) (h : path.getLast? ≠ some slash) :
    withSlash path = some (path ++ [slash]) := by
  rw [withSlash, if_neg hne, if_neg h]

/-- `openSyscall` takes `p` for a directory, and `readdirSyscall` lists it with these names. -/
def Lists (t : Tarfs) (pcb : Memory) (p : CString) (names : List CString) : Prop :=
  ∃ dir : Nat, openSyscall t pcb p 4 = some ⟨dir, [], pcb⟩ ∧
    t.readdirSyscall dir = some (0, prints (cstr ".     ..     ") ++ names.flatMap entryOps)

theorem readdirSyscall_eq {ops : List ConsoleOp} (hj : j < 512)
    (h : t.readdirLoop j (t.root j).name.length (t.tIndex - 1) 1 = some ops) :
    t.readdirSyscall j = some (0, prints (cstr ".     ..     ") ++ ops) := by
  have hmod : j % 2 ^ 32 = j := Nat.mod_eq_of_lt (Nat.lt_trans hj (by decide))
  rw [Tarfs.readdirSyscall, hmod, if_neg (Nat.not_le_of_lt hj), h]
  rfl

theorem Member.WellFormed.path_ne_nil (h : m.WellFormed) : m.path ≠ [] :=
  List.ne_nil_of_length_pos (Nat.lt_of_lt_of_le (by decide) h.short.1)

/-- The root is no entry, and its index is 0. -/
theorem IsIndex.lists_root (h : IsIndex start ms t) (hwell : ∀ m ∈ ms, m.WellFormed) :
    Lists t pcb [slash] (listing ms []) := by
  refine ⟨0, rfl, readdirSyscall_eq (by decide) ?_⟩
  have hall : IsIndex start ([] ++ ms) t := h
  rw [h.unused, h.count]
  refine hall.readdirLoop (fun m hm ↦ (hwell m hm).path_ne_nil) (.inl rfl)
    fun pre m post hsplit ↦ ?_
  rcases (h.entry pre m post hsplit).parent with ⟨hd, hp⟩ | ⟨pre₁, d, pre₂, rfl, hdir, hpath, hp, -⟩
  · exact iff_of_true hp hd
  · have hd : d ∈ ms := by
      rw [← List.nil_append ms, hsplit]
      exact List.mem_append_left _ (List.mem_append_right _ List.mem_cons_self)
    rw [hp, ← hpath]
    exact iff_of_false (Nat.succ_ne_zero _) (hwell d hd).path_ne_nil

/-- A member has an entry that the search finds. -/
theorem IsIndex.has (h : IsIndex start ms t) (hm : m ∈ ms) :
    ∃ i, 1 ≤ i ∧ i < t.tIndex ∧ t.Has m.path m.entryType i := by
  obtain ⟨pre, post, rfl⟩ := List.append_of_mem hm
  have he := h.entry pre m post rfl
  have hcount := h.count
  rw [List.length_append, List.length_cons] at hcount
  exact ⟨pre.length + 1, Nat.succ_pos _, by omega, he.name, he.typeflag⟩

/-- The first entry of a directory is the parent of those in it. -/
theorem IsIndex.lists_dir (h : IsIndex start ms t) (hwell : ∀ m ∈ ms, m.WellFormed)
    (hroom : ms.length ≤ 511) (hm : m ∈ ms) (hdir : m.IsDir) (hp : withSlash path = some m.path) :
    Lists t pcb path (listing ms m.path) := by
  have hcount := h.count
  have hends : m.path = [] ∨ m.path.getLast? = some slash := .inr ((hwell m hm).ends.mp hdir)
  have htype : m.entryType = Fnode.directory := if_pos hdir
  rcases (h.named hwell).lookup_eq m.path Fnode.directory with ⟨j, hlookup, hj⟩ | ⟨-, hnone⟩
  · have hroot : path ≠ [slash] := by
      rintro rfl
      have hshort := (hwell m hm).short.1
      rw [← Option.some.inj hp] at hshort
      exact absurd hshort (by decide)
    have hlt := hj.lt
    refine ⟨j, ?_, readdirSyscall_eq (by omega) ?_⟩
    · rw [openSyscall, if_neg (by decide), if_pos rfl, if_neg hroot, hp, Option.map_some, hlookup]
    · rw [hj.has.1, h.count]
      have hall : IsIndex start ([] ++ ms) t := h
      exact hall.readdirLoop (fun x hx ↦ (hwell x hx).path_ne_nil) hends
        fun pre x post hsplit ↦ h.parent_eq_iff hj (hwell m hm).path_ne_nil hsplit
  · obtain ⟨i, hi, hlt, hhas⟩ := h.has hm
    exact absurd (htype ▸ hhas) (hnone i hi hlt)

/-- A path that names no directory is refused. -/
theorem IsIndex.refuses (h : IsIndex start ms t) (hwell : ∀ m ∈ ms, m.WellFormed)
    (hp : withSlash path = some d) (hroot : path ≠ [slash]) (hd : ∀ m ∈ ms, m.IsDir → m.path ≠ d) :
    openSyscall t pcb path 4 = some ⟨-1, prints (cstr "No such directory exists."), pcb⟩ := by
  rcases (h.named hwell).lookup_eq d Fnode.directory with ⟨j, -, hj⟩ | ⟨hlookup, -⟩
  · have hcount := h.count
    have hlt := hj.lt
    obtain ⟨k, rfl⟩ := Nat.exists_eq_add_of_le' hj.pos
    have hk : k < ms.length := by omega
    have he := h.entry_get hk
    obtain ⟨hname, htype⟩ := hj.has
    rw [he.typeflag] at htype
    refine absurd (he.name.symm.trans hname) (hd _ (List.getElem_mem hk) ?_)
    by_contra hfile
    rw [if_neg hfile] at htype
    exact absurd htype (by decide)
  · rw [openSyscall, if_neg (by decide), if_pos rfl, if_neg hroot, hp, Option.map_some, hlookup]
    exact congrArg (fun ops ↦ some (Reply.mk (-1) ops pcb)) (if_pos rfl)

/-- Every directory is listed with the members in it; every other path is refused. -/
theorem directory_listing (h : Archive s start ms) (hfuel : ms.length + 107 < fuel) :
    ∃ t, s.initTarfs fuel start Tarfs.init = some t ∧ ∀ pcb,
      Lists t pcb [slash] (listing ms []) ∧
      (∀ d ∈ ms, d.IsDir → ∀ p,
        p = d.path ∨ (p.getLast? ≠ some slash ∧ p ++ [slash] = d.path) →
          Lists t pcb p (listing ms d.path)) ∧
      ∀ p, p ≠ [] → p ≠ [slash] → (∀ d ∈ ms, d.IsDir → p ≠ d.path ∧ p ++ [slash] ≠ d.path) →
        openSyscall t pcb p 4 = some ⟨-1, prints (cstr "No such directory exists."), pcb⟩ := by
  obtain ⟨t, ht, hindex⟩ := h.index hfuel
  refine ⟨t, ht, fun pcb ↦ ⟨hindex.lists_root h.members, fun d hd hdir p hp ↦ ?_,
    fun p hne hroot hp ↦ ?_⟩⟩
  · refine hindex.lists_dir h.members h.room hd hdir ?_
    rcases hp with rfl | ⟨hlast, hp⟩
    · exact withSlash_of_slash ((h.members d hd).ends.mp hdir)
    · have hne : p ≠ [] := by
        rintro rfl
        have hshort := (h.members d hd).short.1
        rw [← hp] at hshort
        exact absurd hshort (by decide)
      rw [withSlash_append hne hlast, hp]
  · by_cases hlast : p.getLast? = some slash
    · exact hindex.refuses h.members (withSlash_of_slash hlast) hroot fun d hd hdir ↦
        (hp d hd hdir).1.symm
    · exact hindex.refuses h.members (withSlash_append hne hlast) hroot fun d hd hdir ↦
        (hp d hd hdir).2.symm

theorem directory_listing_bin : ∃ t,
    (archiveMachine binMembers).initTarfs 120 archiveStart Tarfs.init = some t ∧ ∀ pcb,
      Lists t pcb (cstr "/") [cstr "bin/", cstr "readme"] ∧ Lists t pcb (cstr "bin") [cstr "ls"] ∧
      openSyscall t pcb (cstr "readme") 4 =
        some ⟨-1, prints (cstr "No such directory exists."), pcb⟩ := by
  obtain ⟨t, ht, h⟩ := directory_listing binMembers_archive (show _ < 120 by decide)
  refine ⟨t, ht, fun pcb ↦ ⟨(h pcb).1, ?_, ?_⟩⟩
  · exact (h pcb).2.1 ⟨cstr "bin/", 0, chr '5', []⟩ List.mem_cons_self rfl (cstr "bin")
      (.inr (by decide))
  · exact (h pcb).2.2 (cstr "readme") (by decide) (by decide) (by decide)

end Sbunix
