import Sbunix.Sys.TarArchive

/-!
# What `init_tarfs` leaves in the index

The walk over a well-formed archive makes one entry for each member.  `parse` looks for the directory
of a path from its last slash on, and finds it among the entries made so far.
-/

namespace Sbunix

open Reasoning Machine

variable {s : Machine} {t : Tarfs} {start n k j left type fuel : Nat} {path name : CString}
  {size : Int} {m : Member} {ms pre post : List Member} {e : Fnode}

/-! ## Paths -/

theorem dirPart_getLast (h : dirPart path ≠ []) : (dirPart path).getLast? = some slash := by
  have hlast := List.rdropWhile_last_not _ _ h
  rw [List.getLast?_eq_some_getLast h]
  exact congrArg some (by simpa [dirPart] using hlast)

/-- The part of the path up to its last slash, from the byte at `n` on. -/
theorem rdropWhile_take (h : n < path.length) : (path.take (n + 1)).rdropWhile (· != slash) =
    if path.getD n 0 = slash then path.take (n + 1)
    else (path.take n).rdropWhile (· != slash) := by
  have hsplit : path.take (n + 1) = path.take n ++ [path.getD n 0] := by
    rw [List.take_add_one, List.getElem?_eq_getElem h, List.getD_eq_getElem _ _ h]
    rfl
  rw [hsplit, List.rdropWhile_concat]
  by_cases hs : path.getD n 0 = slash
  · rw [if_pos hs, if_neg (by rw [hs]; decide)]
  · rw [if_neg hs, if_pos (bne_iff_ne.mpr hs)]

/-- `parse` finds the last slash before the end of the path. -/
theorem slashBefore_eq {path : CString} {n : Nat} (hhead : path.getD 0 0 ≠ slash)
    (h : n + 1 < path.length) :
    slashBefore path (n + 1) = some
      (if (path.take (n + 2)).rdropWhile (· != slash) = [] then none
        else some (((path.take (n + 2)).rdropWhile (· != slash)).length - 1)) := by
  have hne : path.take (n + 2) ≠ [] := List.ne_nil_of_length_pos (by rw [List.length_take]; omega)
  rw [slashBefore, rdropWhile_take h]
  -- the byte at `n + 1` is the slash, or the loop goes on to the byte before it
  by_cases hs : path.getD (n + 1) 0 = slash
  · rw [if_pos hs, if_pos hs, if_neg hne, List.length_take, Nat.min_eq_left h]
    rfl
  · rw [if_neg hs, if_neg hs]
    cases n with
    | zero =>
        rw [if_pos rfl, rdropWhile_take (Nat.zero_lt_of_lt h), if_neg hhead, List.take_zero,
          List.rdropWhile_nil, if_pos rfl]
    | succ n => rw [if_neg (Nat.succ_ne_zero n), slashBefore_eq hhead (Nat.lt_of_succ_lt h)]

theorem dirPart_eq_take (path : CString) : path.take (dirPart path).length = dirPart path :=
  (List.prefix_iff_eq_take.mp
    ((List.rdropWhile_prefix _ _).trans path.dropLast_prefix)).symm

theorem Member.WellFormed.head (h : m.WellFormed) : m.path.getD 0 0 ≠ slash := by
  intro hs
  refine h.relative ?_
  have hpos : 0 < m.path.length := Nat.lt_of_lt_of_le (by decide) h.short.1
  rw [List.head?_eq_getElem?, List.getElem?_eq_getElem hpos, ← hs,
    List.getD_eq_getElem _ _ hpos]

/-- `parse` cuts the path behind the slash of its directory. -/
theorem parse_eq (hm : m.WellFormed) (hstart : start ≠ Fnode.file) :
    t.parse m.path type start size =
      if dirPart m.path = [] then t.add (makeNode 0 m.path start size type)
      else match t.findParent (dirPart m.path) (t.tIndex - 1) 1 with
        | some j => t.add (makeNode j m.path start size type)
        | none => some t := by
  obtain ⟨hlow, hhigh⟩ := hm.short
  obtain ⟨n, hn⟩ : ∃ n, m.path.length = n + 3 := Nat.exists_eq_add_of_le' hlow
  have hdir : (m.path.take (n + 2)).rdropWhile (· != slash) = dirPart m.path := by
    rw [dirPart, List.dropLast_eq_take, hn]
    rfl
  have hback : m.path.length - 2 = n + 1 := by omega
  rw [Tarfs.parse, if_neg hstart, if_neg (by omega), hback,
    slashBefore_eq hm.head (by omega), hdir]
  -- the slash that is found is the last byte of the directory's name
  by_cases hd : dirPart m.path = []
  · rw [if_pos hd, if_pos hd]
  · have hlen : (dirPart m.path).length - 1 + 1 = (dirPart m.path).length :=
      Nat.succ_pred_eq_of_pos (List.length_pos_iff.mpr hd)
    have htake : m.path.take ((dirPart m.path).length - 1 + 1) = dirPart m.path := by
      rw [hlen, dirPart_eq_take]
    rw [if_neg hd, if_neg hd]
    exact congrArg (fun dir ↦ match t.findParent dir (t.tIndex - 1) 1 with
      | some j => t.add (makeNode j m.path start size type)
      | none => some t) htake

/-! ## The search for the directory -/

theorem strcmp_eq_neg_one_iff {a b : CString} : strcmp a b = -1 ↔ a ≠ b := by
  rw [← not_iff_not, not_not, ← strcmp_eq_zero_iff]
  unfold strcmp
  split
  · exact iff_of_true (by decide) rfl
  · exact iff_of_false (by decide) (by decide)

/-- The search ends at the first entry of this name. -/
theorem findParent_eq_some {i : Nat} (hi : i < left) (hname : (t.root (j + i)).name = name)
    (hfirst : ∀ i' < i, (t.root (j + i')).name ≠ name) :
    t.findParent name left j = some (j + i) := by
  -- on the entries that are left, of which the `i`-th has the name
  induction left generalizing i j with
  | zero => cases hi
  | succ left ih =>
      rw [Tarfs.findParent]
      cases i with
      | zero =>
          have hj : ¬ strcmp name (t.root j).name = -1 := by
            rw [strcmp_eq_neg_one_iff, not_not]
            exact hname.symm
          rw [if_neg hj, Nat.add_zero]
      | succ i =>
          have hj : strcmp name (t.root j).name = -1 :=
            strcmp_eq_neg_one_iff.mpr (hfirst 0 i.succ_pos).symm
          have hstep (i : Nat) : j + 1 + i = j + (i + 1) := by omega
          rw [if_pos hj, ← hstep i]
          refine ih (Nat.lt_of_succ_lt_succ hi) (by rw [hstep, hname]) fun i' hi' ↦ ?_
          rw [hstep]
          exact hfirst (i' + 1) (Nat.succ_lt_succ hi')

/-! ## The index -/

/-- The entry for the directory that a path lies in, which is the first of its name; 0 at the top. -/
def IsParent (pre : List Member) (path : CString) (parent : Nat) : Prop :=
  (dirPart path = [] ∧ parent = 0) ∨
    ∃ pre₁ d pre₂, pre = pre₁ ++ d :: pre₂ ∧ d.IsDir ∧ d.path = dirPart path ∧
      parent = pre₁.length + 1 ∧ ∀ x ∈ pre₁, x.path ≠ dirPart path

/-- The entry for a member behind the members `pre` of the archive at `start`. -/
structure IsEntry (start : Nat) (pre : List Member) (m : Member) (e : Fnode) : Prop where
  name : e.name = m.path
  size : e.size = m.size
  typeflag : e.typeflag = if m.IsDir then Fnode.directory else Fnode.file
  start : e.start = start + (pre.map Member.span).sum
  parent : IsParent pre m.path e.parent

/-- One entry for each member, in the order of the archive. -/
structure IsIndex (start : Nat) (ms : List Member) (t : Tarfs) : Prop where
  count : t.tIndex = ms.length + 1
  unused : t.root 0 = {}
  entry : ∀ pre m post, ms = pre ++ m :: post → IsEntry start pre m (t.root (pre.length + 1))

theorem isIndex_init : IsIndex start [] Tarfs.init where
  count := rfl
  unused := rfl
  entry pre m post h :=
    absurd h.symm (List.append_ne_nil_of_right_ne_nil pre (List.cons_ne_nil m post))

theorem IsIndex.entry_get (h : IsIndex start ms t) (hk : k < ms.length) :
    IsEntry start (ms.take k) ms[k] (t.root (k + 1)) := by
  have he := h.entry (ms.take k) ms[k] (ms.drop (k + 1))
    (by rw [List.getElem_cons_drop, List.take_append_drop])
  rwa [List.length_take_of_le hk.le] at he

/-- Every member is the last one or one of those before it. -/
theorem IsIndex.add (h : IsIndex start pre t) (he : IsEntry start pre m e)
    (hroom : pre.length < 511) :
    ∃ t', t.add e = some t' ∧ IsIndex start (pre ++ [m]) t' := by
  have hcount := h.count
  refine ⟨_, if_pos (by omega), ⟨?_, ?_, fun pre' m' post' hsplit ↦ ?_⟩⟩
  · rw [List.length_append, hcount]
    rfl
  · show Function.update t.root t.tIndex e 0 = {}
    rw [Function.update_of_ne (by omega), h.unused]
  · rcases append_singleton_split hsplit with ⟨rfl, rfl⟩ | ⟨post, rfl⟩
    · show IsEntry start pre m (Function.update t.root t.tIndex e (pre.length + 1))
      rw [← hcount, Function.update_self]
      exact he
    · show IsEntry start pre' m' (Function.update t.root t.tIndex e (pre'.length + 1))
      rw [List.length_append, List.length_cons] at hcount
      rw [Function.update_of_ne (by omega)]
      exact h.entry pre' m' post rfl

/-- The entry that `parse` makes for a member. -/
def Member.entryType (m : Member) : Nat := if m.IsDir then Fnode.directory else Fnode.file

/-- A name with a slash at its end is a directory's. -/
theorem Member.WellFormed.isDir_of_path_eq (h : m.WellFormed) (hd : dirPart path ≠ [])
    (hm : m.path = dirPart path) : m.IsDir :=
  h.ends.mpr (by rw [hm, dirPart_getLast hd])

/-- The first member with the name of the directory is the one that `parse` finds. -/
theorem IsIndex.findParent (h : IsIndex start pre t) (hpre : ∀ x ∈ pre, x.WellFormed)
    (hd : dirPart path ≠ []) (hdir : ∃ d ∈ pre, d.IsDir ∧ d.path = dirPart path) :
    ∃ j, t.findParent (dirPart path) (t.tIndex - 1) 1 = some j ∧ IsParent pre path j := by
  -- one member has this name, so there is a first one
  obtain ⟨d, hfirst⟩ : ∃ d, pre.find? (·.path = dirPart path) = some d := by
    obtain ⟨d, hmem, -, hpath⟩ := hdir
    rw [← Option.isSome_iff_exists, List.find?_isSome]
    exact ⟨d, hmem, decide_eq_true hpath⟩
  obtain ⟨hpath, pre₁, pre₂, rfl, hbefore⟩ := List.find?_eq_some_iff_append.mp hfirst
  replace hpath : d.path = dirPart path := of_decide_eq_true hpath
  replace hbefore : ∀ x ∈ pre₁, x.path ≠ dirPart path := fun x hx ↦ by
    simpa using hbefore x hx
  have hcount := h.count
  rw [List.length_append, List.length_cons] at hcount
  refine ⟨1 + pre₁.length, findParent_eq_some (by omega) ?_ fun i hi ↦ ?_, .inr
    ⟨pre₁, d, pre₂, rfl, ?_, hpath, Nat.add_comm 1 _, hbefore⟩⟩
  · rw [Nat.add_comm, (h.entry pre₁ d pre₂ rfl).name, hpath]
  · have hlen : i < (pre₁ ++ d :: pre₂).length := by
      rw [List.length_append]
      omega
    rw [Nat.add_comm, (h.entry_get hlen).name, List.getElem_append_left hi]
    exact hbefore _ (List.getElem_mem hi)
  · exact (hpre d (List.mem_append_right _ List.mem_cons_self)).isDir_of_path_eq hd hpath

/-- One step of `init_tarfs`: a member gets its entry. -/
theorem IsIndex.parse (h : IsIndex start pre t) (hpre : ∀ x ∈ pre, x.WellFormed) (hm : m.WellFormed)
    (hdir : dirPart m.path ≠ [] → ∃ d ∈ pre, d.IsDir ∧ d.path = dirPart m.path)
    (hroom : pre.length < 511) (hstart : kernBase ≤ start) :
    ∃ t', t.parse m.path m.entryType (start + (pre.map Member.span).sum) m.size = some t' ∧
      IsIndex start (pre ++ [m]) t' := by
  -- no header lies at address 1, so the odd test of `parse` never holds
  have hfile : start + (pre.map Member.span).sum ≠ Fnode.file := by
    have hfile : Fnode.file < kernBase := by decide
    omega
  have hentry {j : Nat} (hj : IsParent pre m.path j) : IsEntry start pre m
      (makeNode j m.path (start + (pre.map Member.span).sum) m.size m.entryType) :=
    ⟨rfl, rfl, rfl, rfl, hj⟩
  rw [parse_eq hm hfile]
  by_cases hd : dirPart m.path = []
  · rw [if_pos hd]
    exact h.add (hentry (.inl ⟨hd, rfl⟩)) hroom
  · obtain ⟨j, hfind, hj⟩ := h.findParent hpre hd (hdir hd)
    rw [if_neg hd, hfind]
    exact h.add (hentry hj) hroom

/-! ## The walk -/

theorem initTarfs_cons (h : HeaderAt s start m) (hm : m.WellFormed) (hfuel : 106 < fuel)
    (hnext : start + m.span < 2 ^ 64) :
    s.initTarfs (fuel + 1) start t = (t.parse m.path m.entryType start m.size).bind fun t' ↦
      s.initTarfs fuel (start + m.span) t' := by
  have hshort := hm.short.2
  have hsize := hm.size
  rw [initTarfs, readString_eq h.magic (Nat.lt_trans (by decide) hfuel), Option.bind_some,
    if_pos (strcmp_eq_zero_iff.mpr rfl), oct2bin_eq h.size (Nat.lt_trans hsize (by decide)),
    Option.bind_some, readString_eq h.typeString (Nat.lt_of_le_of_lt h.typeString_length hfuel),
    Option.bind_some, readString_eq h.name (by omega), Option.bind_some, next_header hsize hnext]
  refine congrArg (Option.bind · _) ?_
  unfold Member.entryType
  -- `parse` gets a size of 0 for a directory, which is what its header says
  by_cases hd : m.IsDir
  · rw [if_pos (strcmp_eq_zero_iff.mpr (hm.typeString_iff.mpr hd)), if_pos hd,
      (hm.directory hd).1]
    rfl
  · rw [if_neg (mt strcmp_eq_zero_iff.mp (mt hm.typeString_iff.mp hd)), if_neg hd]

/-- The walk ends at the zeros behind the last member. -/
theorem initTarfs_nil (h : ArchiveAt s start []) : s.initTarfs (fuel + 2) start t = some t := by
  have hzero : s.readByte (start + 257) = some 0 := h.1 257 0 (by decide)
  rw [initTarfs, readString, hzero, Option.bind_some, if_pos rfl, Option.bind_some, if_neg]
  decide

/-- From the index of the members before it, the walk makes the index of the whole archive. -/
theorem IsIndex.initTarfs (h : IsIndex start pre t)
    (hpost : ArchiveAt s (start + (pre.map Member.span).sum) post)
    (hwell : ∀ m ∈ pre ++ post, m.WellFormed) (hord : Ordered (pre ++ post))
    (hroom : (pre ++ post).length ≤ 511) (hstart : kernBase ≤ start)
    (hfuel : post.length + 107 < fuel) :
    ∃ t', s.initTarfs fuel (start + (pre.map Member.span).sum) t = some t' ∧
      IsIndex start (pre ++ post) t' := by
  -- on the members to come, with those before them in the index
  induction post generalizing pre t fuel with
  | nil =>
      obtain ⟨fuel, rfl⟩ : ∃ n, fuel = n + 2 := Nat.exists_eq_add_of_le' (by omega)
      rw [List.append_nil]
      exact ⟨t, initTarfs_nil hpost, h⟩
  | cons m post ih =>
      obtain ⟨fuel, rfl⟩ := Nat.exists_eq_add_of_le' (show 1 ≤ fuel by omega)
      rw [List.length_cons] at hfuel
      rw [List.length_append, List.length_cons] at hroom
      have hm : m.WellFormed := hwell m (List.mem_append_right _ List.mem_cons_self)
      have hnext := hpost.2.le
      have hrest : post.length + 107 < fuel := by omega
      obtain ⟨t', ht, hindex⟩ := h.parse (fun x hx ↦ hwell x (List.mem_append_left _ hx)) hm
        (hord pre m post rfl) (by omega) hstart
      have hsum : start + ((pre ++ [m]).map Member.span).sum =
          start + (pre.map Member.span).sum + m.span := by
        rw [List.map_append, List.sum_append, List.map_singleton, List.sum_singleton, Nat.add_assoc]
      rw [initTarfs_cons hpost.1 hm (by omega) (by omega), ht, Option.bind_some, ← hsum]
      rw [List.append_cons pre m post] at hwell hord ⊢
      refine ih hindex (hsum ▸ hpost.2) hwell hord ?_ hrest
      rw [List.length_append, List.length_append, List.length_singleton]
      omega

theorem IsParent.lt {parent : Nat} (h : IsParent pre path parent) : parent < pre.length + 1 := by
  rcases h with ⟨-, rfl⟩ | ⟨pre₁, d, pre₂, rfl, -, -, rfl, -⟩
  · exact Nat.succ_pos _
  · rw [List.length_append, List.length_cons]
    omega

/-- Every entry lies behind the one of its directory. -/
theorem IsIndex.parent_lt (h : IsIndex start ms t) {i : Nat} (hi : 1 ≤ i) (hlt : i < t.tIndex) :
    (t.root i).parent < i := by
  have hcount := h.count
  obtain ⟨k, rfl⟩ := Nat.exists_eq_add_of_le' hi
  have hk : k < ms.length := by omega
  have hparent := (h.entry_get hk).parent.lt
  rwa [List.length_take_of_le hk.le] at hparent

theorem Archive.index (h : Archive s start ms) (hfuel : ms.length + 107 < fuel) :
    ∃ t, s.initTarfs fuel start Tarfs.init = some t ∧ IsIndex start ms t :=
  isIndex_init.initTarfs h.bytes h.members h.ordered h.room h.kernel hfuel

/-- The index of an archive holds one entry for each member, in order, with the index of its
directory. -/
theorem initTarfs_index (h : Archive s start ms) (hfuel : ms.length + 107 < fuel) :
    ∃ t, s.initTarfs fuel start Tarfs.init = some t ∧ IsIndex start ms t ∧
      ∀ i, 1 ≤ i → i < t.tIndex → (t.root i).parent < i := by
  obtain ⟨t, ht, hindex⟩ := h.index hfuel
  exact ⟨t, ht, hindex, fun i hi hlt ↦ hindex.parent_lt hi hlt⟩

theorem initTarfs_index_bin :
    ∃ t, (archiveMachine binMembers).initTarfs 120 archiveStart Tarfs.init = some t ∧
      IsIndex archiveStart binMembers t ∧ ∀ i, 1 ≤ i → i < t.tIndex → (t.root i).parent < i :=
  initTarfs_index binMembers_archive (by decide)

/-! ## Short paths -/

theorem getD_ne_slash (hd : dirPart path = []) (h : n + 1 < path.length) :
    path.getD n 0 ≠ slash := by
  have hlt : n < path.dropLast.length := by
    rw [List.length_dropLast]
    omega
  have hn := List.rdropWhile_eq_nil_iff.mp hd _ (List.getElem_mem hlt)
  rw [List.getD_eq_getElem _ _ (Nat.lt_of_succ_lt h)]
  simpa using hn

/-- From a byte behind the first one the scan never leaves the array. -/
theorem slashBefore_ne_none (path : CString) (n : Nat) : slashBefore path (n + 1) ≠ none := by
  induction n with
  | zero =>
      rw [slashBefore, if_pos rfl]
      split <;> exact Option.some_ne_none _
  | succ n ih =>
      rw [slashBefore, if_neg (Nat.succ_ne_zero n)]
      split
      · exact Option.some_ne_none _
      · exact ih

theorem slashBefore_top (hd : dirPart path = []) (h : n + 2 < path.length) :
    slashBefore path (n + 1) = some none := by
  induction n with
  | zero => rw [slashBefore, if_neg (getD_ne_slash hd h), if_pos rfl]
  | succ n ih =>
      rw [slashBefore, if_neg (getD_ne_slash hd h), if_neg (Nat.succ_ne_zero n)]
      exact ih (Nat.lt_of_succ_lt h)

/-- `parse` comes to its end without a read before its copy of the path, and a path at the top gets
an entry with parent 0. -/
def ParsesPath (t : Tarfs) (path : CString) (type start : Nat) (size : Int) : Prop :=
  ∃ t', t.parse path type start size = some t' ∧
    (dirPart path = [] → t' = ⟨Function.update t.root t.tIndex
      (makeNode 0 path start size type), t.tIndex + 1⟩)

/-- The scan starts two characters before the end, whatever the type, and looks for index 0 only
after it has gone down by one: it needs a third character, or a slash right where it starts. -/
theorem parsesPath_iff (hpath : path ≠ []) (hlen : path.length ≤ 99) (ht : t.tIndex < 512)
    (hstart : kernBase ≤ start) : ParsesPath t path type start size ↔
      3 ≤ path.length ∨ (path.length = 2 ∧ path.head? = some slash) := by
  have hfile : start ≠ Fnode.file := by
    have hfile : Fnode.file < kernBase := by decide
    omega
  have hadd (e : Fnode) : t.add e = some ⟨Function.update t.root t.tIndex e, t.tIndex + 1⟩ :=
    if_pos ht
  rw [ParsesPath, Tarfs.parse, if_neg hfile]
  match path, hpath with
  | [a], _ =>
      -- the scan starts at index -1
      rw [if_pos (Or.inl (by simp))]
      simp
  | [a, b], _ =>
      rw [if_neg (by simp)]
      simp only [List.length_cons, List.length_nil, Nat.sub_self, slashBefore, List.getD_cons_zero]
      by_cases ha : a = slash
      · rw [if_pos ha]
        have hd : dirPart [a, b] ≠ [] := by
          rw [ha]
          change [slash].rdropWhile (· != slash) ≠ []
          decide
        refine iff_of_true ?_ (by simp [ha])
        dsimp only
        split
        · exact ⟨_, hadd _, fun h ↦ absurd h hd⟩
        · exact ⟨t, rfl, fun h ↦ absurd h hd⟩
      · -- and from index 0 it goes on to index -1
        rw [if_neg ha]
        simp [ha]
  | a :: b :: c :: path, _ =>
      rw [if_neg (by simp only [List.length_cons] at hlen ⊢; omega)]
      refine iff_of_true ?_ (Or.inl (by simp))
      have hback : (a :: b :: c :: path).length - 2 = path.length + 1 := by simp
      rw [hback]
      by_cases hd : dirPart (a :: b :: c :: path) = []
      · rw [slashBefore_top hd (by simp)]
        exact ⟨_, hadd _, fun _ ↦ rfl⟩
      · obtain ⟨r, hr⟩ := Option.ne_none_iff_exists'.mp
          (slashBefore_ne_none (a :: b :: c :: path) path.length)
        rw [hr]
        cases r with
        | none => exact ⟨_, hadd _, fun h ↦ absurd h hd⟩
        | some len =>
            dsimp only
            split
            · exact ⟨_, hadd _, fun h ↦ absurd h hd⟩
            · exact ⟨t, rfl, fun h ↦ absurd h hd⟩

theorem parsesPath_bin :
    ParsesPath Tarfs.init (cstr "bin") Fnode.file archiveStart 5 :=
  (parsesPath_iff (by decide) (by decide) (by decide) (by decide)).mpr (Or.inl (by decide))

/-- The directory `a/` at the top makes the scan read the byte before its array. -/
theorem parsesPath_short : ¬ ParsesPath Tarfs.init (cstr "a/") Fnode.directory archiveStart 0 := by
  rintro ⟨t', ht, -⟩
  have hnone : Tarfs.init.parse (cstr "a/") Fnode.directory archiveStart 0 = none := by
    decide +kernel
  rw [hnone] at ht
  cases ht

end Sbunix
