import Sbunix.Sys.TarIndex
import Sbunix.Sys.Files

/-!
# Two lookups

`openSyscall` searches the index that was made at boot, `isFile` and `isDir` walk the archive.  Both
find the first member of a name among those that they take for files, or for directories.
-/

namespace Sbunix

open Reasoning Machine

variable {s : Machine} {t : Tarfs} {start a i left type fuel : Nat} {path name kind : CString}
  {m : Member} {ms pre post : List Member} {q q' : Member → Prop} [DecidablePred q]
  [DecidablePred q']

/-! ## The search in the index -/

namespace Tarfs

def Has (t : Tarfs) (path : CString) (type i : Nat) : Prop :=
  (t.root i).name = path ∧ (t.root i).typeflag = type

/-- The first entry with this name and type. -/
structure First (t : Tarfs) (path : CString) (type i : Nat) : Prop where
  pos : 1 ≤ i
  lt : i < t.tIndex
  has : t.Has path type i
  first : ∀ j, 1 ≤ j → j < i → ¬ t.Has path type j

/-- Every entry has a name. -/
structure Named (t : Tarfs) : Prop where
  pos : 1 ≤ t.tIndex
  name : ∀ i, 1 ≤ i → i < t.tIndex → (t.root i).name ≠ []

/-- The search ends at the first entry, or behind the last one. -/
theorem search_eq (path : CString) (type : Nat) (hnamed : ∀ k < left, (t.root (i + k)).name ≠ []) :
    (∃ k < left, t.search path type left i = (i + k, true) ∧ t.Has path type (i + k) ∧
      ∀ k' < k, ¬ t.Has path type (i + k')) ∨
    (t.search path type left i = (i + left, false) ∧ ∀ k < left, ¬ t.Has path type (i + k)) := by
  induction left generalizing i with
  | zero => exact .inr ⟨rfl, fun k hk ↦ absurd hk (Nat.not_lt_zero k)⟩
  | succ left ih =>
      have hshift (k : Nat) : i + 1 + k = i + (k + 1) := by omega
      have hname : (t.root i).name.length ≠ 0 :=
        mt List.length_eq_zero_iff.mp (hnamed 0 left.succ_pos)
      have hcond : strcmp (t.root i).name path = 0 ∧ (t.root i).typeflag = type ↔
          t.Has path type i := and_congr_left' strcmp_eq_zero_iff
      rw [search, if_neg hname]
      by_cases hhas : t.Has path type i
      · exact .inl ⟨0, left.succ_pos, if_pos (hcond.mpr hhas), hhas,
          fun k hk ↦ absurd hk (Nat.not_lt_zero k)⟩
      · rw [if_neg (mt hcond.mp hhas)]
        -- the first of the entries from `i + 1` on, of which `i` is none
        have hnone {n : Nat} (h : ∀ k < n, ¬ t.Has path type (i + 1 + k)) :
            ∀ k < n + 1, ¬ t.Has path type (i + k) := by
          intro k hk
          cases k with
          | zero => exact hhas
          | succ k => exact hshift k ▸ h k (Nat.lt_of_succ_lt_succ hk)
        have hrest : ∀ k < left, (t.root (i + 1 + k)).name ≠ [] := fun k hk ↦
          hshift k ▸ hnamed (k + 1) (Nat.succ_lt_succ hk)
        rcases ih hrest with ⟨k, hk, hs, hk', hfirst⟩ | ⟨hs, hall⟩
        · rw [hshift] at hs hk'
          exact .inl ⟨k + 1, Nat.succ_lt_succ hk, hs, hk', hnone hfirst⟩
        · rw [hshift] at hs
          exact .inr ⟨hs, hnone hall⟩

theorem Named.lookup_eq (h : t.Named) (path : CString) (type : Nat) :
    (∃ i, t.lookup path type = (i, true) ∧ t.First path type i) ∨
      (t.lookup path type = (t.tIndex, false) ∧
        ∀ i, 1 ≤ i → i < t.tIndex → ¬ t.Has path type i) := by
  have hpos := h.pos
  have hcount : 1 + (t.tIndex - 1) = t.tIndex := by omega
  have hnamed : ∀ k < t.tIndex - 1, (t.root (1 + k)).name ≠ [] := fun k hk ↦
    h.name (1 + k) (by omega) (by omega)
  rcases search_eq path type hnamed with ⟨k, hk, hs, hhas, hfirst⟩ | ⟨hs, hall⟩
  · refine .inl ⟨1 + k, hs, by omega, by omega, hhas, fun j hj hlt ↦ ?_⟩
    rw [show j = 1 + (j - 1) by omega]
    exact hfirst (j - 1) (by omega)
  · refine .inr ⟨hcount ▸ hs, fun j hj hlt ↦ ?_⟩
    rw [show j = 1 + (j - 1) by omega]
    exact hall (j - 1) (by omega)

end Tarfs

theorem IsIndex.named (h : IsIndex start ms t) (hwell : ∀ m ∈ ms, m.WellFormed) : t.Named where
  pos := by
    have hcount := h.count
    omega
  name i hi hlt := by
    have hcount := h.count
    obtain ⟨k, rfl⟩ := Nat.exists_eq_add_of_le' hi
    have hk : k < ms.length := by omega
    rw [(h.entry_get hk).name]
    exact List.ne_nil_of_length_pos
      (Nat.lt_of_lt_of_le (by decide) (hwell _ (List.getElem_mem hk)).short.1)

/-! ## Addresses of members -/

/-- The address behind the first header that `q` holds of, in an archive at `a`; or NULL. -/
def firstAddress (q : Member → Prop) [DecidablePred q] : Nat → List Member → Nat
  | _, [] => 0
  | a, m :: ms => if q m then a + 512 else firstAddress q (a + m.span) ms

theorem Member.span_ge (m : Member) : 512 ≤ m.span := Nat.le_add_right 512 _

theorem firstAddress_ge : firstAddress q a ms = 0 ∨ a + 512 ≤ firstAddress q a ms := by
  induction ms generalizing a with
  | nil => exact .inl rfl
  | cons m ms ih =>
      rw [firstAddress]
      split
      · exact .inr (Nat.le_refl _)
      · exact ih.imp_right fun h ↦ Nat.le_trans (by omega) h

theorem firstAddress_ne_zero (hm : m ∈ ms) (hq : q m) : firstAddress q a ms ≠ 0 := by
  induction ms generalizing a with
  | nil => cases hm
  | cons x ms ih =>
      rw [firstAddress]
      by_cases hx : q x
      · rw [if_pos hx]
        exact Nat.succ_ne_zero _
      · rw [if_neg hx]
        rcases List.mem_cons.mp hm with rfl | hm
        · exact absurd hq hx
        · exact ih hm

theorem firstAddress_congr (h : ∀ m ∈ ms, (q m ↔ q' m)) :
    firstAddress q a ms = firstAddress q' a ms := by
  induction ms generalizing a with
  | nil => rfl
  | cons m ms ih =>
      rw [firstAddress, firstAddress, ih fun x hx ↦ h x (List.mem_cons_of_mem m hx)]
      exact if_congr (h m List.mem_cons_self) rfl rfl

/-- The first member of the larger kind is one of the smaller kind. -/
theorem firstAddress_eq_iff (hsub : ∀ m, q m → q' m) :
    firstAddress q a ms = firstAddress q' a ms ↔
      ∀ pre m post, ms = pre ++ m :: post → q' m → ¬ q m → ∃ x ∈ pre, q x := by
  induction ms generalizing a with
  | nil => exact iff_of_true rfl fun pre m post h ↦ by simp at h
  | cons m ms ih =>
      rw [firstAddress, firstAddress]
      by_cases hq : q m
      · rw [if_pos hq, if_pos (hsub m hq)]
        refine iff_of_true rfl fun pre x post h _ hx ↦ ?_
        cases pre with
        | nil => exact absurd hq ((List.cons.inj h).1 ▸ hx)
        | cons y pre => exact ⟨m, (List.cons.inj h).1 ▸ List.mem_cons_self, hq⟩
      · rw [if_neg hq]
        by_cases hq' : q' m
        · rw [if_pos hq']
          -- `q'` stops here, and `q` stops behind this member if at all
          refine iff_of_false ?_ fun h ↦ ?_
          · have hspan := m.span_ge
            have hge : firstAddress q (a + m.span) ms = 0 ∨
                a + m.span + 512 ≤ firstAddress q (a + m.span) ms := firstAddress_ge
            omega
          · obtain ⟨x, hx, -⟩ := h [] m ms rfl hq' hq
            cases hx
        · rw [if_neg hq', ih]
          constructor
          · intro h pre x post hsplit hx hx'
            cases pre with
            | nil => exact absurd hx ((List.cons.inj hsplit).1 ▸ hq')
            | cons y pre =>
                obtain ⟨z, hz, hqz⟩ := h pre x post (List.cons.inj hsplit).2 hx hx'
                exact ⟨z, List.mem_cons_of_mem y hz, hqz⟩
          · intro h pre x post hsplit hx hx'
            obtain ⟨z, hz, hqz⟩ := h (m :: pre) x post (by rw [hsplit, List.cons_append]) hx hx'
            rcases List.mem_cons.mp hz with rfl | hz
            · exact absurd hqz hq
            · exact ⟨z, hz, hqz⟩

theorem findTyped_eq (h : ArchiveAt s a ms) (hwell : ∀ m ∈ ms, m.WellFormed)
    (hfuel : ms.length + 107 < fuel) : s.findTyped kind name fuel a =
      some (firstAddress (fun m ↦ m.path = name ∧ m.typeString = kind) a ms) := by
  induction ms generalizing a fuel with
  | nil =>
      obtain ⟨fuel, rfl⟩ : ∃ n, fuel = n + 2 := Nat.exists_eq_add_of_le' (by omega)
      have hzero : s.readByte (a + 257) = some 0 := h.1 257 0 (by decide)
      rw [findTyped, readString, hzero, Option.bind_some, if_pos rfl, Option.bind_some, if_neg]
      · rfl
      · decide
  | cons m ms ih =>
      obtain ⟨fuel, rfl⟩ := Nat.exists_eq_add_of_le' (show 1 ≤ fuel by omega)
      rw [List.length_cons] at hfuel
      have hm : m.WellFormed := hwell m List.mem_cons_self
      have hshort := hm.short.2
      have hend := h.2.le
      have hread := h.1.typeString_length
      rw [findTyped, readString_eq h.1.magic (Nat.lt_trans (by decide) (by omega : 106 < fuel)),
        Option.bind_some, if_pos (strcmp_eq_zero_iff.mpr rfl),
        oct2bin_eq h.1.size (Nat.lt_trans hm.size (by decide)), Option.bind_some,
        readString_eq h.1.name (by omega), Option.bind_some,
        readString_eq h.1.typeString (by omega), next_header hm.size (by omega),
        ih h.2 (fun x hx ↦ hwell x (List.mem_cons_of_mem m hx)) (by omega), firstAddress]
      -- the type is read only where the name is right
      by_cases hname : m.path = name
      · rw [if_pos (strcmp_eq_zero_iff.mpr hname), Option.map_some, Option.bind_some]
        by_cases hkind : m.typeString = kind
        · rw [if_pos (decide_eq_true (strcmp_eq_zero_iff.mpr hkind)), if_pos ⟨hname, hkind⟩,
            Nat.mod_eq_of_lt (by omega)]
        · rw [if_neg (mt of_decide_eq_true (mt strcmp_eq_zero_iff.mp hkind)),
            if_neg fun h ↦ hkind h.2]
      · rw [if_neg (mt strcmp_eq_zero_iff.mp hname), Option.bind_some, if_neg Bool.false_ne_true,
          if_neg fun h ↦ hname h.1]

/-- The address behind the header of the entry that a search found, or NULL. -/
def Tarfs.pointer (t : Tarfs) : Nat × Bool → Nat
  | (i, true) => (t.root i).start + 512
  | (_, false) => 0

/-- The search from an entry on goes through the members from there on. -/
theorem IsIndex.search_pointer (h : IsIndex start (pre ++ post) t)
    (hwell : ∀ m ∈ post, m.WellFormed) :
    t.pointer (t.search path type post.length (pre.length + 1)) =
      firstAddress (fun m ↦ m.path = path ∧ m.entryType = type)
        (start + (pre.map Member.span).sum) post := by
  induction post generalizing pre with
  | nil => rfl
  | cons m post ih =>
      have he := h.entry pre m post rfl
      have hm : m.path.length ≠ 0 := by
        have := (hwell m List.mem_cons_self).short.1
        omega
      rw [List.length_cons, Tarfs.search, he.name, he.typeflag, if_neg hm, firstAddress]
      by_cases hq : m.path = path ∧ m.entryType = type
      · rw [if_pos ⟨strcmp_eq_zero_iff.mpr hq.1, hq.2⟩, if_pos hq, Tarfs.pointer, he.start]
      · rw [if_neg fun hc ↦ hq ⟨strcmp_eq_zero_iff.mp hc.1, hc.2⟩, if_neg hq]
        rw [List.append_cons] at h
        have hrest := ih h fun x hx ↦ hwell x (List.mem_cons_of_mem m hx)
        rwa [List.length_append, List.map_append, List.sum_append, ← Nat.add_assoc] at hrest

theorem IsIndex.lookup_pointer (h : IsIndex start ms t) (hwell : ∀ m ∈ ms, m.WellFormed) :
    t.pointer (t.lookup path type) =
      firstAddress (fun m ↦ m.path = path ∧ m.entryType = type) start ms := by
  have hall : IsIndex start ([] ++ ms) t := h
  rw [Tarfs.lookup, h.count]
  exact hall.search_pointer hwell

/-! ## When they agree -/

/-- `isFile` and `isDir` find the entry that `openSyscall` finds, and nothing when it finds none. -/
def LookupsAgree (s : Machine) (fuel start : Nat) (t : Tarfs) : Prop :=
  ∀ name, s.isFile name fuel start = some (t.pointer (t.lookup name Fnode.file)) ∧
    s.isDir name fuel start = some (t.pointer (t.lookup name Fnode.directory))

theorem Member.WellFormed.entryType_eq_directory (h : m.WellFormed) :
    m.entryType = Fnode.directory ↔ m.typeString = cstr "5" := by
  rw [h.typeString_iff, Member.entryType]
  split
  · rename_i hd
    exact iff_of_true rfl hd
  · rename_i hd
    exact iff_of_false (by decide) hd

theorem Member.entryType_eq_file : m.entryType = Fnode.file ↔ ¬ m.IsDir := by
  rw [Member.entryType]
  split
  · rename_i hd
    exact iff_of_false (by decide) (not_not.mpr hd)
  · rename_i hd
    exact iff_of_true rfl hd

theorem Member.entryType_of_typeString (h : m.typeString = cstr "0") : m.entryType = Fnode.file := by
  rw [entryType_eq_file]
  intro hd
  unfold typeString at h
  split at h
  · cases h
  · exact absurd ((List.cons.inj h).1.symm.trans hd) (by decide)

/-- Both lookups of an archive in terms of its members. -/
theorem Archive.lookupsAgree (h : Archive s start ms) (ht : IsIndex start ms t)
    (hfuel : ms.length + 107 < fuel) : LookupsAgree s fuel start t ↔ ∀ name,
      firstAddress (fun m ↦ m.path = name ∧ m.typeString = cstr "0") start ms =
        firstAddress (fun m ↦ m.path = name ∧ m.entryType = Fnode.file) start ms := by
  refine forall_congr' fun name ↦ ?_
  have hdir : s.isDir name fuel start = some (t.pointer (t.lookup name Fnode.directory)) := by
    rw [isDir, findTyped_eq h.bytes h.members hfuel, ht.lookup_pointer h.members]
    refine congrArg some (firstAddress_congr fun m hm ↦ ?_)
    rw [(h.members m hm).entryType_eq_directory]
  rw [isFile, findTyped_eq h.bytes h.members hfuel, ht.lookup_pointer h.members, Option.some_inj,
    and_iff_left hdir]

/-- The lookups agree just when every file that is no `0` comes behind a `0` of its name. -/
theorem lookupsAgree_iff (h : Archive s start ms) (hfuel : ms.length + 107 < fuel) :
    ∃ t, s.initTarfs fuel start Tarfs.init = some t ∧ (LookupsAgree s fuel start t ↔
      ∀ pre m post, ms = pre ++ m :: post → ¬ m.IsDir → m.typeString ≠ cstr "0" →
        ∃ x ∈ pre, x.path = m.path ∧ x.typeString = cstr "0") := by
  obtain ⟨t, ht, hindex⟩ := h.index hfuel
  refine ⟨t, ht, (h.lookupsAgree hindex hfuel).trans ?_⟩
  have hsub (name : CString) (m : Member) (hm : m.path = name ∧ m.typeString = cstr "0") :
      m.path = name ∧ m.entryType = Fnode.file := ⟨hm.1, Member.entryType_of_typeString hm.2⟩
  constructor
  · intro hall pre m post hsplit hdir htype
    exact (firstAddress_eq_iff (hsub m.path)).mp (hall m.path) pre m post hsplit
      ⟨rfl, Member.entryType_eq_file.mpr hdir⟩ fun hm ↦ htype hm.2
  · intro hall name
    refine (firstAddress_eq_iff (hsub name)).mpr fun pre m post hsplit hm hm' ↦ ?_
    obtain ⟨rfl, hfile⟩ := hm
    exact hall pre m post hsplit (Member.entryType_eq_file.mp hfile) fun hz ↦ hm' ⟨rfl, hz⟩

theorem lookupsAgree_bin : ∃ t,
    (archiveMachine binMembers).initTarfs 120 archiveStart Tarfs.init = some t ∧
      LookupsAgree (archiveMachine binMembers) 120 archiveStart t := by
  obtain ⟨t, ht, h⟩ := lookupsAgree_iff binMembers_archive (show _ < 120 by decide)
  refine ⟨t, ht, h.mpr fun pre m post hsplit hdir htype ↦ absurd ?_ htype⟩
  -- all files of this archive are of type `0`
  have hall : ∀ m ∈ binMembers, ¬ m.IsDir → m.typeString = cstr "0" := by decide
  refine hall m ?_ hdir
  rw [hsplit]
  exact List.mem_append_right _ List.mem_cons_self

/-- A hard link to a file before it. -/
def linkMembers : List Member :=
  [⟨cstr "bin/", 0, chr '5', []⟩, ⟨cstr "bin/ls", 5, chr '0', []⟩,
    ⟨cstr "bin/dir", 0, chr '1', cstr "bin/ls"⟩]

theorem linkMembers_archive : Archive (archiveMachine linkMembers) archiveStart linkMembers :=
  archive_archiveMachine (by decide) (by decide) (by decide) (by decide) (by decide)

/-- The link has an entry that `openSyscall` opens, and `isFile` does not find it. -/
theorem lookupsAgree_link : Archive (archiveMachine linkMembers) archiveStart linkMembers ∧
    ∃ t, (archiveMachine linkMembers).initTarfs 120 archiveStart Tarfs.init = some t ∧
      ¬ LookupsAgree (archiveMachine linkMembers) 120 archiveStart t := by
  have hfuel : linkMembers.length + 107 < 120 := by decide
  obtain ⟨t, ht, hindex⟩ := linkMembers_archive.index hfuel
  refine ⟨linkMembers_archive, t, ht, fun hagree ↦ ?_⟩
  have h := (linkMembers_archive.lookupsAgree hindex hfuel).mp hagree (cstr "bin/dir")
  exact absurd h (by decide)

end Sbunix
