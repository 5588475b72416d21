import Sbunix.Sys.ElfImage
import Sbunix.Sys.ExecVector

/-!
# The address space of a new program

Before `execveSyscall` loads the program it takes three pages for the kernel's records and one for
the topmost table.  Memory in use stays as it is but for the window's tables, and the new tables map
nothing if the frame of the topmost one is clear.
-/

namespace Sbunix

open Reasoning Kernel Machine

variable {s s' s'' : Machine} {mem : Memory} {w n r a v x argv i ehdr : Nat}
  {free free' : List Nat} {l : List UInt8} {B B' : Nat → List UInt8 → Prop} {args : List CString}
  {f : Elf}

/-! ## Memory in use -/

/-- The kernel's own allocations do not write to the physical address `x`. -/
def Settled (w : Nat) (s : Machine) (free : List Nat) (x : Nat) : Prop :=
  x / 4096 * 4096 ∉ windowFrames s.mem w ∧ x / 4096 * 4096 ∉ framesOf free

/-- Memory in use is the same. -/
def SameInUse (w : Nat) (s : Machine) (free : List Nat) (s' : Machine) : Prop :=
  ∀ x, Settled w s free x → s'.mem x = s.mem x

theorem Kept.sameInUse (h : Kept w s free s' free') : SameInUse w s free s' := by
  obtain ⟨l, rfl, hl⟩ := h.taken
  exact fun x hx ↦ hl x hx.1 fun hf ↦ hx.2 (framesOf_mono (List.subset_append_left l free') hf)

theorem SameInUse.trans (h : SameInUse w s free s') (h' : SameInUse w s' free' s'')
    (hw : windowFrames s'.mem w = windowFrames s.mem w) (hf : free' ⊆ free) :
    SameInUse w s free s'' := by
  intro x hx
  rw [h' x ⟨by rw [hw]; exact hx.1, fun hm ↦ hx.2 (framesOf_mono hf hm)⟩, h x hx]

/-- The tables of the user are in use. -/
theorem SameInUse.sameOn (h : SameInUse w s free s') (hu : UserTree s.mem w r free) :
    SameOn (tableFrames userEntries s.mem r) s.mem s'.mem :=
  fun x hx ↦ h x ⟨hu.window _ hx, hu.free _ hx⟩

theorem SameInUse.translate (h : SameInUse w s free s') (hu : UserTree s.mem w s.cr3 free)
    (hc : s'.cr3 = s.cr3) (hv : v < 2 ^ 47) : s'.translate v = s.translate v := by
  have hwalk : s'.walk v = s.walk v := by
    have hpath : ∀ s : Machine, s.walk v = pageAt userEntries s.mem s.cr3 (pagePath v) := fun s ↦
      (pageAt_restrict (user_index hv)).symm
    rw [hpath, hpath, hc, pageAt_congr hu.dvd (h.sameOn hu)]
  rw [translate_user hv, translate_user hv, hwalk]

/-- The user reads the bytes `l` at `a`, from frames in use. -/
def UserBytes (w : Nat) (s : Machine) (free : List Nat) (a : Nat) (l : List UInt8) : Prop :=
  ∀ i b, l[i]? = some b → a + i < 2 ^ 47 ∧
    ∃ x, s.translate (a + i) = some x ∧ s.mem x = b ∧ Settled w s free x

theorem UserBytes.bytesAt (h : UserBytes w s free a l) (hs : SameInUse w s free s')
    (hu : UserTree s.mem w s.cr3 free) (hc : s'.cr3 = s.cr3) : BytesAt s' a l := by
  intro i b hi
  obtain ⟨hv, x, hx, rfl, hset⟩ := h i b hi
  rw [readByte, hs.translate hu hc hv, hx, Option.map_some, hs x hset]

theorem VectorAt.mono (h : VectorAt B argv i args) (hB : ∀ a l, B a l → B' a l) :
    VectorAt B' argv i args := by
  induction args generalizing i with
  | nil =>
      obtain ⟨p, hp, hlt, ht⟩ := h
      exact ⟨p, hB _ _ hp, hlt, hB _ _ ht⟩
  | cons t args ih =>
      obtain ⟨⟨p, hp, hlt, ht, hzero⟩, hne, hrest⟩ := h
      exact ⟨⟨p, hB _ _ hp, hlt, hB _ _ ht, hzero⟩, hne, ih hrest⟩

/-! ## The topmost table -/

/-- The machine has come from `s` to `s'` with a table at `r` for a new program, which maps nothing of
the user's half yet. -/
structure NewSpace (w : Nat) (s : Machine) (free : List Nat) (s' : Machine) (r : Nat)
    (free' : List Nat) : Prop where
  space : Space w (s'.loadCR3 r) free'
  tables : tableFrames userEntries s'.mem r = {r}
  empty : ∀ v < 2 ^ 47, (s'.loadCR3 r).walk v = none
  cr3 : s'.cr3 = s.cr3
  inUse : SameInUse w s free s'
  frames : windowFrames s'.mem w = windowFrames s.mem w
  root : r ∈ framesOf free
  subset : free' ⊆ free

/-- No entry of the user stands in the frame `r`. -/
def NoUserEntry (mem : Memory) (r : Nat) : Prop := ∀ i, userEntries i → ¬ Present (entry mem r i)

theorem NoUserEntry.child_none {e : Nat} (h : NoUserEntry mem r) (hd : 4096 ∣ r) (i : Fin 512) :
    child userEntries (mem.store64 (r + 8 * (511 : Fin 512)) e) 2 r i = none := by
  by_cases hU : userEntries i
  · have hi : i ≠ 511 := by
      intro hi
      rw [hi] at hU
      exact absurd hU (by decide)
    refine child_of_absent ?_
    rw [entry_store64_of_ne hd hd (by simp [hi])]
    exact h i hU
  · exact child_of_outside hU

/-! A table without an entry of the user is all of its tree, and maps nothing. -/

theorem userTree_leafless (hnone : ∀ i, child userEntries mem 2 r i = none)
    (hr : 4096 ∣ r ∧ r < 2 ^ 31) (hw : r ∉ windowFrames mem w) (hf : r ∉ framesOf free) :
    UserTree mem w r free ∧ tableFrames userEntries mem r = {r} := by
  have htab : tableFrames userEntries mem r = {r} := tables_leafless hnone
  refine ⟨⟨.leafless hnone, ?_, ?_, ?_⟩, htab⟩
  · rw [htab]
    rintro t rfl
    exact hr
  · rw [htab]
    rintro t rfl
    exact hw
  · rw [htab]
    rintro t rfl
    exact hf

theorem walk_leafless (hnone : ∀ i, child userEntries s.mem 2 r i = none) (hv : v < 2 ^ 47) :
    (s.loadCR3 r).walk v = none := by
  have hpath : (s.loadCR3 r).walk v = pageAt userEntries s.mem r (pagePath v) :=
    (pageAt_restrict (user_index hv)).symm
  rw [hpath]
  change leaf _ _ 3 r (getIndex v 39 :: _) = none
  rw [leaf, hnone]
  rfl

/-- `setUserSpace` in a frame without an entry of the user. -/
theorem setUserSpace_space (h : Ready w s (n :: free)) (hclear : NoUserEntry s.mem (n * 4096)) :
    s.setUserSpace.1 = n * 4096 ∧
      NewSpace w s (n :: free) s.setUserSpace.2 (n * 4096) free := by
  have hn := h.free_lt n List.mem_cons_self
  have hd : 4096 ∣ n * 4096 := Nat.dvd_mul_left _ _
  have hr : 4096 ∣ n * 4096 ∧ n * 4096 < 2 ^ 31 := ⟨hd, by omega⟩
  obtain ⟨ha, hf, hcr3, hm⟩ := setUserSpace_spec h.freeList hn
  rw [readEntry_kptr s h.root.2] at hm
  -- the only entry that is stored is number 511 of the new table
  have hother : ∀ x, x / 4096 * 4096 ≠ n * 4096 → s.setUserSpace.2.mem x = s.mem x := by
    intro x hx
    have h511 : (511 : Fin 512).val = 511 := rfl
    rw [hm, Memory.store64_apply_of_lt (by omega)]
  have hw : n * 4096 ∉ windowFrames s.mem w := h.window.apart _ ⟨n, List.mem_cons_self, rfl⟩
  obtain ⟨hwin, hframes⟩ := h.window.congr fun x hx ↦ hother x fun he ↦ hw (he ▸ hx)
  have hw' : n * 4096 ∉ windowFrames s.setUserSpace.2.mem w := by rwa [hframes]
  have hnf : n * 4096 ∉ framesOf free := fun hmf ↦
    h.freeList.nodup_cons (mem_framesOf.mp hmf)
  have hnone : ∀ i, child userEntries s.setUserSpace.2.mem 2 (n * 4096) i = none := by
    rw [hm]
    exact hclear.child_none hd
  have hshared : child allEntries s.setUserSpace.2.mem 2 (n * 4096) 511 = some w := by
    obtain ⟨hp, hfr, -⟩ := child_eq_some h.shared
    have he : entry s.setUserSpace.2.mem (n * 4096) 511 = entry s.mem s.cr3 511 := by
      rw [hm]
      exact entry_store64_self (entry_lt _ _ _)
    rw [child, he, if_pos ⟨fun _ ↦ rfl, hp⟩, hfr]
  obtain ⟨htree, htab⟩ := userTree_leafless hnone hr hw' hnf
  have hready : Ready w (s.setUserSpace.2.loadCR3 (n * 4096)) free :=
    ⟨hf, fun m hmf ↦ h.free_lt m (List.mem_cons_of_mem n hmf), hwin.tail, hr, ⟨hw', hnf⟩, hshared⟩
  exact ⟨ha, ⟨hready, htree⟩, htab, fun v hv ↦ walk_leafless hnone hv, hcr3,
    fun x hx ↦ hother x fun he ↦ hx.2 ⟨n, List.mem_cons_self, he⟩, hframes,
    ⟨n, List.mem_cons_self, rfl⟩, List.subset_cons_self n free⟩

/-- The kernel's own allocations before the table. -/
theorem Kept.newSpace {free'' : List Nat} (h : Kept w s free s' free')
    (hnew : NewSpace w s' free' s'' r free'') : NewSpace w s free s'' r free'' := by
  obtain ⟨l, hl, -⟩ := h.taken
  have hsub : free' ⊆ free := by
    rw [hl]
    exact List.subset_append_right l free'
  exact ⟨hnew.space, hnew.tables, hnew.empty, hnew.cr3.trans h.cr3,
    h.sameInUse.trans hnew.inUse h.frames hsub, hnew.frames.trans h.frames,
    framesOf_mono hsub hnew.root, fun m hm ↦ hsub (hnew.subset hm)⟩

/-- A frame that is free is not written to before it is taken. -/
theorem Kept.noUserEntry (h : Kept w s free s' free') (hs : Ready w s free) (hn : n ∈ free')
    (hclear : NoUserEntry s.mem (n * 4096)) : NoUserEntry s'.mem (n * 4096) := by
  obtain ⟨l, rfl, hl⟩ := h.taken
  have hnl : n ∉ l := fun hnl ↦ by
    have hd := hs.freeList.nodup
    rw [List.nodup_append] at hd
    exact hd.2.2 n hnl n hn rfl
  -- the kernel has written to the window's tables and to the pages it took
  have hsame : ∀ x, n * 4096 ≤ x → x < n * 4096 + 4096 → s'.mem x = s.mem x := by
    intro x hx hx'
    have hframe : x / 4096 * 4096 = n * 4096 := by omega
    refine hl x ?_ ?_
    · rw [hframe]
      exact hs.window.apart _ ⟨n, List.mem_append_right l hn, rfl⟩
    · rw [hframe]
      exact fun hm ↦ hnl (mem_framesOf.mp hm)
  intro i hi
  rw [entry_congr hsame]
  exact hclear i hi

/-! ## What stays readable -/

/-- The file, which the loader reads under the new tables. -/
theorem NewSpace.elfAt (h : NewSpace w s free s' r free') (hf : f.At w s free ehdr) :
    f.At w (s'.loadCR3 r) free' ehdr := by
  have hfile := hf.file
  refine hf.congr ⟨hfile.kernel, hfile.bound, fun i hi ↦ ?_, fun i hi hm ↦ ?_, fun i hi ↦ ?_⟩
    fun i hi ↦ h.inUse _ ⟨hfile.apart.window i hi, hfile.apart.free i hi⟩
  · change _ ∉ windowFrames s'.mem w
    rw [h.frames]
    exact hfile.apart.window i hi
  · exact hfile.apart.free i hi (framesOf_mono h.subset hm)
  · change _ ∉ tableFrames userEntries s'.mem r
    rw [h.tables, Set.mem_singleton_iff]
    intro he
    exact hfile.apart.free i hi (by rw [he]; exact h.root)

end Sbunix
