import Sbunix.Reasoning.RadixTable
import Sbunix.Sys.Mmu

/-!
# Address spaces

The four levels under a top-level table are a radix tree of height 3 in physical memory.  A set of
top-level entries singles out a part of it, such as the user addresses.  `map_v_p2` hangs the
tables that are missing on the path of an address and writes one value.
-/

namespace Sbunix

open Reasoning

/-- The table of height `n` that entry `i` of `t` leads to, for the top-level entries `U`. -/
def child (U : Fin 512 → Bool) (mem : Memory) (n t : Nat) (i : Fin 512) : Option Nat :=
  if (n = 2 → U i) ∧ Present (entry mem t i) then some (frame (entry mem t i)) else none

/-- The page that entry `i` of a table of the last level maps. -/
def pageEntry (mem : Memory) (t : Nat) (i : Fin 512) : Option Nat :=
  if Present (entry mem t i) then some (entry mem t i) else none

def allEntries : Fin 512 → Bool := fun _ ↦ true

/-- The top-level entries that `forkSyscall` copies table by table. -/
def userEntries (i : Fin 512) : Bool := i < 510

/-- The three tables below the top level that `v` is translated through. -/
def tablePath (v : Nat) : List (Fin 512) := [getIndex v 39, getIndex v 30, getIndex v 21]

def pagePath (v : Nat) : List (Fin 512) := tablePath v ++ [getIndex v 12]

/-- The table that a path leads to. -/
def tableAt (U : Fin 512 → Bool) (mem : Memory) (r : Nat) (p : List (Fin 512)) : Option Nat :=
  descend (child U mem) 3 r p

/-- The entry that maps the page of a path. -/
def pageAt (U : Fin 512 → Bool) (mem : Memory) (r : Nat) (q : List (Fin 512)) : Option Nat :=
  leaf (child U mem) (pageEntry mem) 3 r q

/-- The table frames under `r`. -/
abbrev tableFrames (U : Fin 512 → Bool) (mem : Memory) (r : Nat) : Set Nat :=
  tables (child U mem) 3 r

/-- The frames of a list of page numbers. -/
def framesOf (l : List Nat) : Set Nat := {f | ∃ n ∈ l, f = n * 4096}

/-- The tables under `r` form a tree of frames inside the window, none of them free. -/
structure Paged (U : Fin 512 → Bool) (s : Machine) (r : Nat) (free : List Nat) : Prop where
  tree : IsTree (child U s.mem) 3 r
  aligned : ∀ t ∈ tableFrames U s.mem r, 4096 ∣ t ∧ t < 2 ^ 31
  freeList : FreeList s.alloc free
  free_lt : ∀ n ∈ free, n < 2 ^ 19
  free_fresh : ∀ f ∈ framesOf free, f ∉ tableFrames U s.mem r

variable {U : Fin 512 → Bool} {mem mem' : Memory} {s : Machine} {r t n : Nat} {i : Fin 512}
  {free : List Nat}

theorem child_congr (h : ∀ j, entry mem' t j = entry mem t j) (n : Nat) :
    child U mem' n t = child U mem n t := by
  funext j
  rw [child, child, h j]

theorem pageEntry_congr (h : ∀ j, entry mem' t j = entry mem t j) :
    pageEntry mem' t = pageEntry mem t := by
  funext j
  rw [pageEntry, pageEntry, h j]

theorem child_eq_some {c : Nat} (h : child U mem n t i = some c) :
    Present (entry mem t i) ∧ frame (entry mem t i) = c ∧ (n = 2 → U i) := by
  rw [child] at h
  split at h
  · rename_i hp
    exact ⟨hp.2, Option.some.inj h, hp.1⟩
  · cases h

/-! ## Taking a frame -/

theorem allocatePage_spec (h : FreeList s.alloc (n :: free)) :
    s.allocatePage.1 = n * 4096 ∧ FreeList s.allocatePage.2.alloc free ∧
      s.allocatePage.2.mem = s.mem ∧ s.allocatePage.2.cr3 = s.cr3 := by
  obtain ⟨ha, hs⟩ := allocatePage_cons h
  refine ⟨ha, ?_, rfl, rfl⟩
  change FreeList s.alloc.allocatePage.2 free
  rw [hs]
  exact h.unsetPage

/-- `setUserSpace` writes the last entry of the frame that it takes, and no other. -/
theorem setUserSpace_spec (h : FreeList s.alloc (n :: free)) (hn : n < 2 ^ 19) :
    s.setUserSpace.1 = n * 4096 ∧ FreeList s.setUserSpace.2.alloc free ∧
    s.setUserSpace.2.cr3 = s.cr3 ∧ s.setUserSpace.2.mem =
      s.mem.store64 (n * 4096 + 8 * (511 : Fin 512)) (s.readEntry (kptr s.cr3) 511) := by
  obtain ⟨ha, hf, hmem, hcr3⟩ := allocatePage_spec h
  refine ⟨ha, hf, hcr3, ?_⟩
  unfold Machine.setUserSpace
  dsimp only
  rw [Machine.writeEntry, Machine.readEntry, Machine.readEntry, ha, phys_kptr (by omega), hcr3, hmem]

/-- What `tableAlloc` writes: the new table is cleared, and the entry above gets its frame. -/
theorem tableAlloc_spec (h : FreeList s.alloc (n :: free)) (hn : n < 2 ^ 19) (ht' : t < 2 ^ 31) :
    (s.tableAlloc (kptr t) i 'V').1 = kptr (n * 4096) ∧
    FreeList (s.tableAlloc (kptr t) i 'V').2.alloc free ∧
    (s.tableAlloc (kptr t) i 'V').2.cr3 = s.cr3 ∧
    (s.tableAlloc (kptr t) i 'V').2.mem =
      (s.mem.fill (n * 4096) 4096 0).store64 (t + 8 * i) (n * 4096 ||| 7) := by
  obtain ⟨ha, hf, -, -⟩ := allocatePage_spec h
  have hor : n * 4096 ||| uBit ||| (pBit ||| wBit) = n * 4096 ||| 7 := Nat.or_assoc _ _ _
  have hp : phys (kptr (n * 4096)) = n * 4096 := phys_kptr (by omega)
  refine ⟨?_, ?_, rfl, ?_⟩
  · simp only [Machine.tableAlloc, if_true, ha]
  · exact hf
  · simp only [Machine.tableAlloc, if_true, Machine.writeEntry, Machine.memset, ha, hor,
      phys_kptr ht', hp]
    rfl

/-! ## Reading the tables -/

theorem readEntry_kptr (s : Machine) (ht : t < 2 ^ 31) (i : Fin 512) :
    s.readEntry (kptr t) i = entry s.mem t i := by
  rw [Machine.readEntry, phys_kptr ht]

theorem readEntry_eq (h : Paged U s r free) (ht : t ∈ tableFrames U s.mem r) (i : Fin 512) :
    s.readEntry (kptr t) i = entry s.mem t i :=
  readEntry_kptr s (h.aligned t ht).2 i

theorem child_of_present {k : Nat} (hU : k = 2 → U i) (hp : Present (entry mem t i)) :
    child U mem k t i = some (frame (entry mem t i)) := if_pos ⟨hU, hp⟩

theorem child_of_absent {k : Nat} (hp : ¬ Present (entry mem t i)) :
    child U mem k t i = none := if_neg fun h ↦ hp h.2

theorem not_present_zero : ¬ Present 0 := by decide

theorem child_of_zero {k : Nat} (h : entry mem t i = 0) : child U mem k t i = none :=
  child_of_absent (h ▸ not_present_zero)

/-- An entry of the topmost table that is not among those of `U`. -/
theorem child_of_outside (h : ¬ U i) : child U mem 2 t i = none := if_neg fun hp ↦ h (hp.1 rfl)

theorem mem_tableFrames_child {l : List (Fin 512)} {k c : Nat} (hk : l.length + (k + 1) = 3)
    (hl : tableAt U s.mem r l = some t) (hc : child U s.mem k t i = some c) :
    tableAt U s.mem r (l ++ [i]) = some c := by
  rw [tableAt, descend_append hk hl, descend, hc, Option.bind_some, descend_nil]

theorem nextTable_present (ht : t < 2 ^ 31) (hp : Present (entry s.mem t i)) :
    Machine.nextTable Machine.tableAlloc s (kptr t) i = (kptr (frame (entry s.mem t i)), s) := by
  rw [Machine.nextTable, readEntry_kptr s ht]
  exact if_pos hp

theorem nextTable_absent (ht : t < 2 ^ 31) (hp : ¬ Present (entry s.mem t i)) :
    Machine.nextTable Machine.tableAlloc s (kptr t) i = s.tableAlloc (kptr t) i 'V' := by
  rw [Machine.nextTable, readEntry_kptr s ht]
  exact if_neg hp

/-! ## One level of `map_v_p2` -/

/-- What one level does: entry `i` of the table `t` now leads to `t'`, and no page is mapped
otherwise than before. -/
structure Stage (U : Fin 512 → Bool) (r k t : Nat) (i : Fin 512) (s : Machine) (free : List Nat)
    (s' : Machine) (free' : List Nat) (t' : Nat) : Prop where
  paged : Paged U s' r free'
  cr3 : s'.cr3 = s.cr3
  taken : ∃ l, free = l ++ free' ∧ tableFrames U s'.mem r = tableFrames U s.mem r ∪ framesOf l
  pages : ∀ q, pageAt U s'.mem r q = pageAt U s.mem r q
  keep : ∀ u ∈ tableFrames U s.mem r, ∀ j, (u, j) ≠ (t, i) → entry s'.mem u j = entry s.mem u j
  paths : ∀ p u, tableAt U s.mem r p = some u → tableAt U s'.mem r p = some u
  bytes : ∀ x, x / 4096 * 4096 ∉ tableFrames U s'.mem r → s'.mem x = s.mem x
  hit : ∀ c, child U s.mem k t i = some c → t' = c ∧ s' = s
  new : child U s.mem k t i = none → entry s'.mem t i = t' ||| 7 ∧ ∀ j, entry s'.mem t' j = 0

theorem Stage.of_hit {k c : Nat} (h : Paged U s r free) (hc : child U s.mem k t i = some c) :
    Stage U r k t i s free s free c := by
  refine ⟨h, rfl, ⟨[], rfl, ?_⟩, fun _ ↦ rfl, fun _ _ _ _ ↦ rfl, fun _ _ h ↦ h, fun _ _ ↦ rfl, ?_,
    ?_⟩
  · simp [framesOf]
  · exact fun d hd ↦ ⟨Option.some.inj (hd ▸ hc).symm, rfl⟩
  · exact fun hn ↦ by simp [hn] at hc

theorem present_or_flag {f b : Nat} (hf : 4096 ∣ f) (hb : Present b) : Present (f ||| b) := by
  rw [Present, or_and_flag hf (by decide)]
  exact hb

theorem present_or {f : Nat} (hf : 4096 ∣ f) : Present (f ||| 7) :=
  present_or_flag hf (by decide)

/-- The memory `mem'` has a cleared table in frame `g`, hung on entry `i` of `t` with the flags
`b`. -/
structure Hung (mem mem' : Memory) (t : Nat) (i : Fin 512) (g b : Nat) : Prop where
  writes : mem' = (mem.fill g 4096 0).store64 (t + 8 * i) (g ||| b)
  flags : b < 4096
  present : Present b

/-- A missing table is a graft of an empty one. -/
theorem Hung.graft {k b : Nat} {mem' : Memory} (hm : Hung s.mem mem' t i (n * 4096) b)
    (h : Paged U s r (n :: free)) (ht : t ∈ tableFrames U s.mem r) (hU : k = 2 → U i)
    (hc : child U s.mem k t i = none) :
    Graft (child U s.mem) (child U mem') (tableFrames U s.mem r) k t i (n * 4096) ∧
    (∀ u ∈ tableFrames U s.mem r, ∀ j, (u, j) ≠ (t, i) → entry mem' u j = entry s.mem u j) ∧
    entry mem' t i = n * 4096 ||| b ∧ ∀ j, entry mem' (n * 4096) j = 0 := by
  have hn := h.free_lt n List.mem_cons_self
  have hta := (h.aligned t ht).1
  have hg : n * 4096 ∉ tableFrames U s.mem r := h.free_fresh _ ⟨n, List.mem_cons_self, rfl⟩
  have hgd : 4096 ∣ n * 4096 := Nat.dvd_mul_left _ _
  have htg : t ≠ n * 4096 := ne_of_mem_of_not_mem ht hg
  have hlt : n * 4096 ||| b < 2 ^ 64 := by
    rw [or_low (n := 12) hgd hm.flags]
    have := hm.flags
    omega
  -- the entry leads to the new table, and the new table is empty
  have hti : entry mem' t i = n * 4096 ||| b := by
    rw [hm.writes]
    exact entry_store64_self hlt
  have hgz : ∀ j, entry mem' (n * 4096) j = 0 := by
    intro j
    rw [hm.writes, entry_store64_of_ne hta hgd (by simp [htg.symm])]
    exact entry_fill_self
  have hkeep : ∀ u ∈ tableFrames U s.mem r, ∀ j, (u, j) ≠ (t, i) →
      entry mem' u j = entry s.mem u j := by
    intro u hu j huj
    rw [hm.writes, entry_store64_of_ne hta (h.aligned u hu).1 huj,
      entry_fill_of_ne hgd (h.aligned u hu).1 (ne_of_mem_of_not_mem hu hg)]
  refine ⟨⟨hg, hc, ?_, fun m j ↦ ?_, fun j hj ↦ ?_, fun m u hu hut ↦ ?_⟩, hkeep, hti, hgz⟩
  · rw [child, hti, if_pos ⟨hU, present_or_flag hgd hm.present⟩,
      frame_or hgd (by omega) hm.flags]
  · exact child_of_zero (hgz j)
  · rw [child, child, hkeep t ht j (by simp [hj])]
  · exact child_congr (fun j ↦ hkeep u hu j fun he ↦ hut (Prod.mk.inj he).1) m

/-- The tables after a missing one is hung in: no page is mapped otherwise than before. -/
theorem Hung.spec {k b : Nat} {p : List (Fin 512)} {s' : Machine}
    (hm : Hung s.mem s'.mem t i (n * 4096) b) (h : Paged U s r (n :: free))
    (hd : tableAt U s.mem r p = some t) (hp : p.length + (k + 1) = 3) (hU : k = 2 → U i)
    (hc : child U s.mem k t i = none) (hfl : FreeList s'.alloc free) :
    Paged U s' r free ∧ tableFrames U s'.mem r = tableFrames U s.mem r ∪ framesOf [n] ∧
    (∀ q, pageAt U s'.mem r q = pageAt U s.mem r q) ∧
    (∀ q u, tableAt U s.mem r q = some u → tableAt U s'.mem r q = some u) ∧
    (∀ x, x / 4096 * 4096 ∉ tableFrames U s'.mem r → s'.mem x = s.mem x) ∧
    tableAt U s'.mem r (p ++ [i]) = some (n * 4096) := by
  have ht := descend_mem hd
  have hn := h.free_lt n List.mem_cons_self
  obtain ⟨hgraft, hkeep, -, hgz⟩ := hm.graft h ht hU hc
  obtain ⟨htab, htree, hdesc, hmono, hleaf⟩ := hgraft.spec h.tree hp hd
  have hall : tableFrames U s'.mem r = tableFrames U s.mem r ∪ framesOf [n] := by
    rw [tableFrames, htab]
    simp [framesOf]
  refine ⟨⟨htree, ?_, hfl, fun m hm ↦ h.free_lt m (List.mem_cons_of_mem n hm), ?_⟩, hall,
    fun q ↦ ?_, hmono, fun x hx ↦ ?_, hdesc⟩
  · intro u hu
    rw [tableFrames, htab] at hu
    rcases hu with hu | rfl
    · exact h.aligned u hu
    · exact ⟨Nat.dvd_mul_left _ _, by omega⟩
  · -- the new table's frame is no longer free
    rintro f ⟨m, hm, rfl⟩ hf
    rw [tableFrames, htab] at hf
    rcases hf with hf | hf
    · exact h.free_fresh _ ⟨m, List.mem_cons_of_mem n hm, rfl⟩ hf
    · have hmn : m = n := by
        have := Set.mem_singleton_iff.mp hf
        omega
      exact h.freeList.nodup_cons (hmn ▸ hm)
  · refine hleaf _ (fun w hw hwt ↦ ?_) (fun j ↦ ?_) q
    · exact pageEntry_congr fun j ↦ hkeep w hw j fun he ↦ hwt (Prod.mk.inj he).1
    · rw [pageEntry, hgz, if_neg not_present_zero]
  · rw [tableFrames, htab] at hx
    have hxg : x / 4096 * 4096 ≠ n * 4096 := fun he ↦ hx (Or.inr he)
    have hxt : x / 4096 * 4096 ≠ t := fun he ↦ hx (Or.inl (he ▸ ht))
    obtain ⟨m, rfl⟩ := (h.aligned t ht).1
    rw [hm.writes, Memory.store64_apply_of_lt (by omega), Memory.fill_apply_of_lt (by omega)]

theorem Stage.of_miss {k : Nat} {p : List (Fin 512)} (h : Paged U s r (n :: free))
    (hd : tableAt U s.mem r p = some t) (hp : p.length + (k + 1) = 3)
    (hU : k = 2 → U i) (hc : child U s.mem k t i = none) :
    Stage U r k t i s (n :: free) (s.tableAlloc (kptr t) i 'V').2 free (n * 4096) ∧
      tableAt U (s.tableAlloc (kptr t) i 'V').2.mem r (p ++ [i]) = some (n * 4096) := by
  have ht := descend_mem hd
  have hn := h.free_lt n List.mem_cons_self
  obtain ⟨-, hfl, hcr3, hmem⟩ := tableAlloc_spec (i := i) h.freeList hn (h.aligned t ht).2
  have hm : Hung s.mem (s.tableAlloc (kptr t) i 'V').2.mem t i (n * 4096) 7 :=
    ⟨hmem, by decide, by decide⟩
  obtain ⟨-, hkeep, hti, hgz⟩ := hm.graft h ht hU hc
  obtain ⟨hpaged, hall, hpages, hpaths, hbytes, hdesc⟩ := hm.spec h hd hp hU hc hfl
  refine ⟨⟨hpaged, hcr3, ⟨[n], rfl, hall⟩, hpages, hkeep, hpaths, hbytes, ?_,
    fun _ ↦ ⟨hti, hgz⟩⟩, hdesc⟩
  exact fun c hcs ↦ by simp [hc] at hcs

theorem nextTable_spec {k : Nat} {p q : List (Fin 512)} (h : Paged U s r free)
    (hd : tableAt U s.mem r p = some t) (hp : p.length + (k + 1) = 3)
    (hU : k = 2 → U i) (hm : missing (child U s.mem) (k + 1) t (i :: q) ≤ free.length) :
    ∃ free' t', (Machine.nextTable Machine.tableAlloc s (kptr t) i).1 = kptr t' ∧
      Stage U r k t i s free (Machine.nextTable Machine.tableAlloc s (kptr t) i).2 free' t' ∧
      tableAt U (Machine.nextTable Machine.tableAlloc s (kptr t) i).2.mem r (p ++ [i]) = some t' ∧
      missing (child U (Machine.nextTable Machine.tableAlloc s (kptr t) i).2.mem) k t' q ≤
        free'.length := by
  have ht := (h.aligned t (descend_mem hd)).2
  rw [missing] at hm
  by_cases hpres : Present (entry s.mem t i)
  · have hc : child U s.mem k t i = some (frame (entry s.mem t i)) := child_of_present hU hpres
    rw [hc] at hm
    rw [nextTable_present ht hpres]
    exact ⟨free, _, rfl, .of_hit h hc, mem_tableFrames_child hp hd hc, hm⟩
  · have hc : child U s.mem k t i = none := child_of_absent hpres
    rw [hc] at hm
    rw [nextTable_absent ht hpres]
    cases free with
    | nil => exact absurd hm (Nat.not_succ_le_zero _)
    | cons n free =>
        obtain ⟨hst, hds⟩ := Stage.of_miss h hd hp hU hc
        have hn := h.free_lt n List.mem_cons_self
        have hfst := (tableAlloc_spec (i := i) h.freeList hn ht).1
        exact ⟨free, n * 4096, hfst, hst, hds, (missing_le q).trans (Nat.le_of_succ_le_succ hm)⟩

end Sbunix
