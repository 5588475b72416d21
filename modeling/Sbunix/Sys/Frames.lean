import Sbunix.Sys.Kernel

/-!
# Frames are only taken

Nothing in the kernel's paths gives a frame back, so a run of its functions leaves the tail of the
free list, and a page it got from `kmalloc` is none of those it gets later.
-/

namespace Sbunix

open Reasoning

/-- At most `n` pages of the free list are gone. -/
def Pops (n : Nat) (s s' : Machine) : Prop :=
  ∀ free, FreeList s.alloc free → ∃ k ≤ n, FreeList s'.alloc (free.drop k)

variable {s s' s'' : Machine} {m n : Nat} {free : List Nat}

theorem Pops.of_alloc (h : s'.alloc = s.alloc) : Pops 0 s s' := fun _ hf ↦
  ⟨0, Nat.le_refl 0, h ▸ hf⟩

theorem Pops.refl (s : Machine) : Pops 0 s s := .of_alloc rfl

theorem Pops.trans (h : Pops m s s') (h' : Pops n s' s'') : Pops (m + n) s s'' := by
  intro free hf
  obtain ⟨k, hk, hf⟩ := h free hf
  obtain ⟨l, hl, hf⟩ := h' _ hf
  exact ⟨k + l, Nat.add_le_add hk hl, by rwa [List.drop_drop] at hf⟩

theorem Pops.mono (h : Pops m s s') (hmn : m ≤ n) : Pops n s s' := by
  intro free hf
  obtain ⟨k, hk, hf⟩ := h free hf
  exact ⟨k, hk.trans hmn, hf⟩

/-- A free page left at the end was there at the start. -/
theorem Pops.ne_nil (h : Pops n s s') (hf : FreeList s.alloc free) (hs : s'.alloc.HasFree) :
    free ≠ [] := by
  obtain ⟨k, -, hk⟩ := h free hf
  rintro rfl
  rw [List.drop_nil] at hk
  exact (hk.hasFree_iff.mp hs) rfl

theorem Pops.hasFree (h : Pops n s s') (hf : FreeList s.alloc free) (hn : n < free.length) :
    s'.alloc.HasFree := by
  obtain ⟨k, hk, hf'⟩ := h free hf
  refine hf'.hasFree_iff.mpr fun hnil ↦ ?_
  rw [List.drop_eq_nil_iff] at hnil
  omega

theorem pops_allocatePage (s : Machine) : Pops 1 s s.allocatePage.2 := by
  intro free hf
  cases free with
  | nil =>
      refine ⟨0, Nat.zero_le 1, ?_⟩
      change FreeList s.alloc.allocatePage.2 []
      rw [allocatePage_nil hf]
      exact hf
  | cons n free => exact ⟨1, Nat.le_refl 1, (allocatePage_spec hf).2.1⟩

theorem pops_tableAlloc (s : Machine) (above : Nat) (i : Fin 512) (mode : Char) :
    Pops 1 s (s.tableAlloc above i mode).2 :=
  (pops_allocatePage s).trans (.of_alloc rfl)

theorem pops_nextTable (s : Machine) (table : Nat) (i : Fin 512) :
    Pops 1 s (Machine.nextTable Machine.tableAlloc s table i).2 := by
  unfold Machine.nextTable
  dsimp only
  split
  · exact (Pops.refl s).mono (Nat.zero_le 1)
  · exact pops_tableAlloc s table i 'V'

theorem pops_mapVP2 (s : Machine) (v p : Nat) : Pops 3 s (s.mapVP2 v p) := by
  rw [mapVP2_eq]
  exact (((pops_nextTable s _ _).trans (pops_nextTable _ _ _)).trans (pops_nextTable _ _ _)).trans
    (.of_alloc rfl)

/-- `kmalloc` takes its page first, and tables for the window after it. -/
theorem kmalloc_spec (h : FreeList s.alloc (n :: free)) :
    s.kmalloc.1 = kptr (n * 4096) ∧ ∃ k ≤ 3, FreeList s.kmalloc.2.alloc (free.drop k) := by
  obtain ⟨ha, hf, -, -⟩ := allocatePage_spec h
  refine ⟨congrArg kptr ha, ?_⟩
  exact pops_mapVP2 s.allocatePage.2 (kptr s.allocatePage.1) s.allocatePage.1 free hf

theorem pops_kmalloc (s : Machine) : Pops 4 s s.kmalloc.2 := by
  have h := (pops_allocatePage s).trans (pops_mapVP2 s.allocatePage.2
    (kptr s.allocatePage.1) s.allocatePage.1)
  exact h.trans (.of_alloc rfl)

theorem writeByte_alloc {v : Nat} {b : UInt8} (h : s.writeByte v b = some s') :
    s'.alloc = s.alloc := by
  rw [Machine.writeByte, Option.map_eq_some_iff] at h
  obtain ⟨a, -, rfl⟩ := h
  rfl

theorem memcpy_alloc {dest src len : Nat} (h : s.memcpy dest src len = some s') :
    s'.alloc = s.alloc := by
  induction len generalizing s dest src with
  | zero => exact congrArg Machine.alloc (Option.some.inj h).symm
  | succ len ih =>
      rw [Machine.memcpy, Option.bind_eq_some_iff] at h
      obtain ⟨b, -, h⟩ := h
      rw [Option.bind_eq_some_iff] at h
      obtain ⟨s₁, hs₁, h⟩ := h
      exact (ih h).trans (writeByte_alloc hs₁)

/-- Inside the window a copy does not fault. -/
theorem memcpy_window (s : Machine) {dest src : Nat} (hd : kernBase ≤ dest)
    (hs : kernBase ≤ src) (len : Nat) : ∃ s', s.memcpy dest src len = some s' := by
  induction len generalizing s dest src with
  | zero => exact ⟨s, rfl⟩
  | succ len ih =>
      have hr : s.readByte src = some (s.mem (src - kernBase)) := by
        rw [Machine.readByte, Machine.translate, if_pos hs, Option.map_some]
      have hw : ∀ b, s.writeByte dest b =
          some { s with mem := Function.update s.mem (dest - kernBase) b } := by
        intro b
        rw [Machine.writeByte, Machine.translateWrite, if_pos hd, Option.map_some]
      rw [Machine.memcpy, hr, Option.bind_some, hw, Option.bind_some]
      exact ih _ (hd.trans (Nat.le_succ dest)) (hs.trans (Nat.le_succ src))

/-! ## The copy of the tables -/

theorem pops_forEntries {body : Fin 512 → Machine → Machine}
    (hb : ∀ i s, ∃ n, Pops n s (body i s)) (k : Nat) (hk : k ≤ 512) (s : Machine) :
    ∃ n, Pops n s (Machine.forEntries body k hk s) := by
  induction k with
  | zero => exact ⟨0, .refl s⟩
  | succ k ih =>
      obtain ⟨m, hm⟩ := ih (Nat.le_of_succ_le hk)
      obtain ⟨n, hn⟩ := hb ⟨k, hk⟩ (Machine.forEntries body k (Nat.le_of_succ_le hk) s)
      exact ⟨m + n, hm.trans hn⟩

theorem pops_copyPte (p c : Nat) (s : Machine) : ∃ n, Pops n s (s.copyPte p c) := by
  refine pops_forEntries (fun i s ↦ ⟨0, .of_alloc ?_⟩) 512 _ s
  unfold Machine.copyPageEntry
  dsimp only
  split <;> rfl

theorem pops_copyTableEntry {inner : Nat → Nat → Machine → Machine}
    (hi : ∀ p c s, ∃ n, Pops n s (inner p c s)) (p c : Nat) (i : Fin 512) (s : Machine) :
    ∃ n, Pops n s (Machine.copyTableEntry Machine.tableAlloc inner p c i s) := by
  unfold Machine.copyTableEntry
  dsimp only
  split
  · obtain ⟨n, hn⟩ := hi (kptr (frame (s.readEntry p i))) (s.tableAlloc c i 'V').1
      (s.tableAlloc c i 'V').2
    exact ⟨1 + n, (pops_tableAlloc s c i 'V').trans hn⟩
  · exact ⟨0, .refl s⟩

theorem pops_forkTables (s : Machine) (cr3 : Nat) : ∃ n, Pops n s (s.forkTables cr3) := by
  have hpde : ∀ p c s, ∃ n, Pops n s (Machine.copyPde p c s) := fun p c s ↦
    pops_forEntries (pops_copyTableEntry pops_copyPte p c) 512 _ s
  have hpdpe : ∀ p c s, ∃ n, Pops n s (Machine.copyPdpe p c s) := fun p c s ↦
    pops_forEntries (pops_copyTableEntry hpde p c) 512 _ s
  obtain ⟨n, hn⟩ := pops_forEntries (pops_copyTableEntry hpdpe (kptr s.cr3) (kptr cr3)) 510
    (by decide) s
  exact ⟨n + 0, hn.trans (.of_alloc rfl)⟩

end Sbunix
