import Sbunix.Sys.Kernel
import Sbunix.Sys.Window

/-!
# Deleting page tables (`deletePagetable`)

`exit` hands the top-level table of the process to `deletePagetable`, which goes through the tables
under its first 510 entries, by their physical addresses.  What the innermost loop stores in a page
entry is not that entry with its flags, but the entry of the table above.
-/

namespace Sbunix

open Reasoning

theorem entries_le : 512 ≤ 512 := Nat.le_refl 512

namespace Machine

/-- The body of the innermost loop.  The variable with the new flags is not used. -/
def deletePageEntry (pte pdeEntry : Nat) (i : Fin 512) (s : Machine) : Machine :=
  { s with mem := s.mem.store64 (pte + 8 * i) pdeEntry }

def deletePte (pte pdeEntry : Nat) (s : Machine) : Machine :=
  forEntries (deletePageEntry pte pdeEntry) 512 entries_le s

/-- The body of the outer loops: the next loop runs over a table that is present. -/
def deleteTableEntry (inner : Nat → Nat → Machine → Machine) (table : Nat) (i : Fin 512)
    (s : Machine) : Machine :=
  let e := entry s.mem table i
  if e &&& pBit ≠ 0 then inner (frame e) e s else s

end Machine

open Machine

/-- The tables of the last level under the table `t` of height `n`. -/
def lastTables (mem : Memory) : Nat → Nat → Set Nat
  | 0, t => {t}
  | n + 1, t => {u | ∃ i c, child userEntries mem n t i = some c ∧ u ∈ lastTables mem n c}

/-- All entries of the table lead to the table itself. -/
def SelfMapped (mem : Memory) (t : Nat) : Prop :=
  ∀ i, Present (entry mem t i) ∧ frame (entry mem t i) = t

variable {mem mem' : Memory} {s : Machine} {S R : Set Nat} {e n r t u : Nat} {i : Fin 512}

/-! ## What is written -/

theorem entry_deletePageEntry (ht : 4096 ∣ t) (hu : 4096 ∣ u) (he : e < 2 ^ 64) (k : Nat)
    (hk : k ≤ 512) : entry (forEntries (deletePageEntry t e) k hk s).mem u i =
      if u = t ∧ i.val < k then e else entry s.mem u i := by
  induction k with
  | zero => exact (if_neg fun h ↦ Nat.not_lt_zero _ h.2).symm
  | succ k ih =>
      rw [forEntries, deletePageEntry]
      dsimp only
      by_cases hi : (u, i) = (t, ⟨k, hk⟩)
      · obtain ⟨rfl, rfl⟩ := Prod.mk.inj hi
        rw [if_pos ⟨rfl, Nat.lt_succ_self k⟩]
        exact entry_store64_self (i := ⟨k, hk⟩) he
      · rw [entry_store64_of_ne (i := ⟨k, hk⟩) ht hu hi, ih]
        refine if_congr (and_congr_right fun hut ↦ ?_) rfl rfl
        have hne : i.val ≠ k := fun hik ↦ hi (Prod.ext hut (Fin.ext hik))
        omega

/-- The innermost loop stores one value in all entries of its table. -/
theorem entry_deletePte (ht : 4096 ∣ t) (hu : 4096 ∣ u) (he : e < 2 ^ 64) :
    entry (s.deletePte t e).mem u i = if u = t then e else entry s.mem u i := by
  rw [deletePte, entry_deletePageEntry ht hu he]
  exact if_congr (and_iff_left i.isLt) rfl rfl

/-- The tables in `S` have been written, and all their entries lead to themselves. -/
structure Marked (mem mem' : Memory) (S : Set Nat) : Prop where
  self : ∀ t ∈ S, SelfMapped mem' t
  other : ∀ t, 4096 ∣ t → t ∉ S → ∀ i, entry mem' t i = entry mem t i
  aligned : ∀ t ∈ S, 4096 ∣ t

theorem Marked.refl : Marked mem mem ∅ :=
  ⟨fun _ h ↦ absurd h (Set.notMem_empty _), fun _ _ _ _ ↦ rfl, fun _ h ↦ absurd h (Set.notMem_empty _)⟩

theorem Marked.deletePte (h : Marked mem s.mem S) (ht : 4096 ∣ t) (hp : Present e)
    (hf : frame e = t) (he : e < 2 ^ 64) : Marked mem (s.deletePte t e).mem (insert t S) where
  self u hu i := by
    rcases Set.mem_insert_iff.mp hu with rfl | hu
    · rw [entry_deletePte ht ht he, if_pos rfl]
      exact ⟨hp, hf⟩
    · rw [entry_deletePte ht (h.aligned u hu) he]
      split
      · rename_i hut
        exact ⟨hp, hf.trans hut.symm⟩
      · exact h.self u hu i
  other u hu hS i := by
    obtain ⟨hut, hS⟩ := not_or.mp (mt Set.mem_insert_iff.mpr hS)
    rw [entry_deletePte ht hu he, if_neg hut, h.other u hu hS]
  aligned u hu := by
    rcases Set.mem_insert_iff.mp hu with rfl | hu
    · exact ht
    · exact h.aligned u hu

/-! ## The loops -/

/-- The loop over a table of height `n` and all below it, with the entry that leads to the table. -/
def deleteLevel : Nat → Nat → Nat → Machine → Machine
  | 0 => deletePte
  | n + 1 => fun t _ ↦ forEntries (deleteTableEntry (deleteLevel n) t) 512 entries_le

/-- What a level is called with: the table of a present entry. -/
structure Entered (t e : Nat) : Prop where
  present : Present e
  frame_eq : frame e = t
  lt : e < 2 ^ 64

theorem Entered.dvd (h : Entered t e) : 4096 ∣ t := h.frame_eq ▸ frame_dvd h.lt

theorem entered (h : Present (entry mem t i)) :
    Entered (frame (entry mem t i)) (entry mem t i) := ⟨h, rfl, entry_lt mem t i⟩

/-- A loop keeps what its inner loop keeps. -/
theorem Marked.forEntries {inner : Nat → Nat → Machine → Machine} {K : Nat} (hK : K ≤ 512)
    (h : Marked mem s.mem S) (hin : ∀ {t e s S}, Entered t e → Marked mem s.mem S →
      ∃ S', S ⊆ S' ∧ Marked mem (inner t e s).mem S') :
    ∃ S', S ⊆ S' ∧ Marked mem (forEntries (deleteTableEntry inner t) K hK s).mem S' := by
  induction K with
  | zero => exact ⟨S, subset_rfl, h⟩
  | succ k ih =>
      obtain ⟨S', hS, hmark⟩ := ih (Nat.le_of_succ_le hK)
      rw [Machine.forEntries, deleteTableEntry]
      split
      · rename_i hp
        obtain ⟨S'', hS', hmark'⟩ := hin (entered hp) hmark
        exact ⟨S'', hS.trans hS', hmark'⟩
      · exact ⟨S', hS, hmark⟩

/-- No table that was written is written with anything else later on. -/
theorem Marked.deleteLevel (n : Nat) {t e : Nat} {s : Machine} {S : Set Nat} (he : Entered t e)
    (h : Marked mem s.mem S) : ∃ S', S ⊆ S' ∧ Marked mem (deleteLevel n t e s).mem S' := by
  induction n generalizing t e s S with
  | zero =>
      exact ⟨insert t S, Set.subset_insert t S, h.deletePte he.dvd he.present he.frame_eq he.lt⟩
  | succ n ih => exact h.forEntries entries_le ih

/-! ## Up to the first table that is lost -/

/-- The tables that lead to themselves already. -/
def selfMapped (mem : Memory) : Set Nat := {t | SelfMapped mem t}

/-- As long as only such tables have been written, entries keep their frames. -/
theorem Marked.same (h : Marked mem mem' S) (hS : S ⊆ selfMapped mem) (ht : 4096 ∣ t) (i : Fin 512) :
    (Present (entry mem' t i) ↔ Present (entry mem t i)) ∧
      frame (entry mem' t i) = frame (entry mem t i) := by
  by_cases hmem : t ∈ S
  · obtain ⟨hp, hf⟩ := h.self t hmem i
    obtain ⟨hp', hf'⟩ := hS hmem i
    exact ⟨iff_of_true hp hp', hf.trans hf'.symm⟩
  · rw [h.other t ht hmem]
    exact ⟨Iff.rfl, rfl⟩

theorem aligned_child {k : Nat} {U : Fin 512 → Bool} (h : child U mem k t i = some u) : 4096 ∣ u := by
  rw [← (child_eq_some h).2.1]
  exact frame_dvd (entry_lt mem t i)

theorem Marked.child (h : Marked mem mem' S) (hS : S ⊆ selfMapped mem) (ht : 4096 ∣ t) :
    child userEntries mem' n t = child userEntries mem n t := by
  funext i
  obtain ⟨hpres, hframe⟩ := h.same hS ht i
  rw [Sbunix.child, Sbunix.child, hframe]
  exact if_congr (and_congr_right fun _ ↦ hpres) rfl rfl

theorem Marked.lastTables (h : Marked mem mem' S) (hS : S ⊆ selfMapped mem) (ht : 4096 ∣ t) :
    lastTables mem' n t = lastTables mem n t := by
  induction n generalizing t with
  | zero => rfl
  | succ n ih =>
      ext u
      rw [Sbunix.lastTables, Sbunix.lastTables, h.child hS ht]
      refine exists_congr fun i ↦ exists_congr fun c ↦ and_congr_right fun hc ↦ ?_
      rw [ih (aligned_child hc)]

end Sbunix
