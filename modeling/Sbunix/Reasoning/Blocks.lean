import Mathlib.Data.List.Chain
import Mathlib.Logic.Function.Basic

/-!
# Lists written to memory one after the other

A memory is a function from addresses to what has been written there, if anything has.  Lists that
are longer than their blocks run over into the next block, where the next list replaces their end.
-/

namespace Reasoning

variable {α : Type*} {W W' : Nat → Option α} {a x size : Nat} {l l' : List α} {ls : List (List α)}
  {b z : α}

/-- The list `l` stands at address `a`. -/
def HoldsAt (W : Nat → Option α) (a : Nat) (l : List α) : Prop :=
  ∀ i b, l[i]? = some b → W (a + i) = some b

/-- `l` written to address `a`. -/
def putAt (a : Nat) : List α → (Nat → Option α) → Nat → Option α
  | [], W => W
  | b :: l, W => putAt (a + 1) l (Function.update W a (some b))

/-! ## What stands at an address -/

theorem holdsAt_nil : HoldsAt W a [] := fun i b hi ↦ by cases hi

theorem holdsAt_append : HoldsAt W a (l ++ l') ↔ HoldsAt W a l ∧ HoldsAt W (a + l.length) l' := by
  constructor
  · refine fun h ↦ ⟨fun i b hi ↦ h i b ?_, fun i b hi ↦ ?_⟩
    · rw [List.getElem?_append_left (List.getElem?_eq_some_iff.mp hi).1, hi]
    · rw [Nat.add_assoc]
      refine h _ b ?_
      rw [List.getElem?_append_right (Nat.le_add_right _ _), Nat.add_sub_cancel_left, hi]
  · rintro ⟨hl, hl'⟩ i b hi
    by_cases hlt : i < l.length
    · rw [List.getElem?_append_left hlt] at hi
      exact hl i b hi
    · rw [List.getElem?_append_right (Nat.not_lt.mp hlt)] at hi
      have hb := hl' _ b hi
      rwa [show a + l.length + (i - l.length) = a + i by omega] at hb

theorem holdsAt_singleton : HoldsAt W a [b] ↔ W a = some b := by
  refine ⟨fun h ↦ h 0 b rfl, fun h i c hi ↦ ?_⟩
  obtain ⟨hlt, rfl⟩ := List.getElem?_eq_some_iff.mp hi
  obtain rfl : i = 0 := Nat.lt_one_iff.mp hlt
  exact h

theorem holdsAt_cons : HoldsAt W a (b :: l) ↔ W a = some b ∧ HoldsAt W (a + 1) l := by
  rw [← List.singleton_append, holdsAt_append, holdsAt_singleton]
  rfl

theorem HoldsAt.congr (h : HoldsAt W a l) (hw : ∀ x, a ≤ x → x < a + l.length → W' x = W x) :
    HoldsAt W' a l := by
  intro i b hi
  have hlt := (List.getElem?_eq_some_iff.mp hi).1
  rw [hw (a + i) (Nat.le_add_right a i) (Nat.add_lt_add_left hlt a)]
  exact h i b hi

/-- What is written to other addresses leaves a list alone. -/
theorem HoldsAt.mono (h : HoldsAt W a l) (hw : ∀ x, W x ≠ none → W' x = W x) : HoldsAt W' a l := by
  intro i b hi
  have hb := h i b hi
  rw [hw _ (by rw [hb]; exact Option.some_ne_none b), hb]

theorem putAt_of_lt (h : x < a ∨ a + l.length ≤ x) : putAt a l W x = W x := by
  induction l generalizing a W with
  | nil => rfl
  | cons b l ih =>
      rw [List.length_cons] at h
      rw [putAt, ih (by omega), Function.update_of_ne (by omega)]

theorem holdsAt_putAt (a : Nat) (l : List α) (W : Nat → Option α) :
    HoldsAt (putAt a l W) a l := by
  induction l generalizing a W with
  | nil => exact holdsAt_nil
  | cons b l ih =>
      rw [putAt, holdsAt_cons]
      refine ⟨?_, ih (a + 1) _⟩
      rw [putAt_of_lt (Or.inl (Nat.lt_succ_self a)), Function.update_self]

theorem putAt_ne_none (h : putAt a l W x ≠ none) : W x ≠ none ∨ a ≤ x ∧ x < a + l.length := by
  by_cases hx : a ≤ x ∧ x < a + l.length
  · exact Or.inr hx
  · rw [putAt_of_lt (by omega)] at h
    exact Or.inl h

/-! ## Blocks -/

/-- What is read from the block of `l` on, when the lists that follow it have been written to theirs. -/
def overrun (size : Nat) : List α → List (List α) → List α
  | l, [] => l
  | l, m :: ls => if l.length < size then l else l.take size ++ overrun size m ls

/-- Every list is read back as it was written. -/
def Intact (size : Nat) : List (List α) → Prop
  | [] => True
  | l :: ls => overrun size l ls = l ∧ Intact size ls

theorem intact_iff : Intact size ls ↔ ls.IsChain fun l m ↦ l.length < size ∨ m = l.drop size := by
  induction ls with
  | nil => exact iff_of_true trivial .nil
  | cons l ls ih =>
      cases ls with
      | nil => exact iff_of_true ⟨rfl, trivial⟩ (.singleton l)
      | cons m ls =>
          rw [Intact, ih, List.isChain_cons_cons, overrun]
          refine and_congr_left fun hchain ↦ ?_
          -- the lists behind are intact, so that what the next block holds is the next list
          have hm : overrun size m ls = m := (ih.mpr hchain).1
          rw [hm]
          split
          · rename_i hlt
            exact iff_of_true rfl (Or.inl hlt)
          · rename_i hlt
            rw [or_iff_right hlt]
            constructor
            · intro he
              rw [← he, List.drop_left' (List.length_take_of_le (Nat.not_lt.mp hlt))]
            · rintro rfl
              exact List.take_append_drop size l

theorem intact_get (h : ∀ i l ls', ls.drop i = l :: ls' → overrun size l ls' = l) :
    Intact size ls := by
  induction ls with
  | nil => trivial
  | cons l ls ih =>
      exact ⟨h 0 l ls rfl, ih fun i m ls' hi ↦ h (i + 1) m ls' hi⟩

theorem Intact.get (h : Intact size ls) {i : Nat} {ls' : List (List α)}
    (hi : ls.drop i = l :: ls') : overrun size l ls' = l := by
  induction ls generalizing i with
  | nil => simp at hi
  | cons m ls ih =>
      cases i with
      | zero =>
          obtain ⟨rfl, rfl⟩ := List.cons.inj hi
          exact h.1
      | succ i => exact ih h.2 hi

/-- The first block, in terms of the next one: its own cells are as they were when the list was
written. -/
theorem HoldsAt.overrun {m : List α} (h : HoldsAt W a (l ++ [z]))
    (hnext : HoldsAt W' (a + size) (overrun size m ls ++ [z]))
    (hkeep : ∀ x, a ≤ x → x < a + size → W' x = W x) :
    HoldsAt W' a (Reasoning.overrun size l (m :: ls) ++ [z]) := by
  rw [Reasoning.overrun]
  split
  · rename_i hlt
    refine h.congr fun x hx hx' ↦ hkeep x hx ?_
    rw [List.length_append, List.length_singleton] at hx'
    omega
  · rename_i hlt
    have hlen : (l.take size).length = size := List.length_take_of_le (Nat.not_lt.mp hlt)
    rw [List.append_assoc, holdsAt_append, hlen]
    refine ⟨?_, hnext⟩
    rw [← List.take_append_drop size l, List.append_assoc, holdsAt_append] at h
    exact h.1.congr fun x hx hx' ↦ hkeep x hx (by rwa [hlen] at hx')

theorem overrun_notMem (h : ∀ m ∈ l :: ls, z ∉ m) : z ∉ overrun size l ls := by
  induction ls generalizing l with
  | nil => exact h l List.mem_cons_self
  | cons m ls ih =>
      have hl := h l List.mem_cons_self
      rw [overrun]
      split
      · exact hl
      · rw [List.mem_append, not_or]
        exact ⟨fun hm ↦ hl (List.mem_of_mem_take hm),
          ih fun x hx ↦ h x (List.mem_cons_of_mem l hx)⟩

end Reasoning
