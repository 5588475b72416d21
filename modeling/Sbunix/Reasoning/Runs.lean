import Mathlib.Data.List.Basic

/-!
# Runs of a deterministic machine

A run is a list of inputs folded into a state.  A property of the states that is reached is compared
with a condition on the steps that are made.
-/

namespace Reasoning

variable {σ α : Type*} {step : σ → α → σ} {I : σ → Prop} {C Q : σ → α → Prop} {s : σ} {a : α}
  {l : List α}

/-- Every state of the run of `l` from `s` on is in `I`. -/
def AllStates (step : σ → α → σ) (I : σ → Prop) (s : σ) (l : List α) : Prop :=
  ∀ pre post, l = pre ++ post → I (pre.foldl step s)

/-- Every input of the run is in `C`, together with the state that it meets. -/
def AllSteps (step : σ → α → σ) (C : σ → α → Prop) (s : σ) (l : List α) : Prop :=
  ∀ pre a post, l = pre ++ a :: post → C (pre.foldl step s) a

theorem allStates_nil : AllStates step I s [] ↔ I s := by
  refine ⟨fun h ↦ h [] [] rfl, fun h pre post hl ↦ ?_⟩
  rw [(List.append_eq_nil_iff.mp hl.symm).1]
  exact h

theorem allSteps_nil : AllSteps step C s [] := by
  intro pre a post hl
  simp at hl

theorem allStates_cons :
    AllStates step I s (a :: l) ↔ I s ∧ AllStates step I (step s a) l := by
  refine ⟨fun h ↦ ⟨h [] (a :: l) rfl, fun pre post hl ↦ h (a :: pre) post (by rw [hl]; rfl)⟩,
    fun h pre post hl ↦ ?_⟩
  cases pre with
  | nil => exact h.1
  | cons b pre =>
      obtain ⟨rfl, hl'⟩ := List.cons.inj hl
      exact h.2 pre post hl'

theorem allSteps_cons :
    AllSteps step C s (a :: l) ↔ C s a ∧ AllSteps step C (step s a) l := by
  refine ⟨fun h ↦ ⟨h [] a l rfl, fun pre b post hl ↦ h (a :: pre) b post (by rw [hl]; rfl)⟩,
    fun h pre b post hl ↦ ?_⟩
  cases pre with
  | nil =>
      obtain ⟨rfl, rfl⟩ := List.cons.inj hl
      exact h.1
  | cons c pre =>
      obtain ⟨rfl, hl'⟩ := List.cons.inj hl
      exact h.2 pre b post hl'

/-- Where a step keeps the invariant, and does what it should, exactly under a condition, so does a
run whose steps all meet the condition, and no other. -/
theorem allStates_and_allSteps_iff (h : ∀ s, I s → ∀ a ∈ l, (I (step s a) ∧ Q s a ↔ C s a))
    (h₀ : I s) : AllStates step I s l ∧ AllSteps step Q s l ↔ AllSteps step C s l := by
  induction l generalizing s with
  | nil => exact iff_of_true ⟨allStates_nil.mpr h₀, allSteps_nil⟩ allSteps_nil
  | cons a l ih =>
      have hstep := h s h₀ a List.mem_cons_self
      have hrest : ∀ s, I s → ∀ b ∈ l, (I (step s b) ∧ Q s b ↔ C s b) :=
        fun s hs b hb ↦ h s hs b (List.mem_cons_of_mem a hb)
      rw [allStates_cons, allSteps_cons, allSteps_cons]
      constructor
      · rintro ⟨⟨-, hI⟩, hq, hQ⟩
        have hs : I (step s a) := hI [] l rfl
        exact ⟨hstep.mp ⟨hs, hq⟩, (ih hrest hs).mp ⟨hI, hQ⟩⟩
      · rintro ⟨hc, hC⟩
        obtain ⟨hs, hq⟩ := hstep.mpr hc
        obtain ⟨hI, hQ⟩ := (ih hrest hs).mpr hC
        exact ⟨⟨h₀, hI⟩, hq, hQ⟩

/-- A condition under which each step keeps the invariant carries it through the run. -/
theorem AllSteps.invariant (h : ∀ s, I s → ∀ a, C s a → I (step s a) ∧ Q s a) (h₀ : I s)
    (hC : AllSteps step C s l) : AllStates step I s l ∧ AllSteps step Q s l := by
  induction l generalizing s with
  | nil => exact ⟨allStates_nil.mpr h₀, allSteps_nil⟩
  | cons a l ih =>
      rw [allSteps_cons] at hC
      obtain ⟨hs, hq⟩ := h s h₀ a hC.1
      obtain ⟨hI, hQ⟩ := ih hs hC.2
      exact ⟨allStates_cons.mpr ⟨h₀, hI⟩, allSteps_cons.mpr ⟨hq, hQ⟩⟩

end Reasoning
