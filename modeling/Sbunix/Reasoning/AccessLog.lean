import Mathlib.Logic.Function.Basic

/-!
# Logs of accesses

A log lists what a program loads and stores, in order.  The stores of a log are applied to
the contents before; a cell that no store names keeps its contents.
-/

namespace Reasoning

/-- An access to a cell of an array. -/
inductive Access (ι β : Type*) where
  | load (i : ι)
  | store (i : ι) (v : β)

variable {ι β : Type*} {log log' : List (Access ι β)} {f : ι → β} {i : ι} {v : β} {p : ι × β}

namespace Access

def cell : Access ι β → ι
  | load i => i
  | store i _ => i

def stored : Access ι β → Option (ι × β)
  | load _ => none
  | store i v => some (i, v)

end Access

/-- The cells that are stored to, and what is stored. -/
def stores (log : List (Access ι β)) : List (ι × β) := log.filterMap Access.stored

/-- The contents that a log leaves. -/
def applyLog [DecidableEq ι] (f : ι → β) : List (Access ι β) → ι → β
  | [] => f
  | .load _ :: log => applyLog f log
  | .store i v :: log => applyLog (Function.update f i v) log

theorem stores_append : stores (log ++ log') = stores log ++ stores log' :=
  List.filterMap_append

theorem stores_load : stores (.load i :: log) = stores log := rfl

theorem stores_store : stores (.store i v :: log) = (i, v) :: stores log := rfl

theorem store_mem (h : p ∈ stores log) : .store p.1 p.2 ∈ log := by
  obtain ⟨a, ha, hp⟩ := List.mem_filterMap.mp h
  cases a with
  | load i => cases hp
  | store i v =>
      obtain rfl := Option.some.inj hp
      exact ha

section
variable [DecidableEq ι]

theorem applyLog_append : applyLog f (log ++ log') = applyLog (applyLog f log) log' := by
  induction log generalizing f with
  | nil => rfl
  | cons a log ih =>
      cases a with
      | load i => exact ih
      | store i v => exact ih

/-- What no store names is unchanged. -/
theorem applyLog_of_not_stored (h : ∀ p ∈ stores log, p.1 ≠ i) : applyLog f log i = f i := by
  induction log generalizing f with
  | nil => rfl
  | cons a log ih =>
      cases a with
      | load j => exact ih h
      | store j v =>
          rw [stores_store, List.forall_mem_cons] at h
          rw [applyLog, ih h.2]
          exact Function.update_of_ne (Ne.symm h.1) v f

end

end Reasoning
