import Mathlib.Data.List.Basic

/-!
# Paths

A path is a list of components; `here` leaves a list as it is and `up` takes its last component away.
As a text each word stands behind a delimiter, and the text of the root is the delimiter, that is,
one empty word.
-/

namespace Reasoning

variable {α : Type*}

/-! ## Texts -/

/-- The words with a delimiter before each. -/
def prefixed (d : α) (ws : List (List α)) : List α := ws.flatMap (d :: ·)

/-- The words of a path, which are those of the root where it has none. -/
def rooted (cs : List (List α)) : List (List α) := if cs = [] then [[]] else cs

variable {d : α} {ws vs cs a b : List (List α)} {w t : List α}

theorem prefixed_cons : prefixed d (w :: ws) = d :: (w ++ prefixed d ws) := rfl

theorem prefixed_concat : prefixed d (ws ++ [w]) = prefixed d ws ++ d :: w := by
  rw [prefixed, List.flatMap_append]
  exact congrArg (prefixed d ws ++ d :: ·) (List.append_nil w)

/-- A word ends where the next delimiter stands. -/
theorem takeWhile_prefixed [DecidableEq α] (hw : d ∉ w) :
    (w ++ prefixed d ws).takeWhile (· ≠ d) = w := by
  have hall : ∀ x ∈ w, decide (x ≠ d) = true := fun x hx ↦ decide_eq_true fun he ↦ hw (he ▸ hx)
  have hstop : (prefixed d ws).takeWhile (· ≠ d) = [] := by
    cases ws with
    | nil => rfl
    | cons v ws => exact List.takeWhile_cons_of_neg (by simp)
  rw [List.takeWhile_append_of_pos hall, hstop, List.append_nil]

/-- The words can be read back. -/
theorem prefixed_inj [DecidableEq α] (hws : ∀ w ∈ ws, d ∉ w) (hvs : ∀ v ∈ vs, d ∉ v) :
    prefixed d ws = prefixed d vs ↔ ws = vs := by
  refine ⟨fun h ↦ ?_, congrArg (prefixed d)⟩
  induction ws generalizing vs with
  | nil =>
      cases vs with
      | nil => rfl
      | cons v vs => cases h
  | cons w ws ih =>
      cases vs with
      | nil => cases h
      | cons v vs =>
          obtain ⟨hw, hws'⟩ := List.forall_mem_cons.mp hws
          obtain ⟨hv, hvs'⟩ := List.forall_mem_cons.mp hvs
          rw [prefixed_cons, prefixed_cons, List.cons_inj_right] at h
          -- both texts have the same first word, and what is left of them is the same
          have hfirst := congrArg (List.takeWhile (· ≠ d)) h
          rw [takeWhile_prefixed hw, takeWhile_prefixed hv] at hfirst
          subst hfirst
          rw [ih hws' hvs' (List.append_cancel_left h)]

theorem rooted_of_ne_nil (h : cs ≠ []) : rooted cs = cs := if_neg h

theorem notMem_rooted (h : ∀ c ∈ cs, d ∉ c) : ∀ w ∈ rooted cs, d ∉ w := by
  rw [rooted]
  split
  · exact List.forall_mem_singleton.mpr List.not_mem_nil
  · exact h

theorem rooted_ne_nil : rooted cs ≠ [] := by
  rw [rooted]
  split
  · exact List.cons_ne_nil _ _
  · assumption

/-- A path is told from another one also with an empty word behind it. -/
theorem rooted_inj (ha : [] ∉ a) (hb : [] ∉ b) : rooted a = rooted b ↔ a = b := by
  refine ⟨fun h ↦ ?_, congrArg rooted⟩
  have hroot : ∀ {c : List (List α)}, [] ∉ c → rooted c = [[]] → c = [] := fun {c} hc he ↦ by
    by_contra hne
    rw [rooted_of_ne_nil hne] at he
    exact hc (he ▸ List.mem_singleton_self _)
  by_cases hnil : a = []
  · subst hnil
    exact (hroot hb h.symm).symm
  · by_cases hnil' : b = []
    · subst hnil'
      exact hroot ha h
    · rwa [rooted_of_ne_nil hnil, rooted_of_ne_nil hnil'] at h

theorem rooted_ne_concat_nil (ha : [] ∉ a) : rooted a ≠ rooted b ++ [[]] := by
  intro h
  by_cases hnil : a = []
  · rw [hnil] at h
    exact rooted_ne_nil (List.append_eq_singleton_iff.mp h.symm |>.elim (·.1) fun h ↦ by cases h.2)
  · rw [rooted_of_ne_nil hnil] at h
    exact ha (h ▸ List.mem_append_right _ (List.mem_singleton_self _))

/-- The words `ws` are those of the path `cs`, up to a delimiter behind them. -/
def UpToDelimiter (ws cs : List (List α)) : Prop := ws = rooted cs ∨ ws = rooted cs ++ [[]]

theorem upToDelimiter_rooted (ha : [] ∉ a) (hb : [] ∉ b) : UpToDelimiter (rooted a) b ↔ b = a := by
  rw [UpToDelimiter, rooted_inj ha hb, or_iff_left (rooted_ne_concat_nil ha), eq_comm]

theorem upToDelimiter_rooted_concat (ha : [] ∉ a) (hb : [] ∉ b) :
    UpToDelimiter (rooted a ++ [[]]) b ↔ b = a := by
  rw [UpToDelimiter, or_iff_right (rooted_ne_concat_nil hb).symm, List.append_cancel_right_eq,
    rooted_inj ha hb, eq_comm]

/-- Two delimiters in a row are no path. -/
theorem not_upToDelimiter_double (hb : [] ∉ b) (ht : t ≠ []) : ¬ UpToDelimiter ([] :: t :: ws) b := by
  cases b with
  | nil =>
      rintro (h | h)
      · cases h
      · exact ht (List.cons.inj (List.cons.inj h).2).1
  | cons c b =>
      rintro (h | h)
      · exact hb ((List.cons.inj h).1 ▸ List.mem_cons_self)
      · exact hb ((List.cons.inj h).1 ▸ List.mem_cons_self)

/-! ## Resolution -/

section

variable {β : Type*} [DecidableEq β] {here up x : β} {cs ts : List β} {i n : Nat}

def resolveStep (here up : β) (cs : List β) (t : β) : List β :=
  if t = here then cs else if t = up then cs.dropLast else cs ++ [t]

/-- All components in order, from the path `cs` on. -/
def resolve (here up : β) (cs ts : List β) : List β := ts.foldl (resolveStep here up) cs

theorem mem_resolve (h : x ∈ resolve here up cs ts) : x ∈ cs ∨ x ∈ ts := by
  induction ts generalizing cs with
  | nil => exact .inl h
  | cons t ts ih =>
      rcases ih h with hx | hx
      · rw [resolveStep] at hx
        split at hx
        · exact .inl hx
        · split at hx
          · exact .inl (List.dropLast_subset cs hx)
          · exact (List.mem_append.mp hx).imp_right fun hx ↦ List.mem_cons.mpr
              (.inl (List.mem_singleton.mp hx))
      · exact .inr (List.mem_cons_of_mem t hx)

/-- What a step puts behind the first `n` components is a name. -/
theorem resolveStep_getElem {t : β} (hcs : ∀ i x, n ≤ i → cs[i]? = some x → x ≠ here ∧ x ≠ up)
    (hi : n ≤ i) (hx : (resolveStep here up cs t)[i]? = some x) : x ≠ here ∧ x ≠ up := by
  rw [resolveStep] at hx
  split at hx
  · exact hcs i x hi hx
  · split at hx
    · rw [List.getElem?_dropLast] at hx
      split at hx
      · exact hcs i x hi hx
      · cases hx
    · rw [List.getElem?_append] at hx
      split at hx
      · exact hcs i x hi hx
      · obtain rfl := List.mem_singleton.mp (List.mem_of_getElem? hx)
        exact ⟨‹_›, ‹_›⟩

/-- Behind the components that were there, all components are names. -/
theorem resolve_getElem (hcs : ∀ i x, n ≤ i → cs[i]? = some x → x ≠ here ∧ x ≠ up)
    (hi : n ≤ i) (hx : (resolve here up cs ts)[i]? = some x) : x ≠ here ∧ x ≠ up := by
  induction ts generalizing cs with
  | nil => exact hcs i x hi hx
  | cons t ts ih => exact ih (fun _ _ ↦ resolveStep_getElem hcs) hx

theorem name_of_resolve_eq (h : resolve here up cs ts = cs ++ [x]) : x ≠ here ∧ x ≠ up := by
  have hx : (resolve here up cs ts)[cs.length]? = some x := by
    rw [h, List.getElem?_append_right (Nat.le_refl _), Nat.sub_self]
    rfl
  refine resolve_getElem (fun i y hi hy ↦ ?_) (Nat.le_refl cs.length) hx
  rw [List.getElem?_eq_none hi] at hy
  cases hy

end

end Reasoning
