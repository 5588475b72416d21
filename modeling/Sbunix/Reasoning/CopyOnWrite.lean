import Mathlib.Logic.Function.Basic

/-!
# Copy on write

Processes map pages to frames, some of them to be written in place.  Sharing the frames of a process
with a new one, and giving a page a frame of its own before it is written, shows every process what
it would see if the new process had got copies of all pages at once.
-/

namespace Reasoning

variable {P Q F D : Type*}

/-- The frame of each mapped page, with a mark if it may be written in place, and what the frames
hold. -/
structure CowState (P Q F D : Type*) where
  map : P → Q → Option (F × Bool)
  data : F → D

namespace CowState

variable {s s' : CowState P Q F D} {p c r : P} {q q' : Q} {f f' : F} {d : D} {b : Bool}

/-- What a process sees at a page. -/
def view (s : CowState P Q F D) (p : P) (q : Q) : Option D := (s.map p q).map fun m ↦ s.data m.1

/-- Some page is mapped to the frame. -/
def Used (s : CowState P Q F D) (f : F) : Prop := ∃ p q b, s.map p q = some (f, b)

/-- The frame of a page that may be written in place is that page's alone. -/
def Exclusive (s : CowState P Q F D) : Prop :=
  ∀ p q p' q' f b, s.map p q = some (f, true) → s.map p' q' = some (f, b) → p' = p ∧ q' = q

theorem view_congr (hm : s'.map p q = s.map p q)
    (hd : ∀ f b, s.map p q = some (f, b) → s'.data f = s.data f) : s'.view p q = s.view p q := by
  rw [view, view, hm]
  cases h : s.map p q with
  | none => rfl
  | some m => exact congrArg some (hd m.1 m.2 h)

/-! ## Sharing all pages -/

/-- The new process `c` shares the frames of `p`, and neither writes in place. -/
structure Fork (p c : P) (s s' : CowState P Q F D) : Prop where
  ne : c ≠ p
  child : ∀ q, s'.map c q = (s.map p q).map fun m ↦ (m.1, false)
  parent : ∀ q, s'.map p q = (s.map p q).map fun m ↦ (m.1, false)
  other : ∀ r, r ≠ p → r ≠ c → ∀ q, s'.map r q = s.map r q
  data : ∀ f, s.Used f → s'.data f = s.data f

theorem Fork.view_shared (h : Fork p c s s') (hr : s'.map r q = (s.map p q).map fun m ↦ (m.1, false)) :
    s'.view r q = s.view p q := by
  rw [view, view, hr, Option.map_map]
  cases hm : s.map p q with
  | none => rfl
  | some m => exact congrArg some (h.data m.1 ⟨p, q, m.2, hm⟩)

theorem Fork.view_child (h : Fork p c s s') (q : Q) : s'.view c q = s.view p q :=
  h.view_shared (h.child q)

theorem Fork.view_of_ne (h : Fork p c s s') (hr : r ≠ c) (q : Q) : s'.view r q = s.view r q := by
  by_cases hp : r = p
  · subst hp
    exact h.view_shared (h.parent q)
  · exact view_congr (h.other r hp hr q) fun f b hf ↦ h.data f ⟨r, q, b, hf⟩

/-- A page in place belongs to a process that took no part, and so does every page like it. -/
theorem Fork.exclusive (h : Fork p c s s') (he : s.Exclusive) : s'.Exclusive := by
  -- a page of either party is shared, and is one of the parent's
  have hold : ∀ r q f b, s'.map r q = some (f, b) →
      (r ≠ p ∧ r ≠ c ∧ s.map r q = some (f, b)) ∨
        b = false ∧ ∃ b, s.map p q = some (f, b) := by
    intro r q f b hr
    have hsh : ∀ {m}, (s.map p q).map (fun m ↦ (m.1, false)) = some m →
        m.2 = false ∧ ∃ b, s.map p q = some (m.1, b) := by
      intro m hm
      rw [Option.map_eq_some_iff] at hm
      obtain ⟨m', hm', rfl⟩ := hm
      exact ⟨rfl, m'.2, hm'⟩
    by_cases hp : r = p
    · subst hp
      rw [h.parent] at hr
      exact .inr (hsh hr)
    · by_cases hc : r = c
      · subst hc
        rw [h.child] at hr
        exact .inr (hsh hr)
      · rw [h.other r hp hc] at hr
        exact .inl ⟨hp, hc, hr⟩
  intro r q r' q' f b hr hr'
  rcases hold r q f true hr with ⟨hp, -, hr⟩ | ⟨hb, -⟩
  · rcases hold r' q' f b hr' with ⟨-, -, hr'⟩ | ⟨-, b', hp'⟩
    · exact he r q r' q' f b hr hr'
    · exact absurd (he r q p q' f b' hr hp').1.symm hp
  · cases hb

/-! ## Writing in place -/

/-- The page `q` of `p` is written in its frame `f`. -/
structure Write (p : P) (q : Q) (f : F) (d : D) (s s' : CowState P Q F D) : Prop where
  mapped : s.map p q = some (f, true)
  map : ∀ p q, s'.map p q = s.map p q
  self : s'.data f = d
  other : ∀ g, g ≠ f → s.Used g → s'.data g = s.data g

theorem Write.view_self (h : Write p q f d s s') : s'.view p q = some d := by
  rw [view, h.map, h.mapped, Option.map_some, h.self]

theorem Write.view_of_ne (h : Write p q f d s s') (he : s.Exclusive) (hr : ¬ (r = p ∧ q' = q)) :
    s'.view r q' = s.view r q' := by
  refine view_congr (h.map r q') fun g b hg ↦ h.other g ?_ ⟨r, q', b, hg⟩
  rintro rfl
  exact hr (he p q r q' g b h.mapped hg)

theorem Write.exclusive (h : Write p q f d s s') (he : s.Exclusive) : s'.Exclusive := by
  intro p q p' q' f b hp hp'
  rw [h.map] at hp hp'
  exact he p q p' q' f b hp hp'

/-! ## A frame of its own -/

/-- The page `q` of `p` gets the unused frame `f'`. -/
structure Grant (p : P) (q : Q) (f' : F) (s s' : CowState P Q F D) : Prop where
  fresh : ¬ s.Used f'
  self : s'.map p q = some (f', true)
  other : ∀ r q', ¬ (r = p ∧ q' = q) → s'.map r q' = s.map r q'
  data : ∀ g, s.Used g → s'.data g = s.data g

theorem Grant.view_of_ne (h : Grant p q f' s s') (hr : ¬ (r = p ∧ q' = q)) :
    s'.view r q' = s.view r q' :=
  view_congr (h.other r q' hr) fun g b hg ↦ h.data g ⟨r, q', b, hg⟩

theorem Grant.exclusive (h : Grant p q f' s s') (he : s.Exclusive) : s'.Exclusive := by
  intro r q₁ r' q₂ g b hr hr'
  by_cases h₁ : r = p ∧ q₁ = q
  · obtain ⟨rfl, rfl⟩ := h₁
    rw [h.self] at hr
    obtain ⟨rfl, -⟩ := Prod.mk.inj (Option.some.inj hr)
    by_contra hne
    rw [h.other r' q₂ hne] at hr'
    exact h.fresh ⟨r', q₂, b, hr'⟩
  · rw [h.other r q₁ h₁] at hr
    by_cases h₂ : r' = p ∧ q₂ = q
    · obtain ⟨rfl, rfl⟩ := h₂
      rw [h.self] at hr'
      obtain ⟨rfl, -⟩ := Prod.mk.inj (Option.some.inj hr')
      exact absurd ⟨r, q₁, true, hr⟩ h.fresh
    · rw [h.other r' q₂ h₂] at hr'
      exact he r q₁ r' q₂ g b hr hr'

/-- The page `q` of `p` moves from the frame `f` to a copy in the unused frame `f'`. -/
structure Copy (p : P) (q : Q) (f f' : F) (s s' : CowState P Q F D) : Prop where
  mapped : ∃ b, s.map p q = some (f, b)
  fresh : ¬ s.Used f'
  self : s'.map p q = some (f', true)
  other : ∀ r q', ¬ (r = p ∧ q' = q) → s'.map r q' = s.map r q'
  copy : s'.data f' = s.data f
  data : ∀ g, s.Used g → s'.data g = s.data g

theorem Copy.grant (h : Copy p q f f' s s') : Grant p q f' s s' := ⟨h.fresh, h.self, h.other, h.data⟩

theorem Copy.view (h : Copy p q f f' s s') (r : P) (q' : Q) : s'.view r q' = s.view r q' := by
  by_cases hr : r = p ∧ q' = q
  · obtain ⟨rfl, rfl⟩ := hr
    obtain ⟨b, hb⟩ := h.mapped
    rw [CowState.view, CowState.view, h.self, hb, Option.map_some, Option.map_some, h.copy]
  · exact h.grant.view_of_ne hr

theorem Copy.exclusive (h : Copy p q f f' s s') (he : s.Exclusive) : s'.Exclusive :=
  h.grant.exclusive he

/-! ## A new process -/

/-- The process `c` comes with frames of its own. -/
structure Join (c : P) (s s' : CowState P Q F D) : Prop where
  fresh : ∀ q f b, s'.map c q = some (f, b) → ¬ s.Used f
  own : ∀ q q' f b, s'.map c q = some (f, true) → s'.map c q' = some (f, b) → q' = q
  other : ∀ r, r ≠ c → ∀ q, s'.map r q = s.map r q

theorem Join.exclusive (h : Join c s s') (he : s.Exclusive) : s'.Exclusive := by
  intro r q r' q' f b hr hr'
  by_cases hc : r = c
  · subst hc
    by_cases hc' : r' = r
    · subst hc'
      exact ⟨rfl, h.own q q' f b hr hr'⟩
    · rw [h.other r' hc'] at hr'
      exact absurd ⟨r', q', b, hr'⟩ (h.fresh q f true hr)
  · rw [h.other r hc] at hr
    by_cases hc' : r' = c
    · subst hc'
      exact absurd ⟨r, q, true, hr⟩ (h.fresh q' f b hr')
    · rw [h.other r' hc'] at hr'
      exact he r q r' q' f b hr hr'

end CowState

end Reasoning
