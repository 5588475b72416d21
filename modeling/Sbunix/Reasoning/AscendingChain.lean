import Sbunix.Reasoning.Chain
import Mathlib.Order.Lattice

/-!
# Ascending chains

A chain of `next` pointers whose nodes grow strictly and end below a sentinel: the shape of a
free list kept in address order inside an array.
-/

namespace Reasoning

variable {α : Type*} [LinearOrder α] {next : α → α} {a z i : α} {l : List α}

/-- The chain from `a` visits `l` in strictly increasing order and ends at `z` above them all. -/
structure AscendingChain (next : α → α) (a : α) (l : List α) (z : α) : Prop where
  chain : Chain next a l z
  sorted : (l ++ [z]).Pairwise (· < ·)

theorem AscendingChain.nil_iff : AscendingChain next a [] z ↔ a = z :=
  ⟨fun h ↦ h.chain, fun h ↦ ⟨h, List.pairwise_singleton _ z⟩⟩

theorem AscendingChain.tail {x : α} (h : AscendingChain next a (x :: l) z) :
    AscendingChain next (next x) l z :=
  ⟨h.chain.2, (List.pairwise_cons.mp h.sorted).2⟩

theorem AscendingChain.lt_end {x : α} (h : AscendingChain next a l z) (hx : x ∈ l) : x < z :=
  (List.pairwise_append.mp h.sorted).2.2 x hx z (List.mem_singleton_self z)

theorem AscendingChain.start_le {x : α} (h : AscendingChain next a l z) (hx : x ∈ l ++ [z]) :
    a ≤ x := by
  cases l with
  | nil =>
      rw [List.nil_append, List.mem_singleton] at hx
      exact (hx.trans (chain_nil.mp h.chain).symm).ge
  | cons y l =>
      obtain ⟨rfl, -⟩ := h.chain
      rcases List.mem_cons.mp hx with rfl | hx
      · exact le_rfl
      · exact ((List.pairwise_cons.mp h.sorted).1 x hx).le

theorem AscendingChain.start_mem (h : AscendingChain next a l z) : a ∈ l ++ [z] := by
  cases l with
  | nil => simp [chain_nil.mp h.chain]
  | cons y l => simp [h.chain.1]

theorem AscendingChain.next_le {x : α} (h : AscendingChain next a l z) (hx : x ∈ l) :
    next x ≤ z := by
  have hn := h.chain.next_mem hx
  rw [List.mem_append, List.mem_singleton] at hn
  rcases hn with hn | hn
  · exact (h.lt_end (List.mem_of_mem_tail hn)).le
  · exact hn.le

theorem AscendingChain.update {x v : α} (h : AscendingChain next a l z) (hx : x ∉ l) :
    AscendingChain (Function.update next x v) a l z :=
  ⟨h.chain.update hx, h.sorted⟩

/-- What is before a node is smaller, and the chain behind it ascends from there. -/
theorem AscendingChain.behind {l₁ l₂ : List α} {p : α}
    (h : AscendingChain next a (l₁ ++ p :: l₂) z) :
    AscendingChain next (next p) l₂ z ∧ (∀ x ∈ l₂ ++ [z], p < x) ∧ ∀ x ∈ l₁, x < p := by
  obtain ⟨_, -, rfl, hc⟩ := chain_append.mp h.chain
  have hs := h.sorted
  rw [List.append_assoc, List.pairwise_append, List.cons_append, List.pairwise_cons] at hs
  exact ⟨⟨hc, hs.2.1.2⟩, hs.2.1.1, fun x hx ↦ hs.2.2 x hx _ List.mem_cons_self⟩

theorem AscendingChain.lt_next {x : α} (h : AscendingChain next a l z) (hx : x ∈ l) :
    x < next x := by
  obtain ⟨l₁, l₂, rfl⟩ := List.append_of_mem hx
  obtain ⟨hrest, hlt, -⟩ := h.behind
  exact hlt _ hrest.start_mem

/-- A place inside the range of the chain falls behind a node `p` of the chain and not behind the
successor of `p`; the links before `p` stay at or below `p`. -/
theorem AscendingChain.split (h : AscendingChain next a l z) (ha : a < i) (hz : i ≤ z) :
    ∃ l₁ p l₂, l = l₁ ++ p :: l₂ ∧ p < i ∧ i ≤ next p ∧ ∀ x ∈ l₁, next x ≤ p := by
  induction l generalizing a with
  | nil => exact absurd (chain_nil.mp h.chain ▸ hz) (not_le.mpr ha)
  | cons x l ih =>
      obtain rfl := h.chain.1
      have ht := h.tail
      rcases lt_or_ge (next a) i with hlt | hge
      · obtain ⟨l₁, p, l₂, hl, hp, hpn, hle⟩ := ih ht hlt
        refine ⟨a :: l₁, p, l₂, by rw [hl, List.cons_append], hp, hpn, ?_⟩
        intro y hy
        rcases List.mem_cons.mp hy with rfl | hy
        · exact ht.start_le (by simp [hl])
        · exact hle y hy
      · exact ⟨[], a, l, rfl, ha, hge, by simp⟩

/-- Nothing of the chain lies strictly between a node and its successor. -/
theorem AscendingChain.next_le_of_lt {p : α} (h : AscendingChain next a l z) (hp : p ∈ l)
    (hi : i ∈ l) (hlt : p < i) : next p ≤ i := by
  obtain ⟨l₁, l₂, rfl⟩ := List.append_of_mem hp
  obtain ⟨hrest, -, hbefore⟩ := h.behind
  rcases List.mem_append.mp hi with hi | hi
  · exact absurd (hbefore i hi) hlt.asymm
  · rcases List.mem_cons.mp hi with rfl | hi
    · exact absurd hlt (lt_irrefl _)
    · exact hrest.start_le (List.mem_append_left _ hi)

theorem AscendingChain.push (h : AscendingChain next a l z) (hi : i < a) :
    AscendingChain (Function.update next i a) i (i :: l) z := by
  have hlow : ∀ x ∈ l ++ [z], i < x := fun x hx ↦ hi.trans_le (h.start_le hx)
  refine ⟨⟨rfl, ?_⟩, List.pairwise_cons.mpr ⟨hlow, h.sorted⟩⟩
  rw [Function.update_self]
  exact h.chain.update fun hm ↦ (hlow i (List.mem_append_left _ hm)).false

/-- Linking an absent node in behind `p` keeps the chain ascending. -/
theorem AscendingChain.insert {l₁ l₂ : List α} {p : α}
    (h : AscendingChain next a (l₁ ++ p :: l₂) z) (hi : i ∉ l₁ ++ p :: l₂) (hp : p < i)
    (hpn : i < next p) :
    AscendingChain (Function.update (Function.update next p i) i (next p)) a
      (l₁ ++ p :: i :: l₂) z := by
  have hsorted := h.sorted
  rw [List.append_assoc, List.cons_append, List.pairwise_append, List.pairwise_cons] at hsorted
  obtain ⟨hs₁, ⟨hps, hs₂⟩, hcross⟩ := hsorted
  have hrest := h.behind.1
  obtain ⟨m, hc₁, rfl, hc₂⟩ := chain_append.mp h.chain
  -- the node is smaller than all that follows `p`
  have hlow : ∀ x ∈ l₂ ++ [z], i < x := fun x hx ↦ hpn.trans_le (hrest.start_le hx)
  simp only [List.mem_append, List.mem_cons, not_or] at hi
  constructor
  · refine chain_append.mpr ⟨m, ?_, rfl, ?_, ?_⟩
    · refine (hc₁.update fun hm ↦ ?_).update hi.1
      exact (hcross m hm m List.mem_cons_self).false
    · rw [Function.update_of_ne hp.ne, Function.update_self]
    · rw [Function.update_self]
      refine (hc₂.update fun hm ↦ ?_).update hi.2.2
      exact (hps m (List.mem_append_left _ hm)).false
  · rw [List.append_assoc, List.cons_append, List.cons_append, List.pairwise_append,
      List.pairwise_cons, List.pairwise_cons]
    refine ⟨hs₁, ⟨?_, hlow, hs₂⟩, ?_⟩
    · intro x hx
      rcases List.mem_cons.mp hx with rfl | hx
      · exact hp
      · exact hp.trans (hlow x hx)
    · intro x hx y hy
      rcases List.mem_cons.mp hy with rfl | hy
      · exact hcross x hx y List.mem_cons_self
      · rcases List.mem_cons.mp hy with rfl | hy
        · exact (hcross x hx m List.mem_cons_self).trans hp
        · exact hcross x hx y (List.mem_cons_of_mem m hy)

end Reasoning
