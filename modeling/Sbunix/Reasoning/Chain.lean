import Mathlib.Data.List.Nodup
import Mathlib.Logic.Function.Basic
import Mathlib.Data.Set.Defs

/-!
# Chains of `next` pointers

A singly linked list is a function `next` on nodes.  `Chain next a l z` says which nodes are met on
the way from `a` to `z`; a ring is a chain that comes back to its own start, and a lasso is a chain
that runs into a ring.  The lemmas say what relinking one or two nodes does to these shapes.
-/

namespace Reasoning

variable {α : Type*}

/-- Following `next` from `a` visits the nodes `l` in order and arrives at `z`. -/
def Chain (next : α → α) : α → List α → α → Prop
  | a, [], z => a = z
  | a, x :: l, z => a = x ∧ Chain next (next x) l z

@[simp] theorem chain_nil {next : α → α} {a z : α} : Chain next a [] z ↔ a = z := Iff.rfl

@[simp] theorem chain_cons {next : α → α} {a x z : α} {l : List α} :
    Chain next a (x :: l) z ↔ a = x ∧ Chain next (next x) l z := Iff.rfl

theorem chain_append {next : α → α} {a z : α} {l₁ l₂ : List α} :
    Chain next a (l₁ ++ l₂) z ↔ ∃ m, Chain next a l₁ m ∧ Chain next m l₂ z := by
  induction l₁ generalizing a with
  | nil => simp
  | cons x l ih => simp only [List.cons_append, chain_cons, ih, exists_and_left, and_assoc]

theorem Chain.congr {f g : α → α} {a z : α} {l : List α} (h : Chain f a l z)
    (hfg : ∀ x ∈ l, g x = f x) : Chain g a l z := by
  induction l generalizing a with
  | nil => exact h
  | cons x l ih =>
      obtain ⟨rfl, h⟩ := h
      refine ⟨rfl, ?_⟩
      rw [hfg a List.mem_cons_self]
      exact ih h fun y hy ↦ hfg y (List.mem_cons_of_mem a hy)

theorem Chain.update [DecidableEq α] {next : α → α} {a z x v : α} {l : List α}
    (h : Chain next a l z) (hx : x ∉ l) : Chain (Function.update next x v) a l z :=
  h.congr fun _ hy ↦ Function.update_of_ne (ne_of_mem_of_not_mem hy hx) v next

/-- A chain of some nodes does not start at an end that is none of them. -/
theorem Chain.start_ne {next : α → α} {a z : α} {l : List α} (h : Chain next a l z) (hl : l ≠ [])
    (hz : z ∉ l) : a ≠ z := by
  cases l with
  | nil => exact absurd rfl hl
  | cons x l =>
      rintro rfl
      exact hz (h.1 ▸ List.mem_cons_self)

/-- A set that `next` does not leave contains every node of a chain that starts in it. -/
theorem Chain.closed {next : α → α} {a z : α} {l : List α} (h : Chain next a l z) (S : Set α)
    (hS : ∀ x ∈ S, next x ∈ S) (ha : a ∈ S) : z ∈ S := by
  induction l generalizing a with
  | nil => exact (chain_nil.mp h) ▸ ha
  | cons x l ih =>
      obtain ⟨rfl, h⟩ := h
      exact ih h (hS a ha)

/-- The nodes of a chain step to nodes of the chain, the last one to its end. -/
theorem Chain.next_mem {next : α → α} {a z x : α} {l : List α} (h : Chain next a l z)
    (hx : x ∈ l) : next x ∈ l.tail ++ [z] := by
  induction l generalizing a with
  | nil => simp at hx
  | cons y l ih =>
      obtain ⟨rfl, h⟩ := h
      rcases List.mem_cons.mp hx with rfl | hx
      · cases l with
        | nil => simpa using h
        | cons w l => simp [h.1]
      · have hn := ih h hx
        cases l with
        | nil => simp at hx
        | cons w l =>
            simp only [List.tail_cons, List.mem_append, List.mem_cons, List.not_mem_nil,
              or_false] at hn ⊢
            exact hn.elim (fun hm ↦ Or.inl (Or.inr hm)) Or.inr

/-- Two chains from one node to an end that neither of them meets are the same. -/
theorem Chain.unique {next : α → α} {a z : α} {l l' : List α} (h : Chain next a l z)
    (h' : Chain next a l' z) (hz : z ∉ l) (hz' : z ∉ l') : l = l' := by
  induction l generalizing a l' with
  | nil =>
      cases l' with
      | nil => rfl
      | cons x l' => exact absurd (h.symm.trans h'.1 ▸ List.mem_cons_self) hz'
  | cons x l ih =>
      cases l' with
      | nil => exact absurd (h'.symm.trans h.1 ▸ List.mem_cons_self) hz
      | cons y l' =>
          obtain ⟨rfl, h⟩ := h
          obtain ⟨rfl, h'⟩ := h'
          rw [ih h h' (fun hm ↦ hz (List.mem_cons_of_mem a hm))
            fun hm ↦ hz' (List.mem_cons_of_mem a hm)]

/-! ## Searching for the predecessor of a node -/

/-- Walk from `t` until a node whose successor is `target`, for at most `fuel` nodes. -/
def findPred [DecidableEq α] (next : α → α) (target : α) : Nat → α → Option α
  | 0, _ => none
  | fuel + 1, t => if next t = target then some t else findPred next target fuel (next t)

theorem findPred_chain [DecidableEq α] {next : α → α} {a p z : α} {l : List α}
    (h : Chain next a (l ++ [p]) z) (hz : z ∉ (l ++ [p]).tail) :
    findPred next z (l.length + 1) a = some p := by
  induction l generalizing a with
  | nil =>
      obtain ⟨rfl, h⟩ := h
      simp [findPred, chain_nil.mp h]
  | cons x l ih =>
      obtain ⟨rfl, h⟩ := h
      have htail : z ∉ l ++ [p] := hz
      have hne : next a ≠ z := by
        cases l with
        | nil => exact fun e ↦ htail (by simp [← e, h.1])
        | cons y l => exact fun e ↦ htail (by simp [← e, h.1])
      rw [List.length_cons, findPred, if_neg hne]
      exact ih h fun hm ↦ htail (List.mem_of_mem_tail hm)

/-- The search never ends inside a closed set that does not step to the target. -/
theorem findPred_closed [DecidableEq α] {next : α → α} {target a : α} (S : Set α)
    (hS : ∀ x ∈ S, next x ∈ S) (ht : ∀ x ∈ S, next x ≠ target) (ha : a ∈ S) (fuel : Nat) :
    findPred next target fuel a = none := by
  induction fuel generalizing a with
  | zero => rfl
  | succ fuel ih => rw [findPred, if_neg (ht a ha), ih (hS a ha)]

theorem findPred_mono [DecidableEq α] {next : α → α} {target a p : α} {m n : Nat} (hmn : m ≤ n)
    (h : findPred next target m a = some p) : findPred next target n a = some p := by
  induction m generalizing a n with
  | zero => simp [findPred] at h
  | succ m ih =>
      obtain ⟨n, rfl⟩ : ∃ k, n = k + 1 := ⟨n - 1, by omega⟩
      rw [findPred] at h ⊢
      split
      · rename_i he
        rwa [if_pos he] at h
      · rename_i he
        rw [if_neg he] at h
        exact ih (by omega) h

/-! ## Rings and lassos -/

/-- From `cur` the chain `t` runs into the ring `e :: r`, and no node is met twice. -/
structure Lasso (next : α → α) (cur : α) (t : List α) (e : α) (r : List α) : Prop where
  tail : Chain next cur t e
  ring : Chain next e (e :: r) e
  nodup : (t ++ e :: r).Nodup

/-- The simple cycle that starts at `e` and goes on with `r`. -/
abbrev Ring (next : α → α) (e : α) (r : List α) : Prop := Lasso next e [] e r

variable {next : α → α} {cur e : α} {t r : List α}

theorem Lasso.next_mem (h : Lasso next cur t e r) {x : α} (hx : x ∈ t ++ e :: r) :
    next x ∈ t ++ e :: r := by
  rcases List.mem_append.mp hx with hx | hx
  · have hn := h.tail.next_mem hx
    simp only [List.mem_append, List.mem_cons, List.not_mem_nil, or_false] at hn ⊢
    rcases hn with hn | hn
    · exact Or.inl (List.mem_of_mem_tail hn)
    · exact Or.inr (Or.inl hn)
  · have hn := h.ring.next_mem hx
    simp only [List.tail_cons, List.mem_append, List.mem_cons, List.not_mem_nil,
      or_false] at hn ⊢
    exact Or.inr hn.symm

theorem Lasso.cur_mem (h : Lasso next cur t e r) : cur ∈ t ++ e :: r := by
  cases t with
  | nil => simp [chain_nil.mp h.tail]
  | cons x t => simp [h.tail.1]

/-- The current node steps into the ring when it is on it. -/
theorem Lasso.head_ring (h : Lasso next cur [] e r) : cur = e := chain_nil.mp h.tail

theorem Lasso.head_tail {x : α} (h : Lasso next cur (x :: t) e r) : cur = x := h.tail.1

theorem Ring.self (h : Lasso next cur [] e r) : Ring next e r := by
  have he := h.head_ring
  exact ⟨rfl, h.ring, h.nodup⟩

/-- Nodes outside a lasso may be relinked freely. -/
theorem Lasso.update [DecidableEq α] (h : Lasso next cur t e r) {x v : α}
    (hx : x ∉ t ++ e :: r) : Lasso (Function.update next x v) cur t e r := by
  simp only [List.mem_append, not_or] at hx
  exact ⟨h.tail.update hx.1, h.ring.update hx.2, h.nodup⟩

/-! ### One step along the lasso -/

theorem Lasso.advance_tail {x : α} (h : Lasso next cur (x :: t) e r) :
    Lasso next (next cur) t e r := by
  obtain ⟨⟨rfl, ht⟩, hr, hn⟩ := h
  exact ⟨ht, hr, (List.nodup_cons.mp hn).2⟩

theorem Ring.rotate {y : α} (h : Ring next e (y :: r)) : Ring next y (r ++ [e]) := by
  obtain ⟨-, ⟨-, hy, hr⟩, hn⟩ := h
  refine ⟨rfl, ⟨rfl, chain_append.mpr ⟨e, hr, rfl, hy⟩⟩, ?_⟩
  have hp : (y :: (r ++ [e])).Perm (e :: y :: r) := by
    simpa using @List.perm_append_comm _ (y :: r) [e]
  exact hp.nodup_iff.mpr hn

/-- On a ring the predecessor of the first node is the last one. -/
theorem Ring.last {p : α} (h : Ring next e r) (hp : next p = e) (hm : p ∈ r) :
    ∃ l, r = l ++ [p] := by
  obtain ⟨-, ⟨-, hr⟩, hn⟩ := h
  obtain ⟨l, l', hl⟩ := List.append_of_mem hm
  rw [hl, chain_append] at hr
  obtain ⟨_, -, rfl, hl₂⟩ := hr
  -- nothing follows the predecessor: the ring would come back to `e` early
  cases l' with
  | nil => exact ⟨l, hl⟩
  | cons w l' =>
      have he : e = w := by rw [← hp]; exact hl₂.1
      exact absurd (by rw [hl]; simp [he]) (List.nodup_cons.mp hn).1

/-- A chain that runs into a ring from outside does not come back to where it starts. -/
theorem Lasso.not_ring {x : α} {r' : List α} (h : Lasso next cur (x :: t) e r) :
    ¬ Ring next cur r' := fun h' ↦ by
  have hrest := h.advance_tail
  have hback := h'.ring.2.closed {y | y ∈ t ++ e :: r} (fun _ hy ↦ hrest.next_mem hy) hrest.cur_mem
  rw [h.head_tail] at hback
  exact (List.nodup_cons.mp h.nodup).1 hback

/-! ### A new node after the current one -/

/-- Link `c` in between `cur` and its successor. -/
def insertAfter [DecidableEq α] (next : α → α) (cur c : α) : α → α :=
  Function.update (Function.update next cur c) c (next cur)

section
variable [DecidableEq α]

theorem insertAfter_cur {c : α} (hc : cur ≠ c) : insertAfter next cur c cur = c := by
  rw [insertAfter, Function.update_of_ne hc, Function.update_self]

theorem insertAfter_new {c : α} : insertAfter next cur c c = next cur :=
  Function.update_self _ _ _

theorem insertAfter_other {c x : α} (h : x ≠ cur) (hc : x ≠ c) :
    insertAfter next cur c x = next x := by
  rw [insertAfter, Function.update_of_ne hc, Function.update_of_ne h]

theorem Ring.insert (h : Ring next e r) {c : α} (hc : c ∉ e :: r) :
    Ring (insertAfter next e c) e (c :: r) := by
  obtain ⟨-, ⟨-, hr⟩, hn⟩ := h
  have hne : e ≠ c := fun he ↦ hc (by simp [he])
  have hcr : c ∉ r := fun hm ↦ hc (List.mem_cons_of_mem e hm)
  have her := (List.nodup_cons.mp hn).1
  refine ⟨rfl, ⟨rfl, insertAfter_cur hne, ?_⟩, ?_⟩
  · rw [insertAfter_new]
    exact hr.congr fun x hx ↦ insertAfter_other (fun he ↦ her (he ▸ hx)) fun he ↦ hcr (he ▸ hx)
  · have hp : (e :: c :: r).Perm (c :: e :: r) := List.Perm.swap c e r
    exact hp.nodup_iff.mpr (List.nodup_cons.mpr ⟨hc, hn⟩)

theorem Lasso.insert_tail {x c : α} (h : Lasso next cur (x :: t) e r)
    (hc : c ∉ x :: t ++ e :: r) : Lasso (insertAfter next x c) cur (x :: c :: t) e r := by
  obtain ⟨⟨rfl, ht⟩, hr, hn⟩ := h
  have hne : cur ≠ c := fun he ↦ hc (by simp [he])
  have hin := (List.nodup_cons.mp hn).1
  have hother : ∀ y ∈ t ++ e :: r, insertAfter next cur c y = next y := fun y hy ↦
    insertAfter_other (fun he ↦ hin (he ▸ hy)) fun he ↦ hc (List.mem_cons_of_mem cur (he ▸ hy))
  refine ⟨⟨rfl, insertAfter_cur hne, ?_⟩, ?_, ?_⟩
  · rw [insertAfter_new]
    exact ht.congr fun y hy ↦ hother y (List.mem_append_left _ hy)
  · exact hr.congr fun y hy ↦ hother y (List.mem_append_right _ hy)
  · have hp : (cur :: c :: t ++ e :: r).Perm (c :: (cur :: t ++ e :: r)) :=
      List.Perm.swap c cur (t ++ e :: r)
    exact hp.nodup_iff.mpr (List.nodup_cons.mpr ⟨hc, hn⟩)

/-! ### Unlinking the current node -/

theorem Ring.unlink {y p : α} (h : Ring next e (y :: r)) (hp : next p = e) (hm : p ∈ y :: r) :
    Ring (Function.update next p (next e)) y r := by
  obtain ⟨l, hl⟩ := h.last hp hm
  obtain ⟨-, ⟨-, hy, hr⟩, hn⟩ := h
  have hchain : Chain next y (y :: r) e := ⟨rfl, hr⟩
  rw [hl, chain_append] at hchain
  obtain ⟨m, hl₁, rfl, hl₂⟩ := hchain
  have hnd := (List.nodup_cons.mp hn).2
  have hml : m ∉ l := by
    rw [hl] at hnd
    exact fun hx ↦ (List.disjoint_of_nodup_append hnd) hx List.mem_cons_self
  refine ⟨rfl, ?_, hnd⟩
  rw [hl, chain_append]
  exact ⟨m, hl₁.update hml, rfl, by rw [Function.update_self, hy]; rfl⟩

/-! ### A new node in the place of the current one -/

/-- Link `c` in behind `p`, and then let it go on where `cur` now goes on. -/
def replaceBehind (next : α → α) (p cur c : α) : α → α :=
  Function.update (Function.update next p c) c (Function.update next p c cur)

/-- The new node takes the place of the current one on a ring of two or more nodes exactly when `p`
is the predecessor of the current one. -/
theorem Ring.replaceBehind_iff {p c : α} (h : Ring next e r) (hr : r ≠ []) (hc : c ∉ e :: r)
    (hm : p ∈ e :: r) : Ring (replaceBehind next p e c) c r ↔ next p = e := by
  obtain ⟨hce, hcr⟩ : c ≠ e ∧ c ∉ r := by simpa using hc
  have her := (List.nodup_cons.mp h.nodup).1
  have hpc : p ≠ c := ne_of_mem_of_not_mem hm hc
  constructor
  · intro hring
    rcases List.mem_cons.mp hm with rfl | hpr
    · -- the new node would go on with itself
      have hself : replaceBehind next p p c c = c := by
        rw [replaceBehind, Function.update_self, Function.update_self]
      cases r with
      | nil => exact absurd rfl hr
      | cons y r => exact absurd (by simp [← hring.ring.2.1, hself]) hcr
    · have hpc' : replaceBehind next p e c p = c := by
        rw [replaceBehind, Function.update_of_ne hpc, Function.update_self]
      obtain ⟨l, rfl⟩ := hring.last hpc' hpr
      obtain ⟨_, -, rfl, hend⟩ := chain_append.mp h.ring.2
      exact hend
  · intro hp
    have hpr : p ∈ r := by
      rcases List.mem_cons.mp hm with rfl | hpr
      · cases r with
        | nil => exact absurd rfl hr
        | cons y r => exact absurd (by simp [← h.ring.2.1, hp]) her
      · exact hpr
    have hpe : e ≠ p := fun he ↦ her (he ▸ hpr)
    obtain ⟨l, rfl⟩ := h.last hp hpr
    obtain ⟨m, hl, rfl, -⟩ := chain_append.mp h.ring.2
    have hnd := (List.nodup_cons.mp h.nodup).2
    have hml : m ∉ l := fun hx ↦
      (List.disjoint_of_nodup_append hnd) hx List.mem_cons_self
    have hcl : c ∉ l := fun hx ↦ hcr (List.mem_append_left _ hx)
    refine ⟨rfl, ⟨rfl, ?_⟩, List.nodup_cons.mpr ⟨hcr, hnd⟩⟩
    rw [show replaceBehind next m e c c = next e by
      rw [replaceBehind, Function.update_self, Function.update_of_ne hpe], chain_append]
    refine ⟨m, (hl.update hml).update hcl, rfl, ?_⟩
    rw [replaceBehind, Function.update_of_ne hpc, Function.update_self]
    rfl

/-! ### Exchanging the current node with its successor, the predecessor left as it was -/

/-- Make the successor of `cur` point back at `cur`, and `cur` at the node after it. -/
def swapNext (next : α → α) (cur : α) : α → α :=
  Function.update (Function.update next (next cur) cur) cur (next (next cur))

theorem swapNext_cur : swapNext next cur cur = next (next cur) := Function.update_self _ _ _

theorem swapNext_succ (h : next cur ≠ cur) : swapNext next cur (next cur) = cur := by
  rw [swapNext, Function.update_of_ne h, Function.update_self]

theorem swapNext_other {x : α} (h : x ≠ cur) (hs : x ≠ next cur) :
    swapNext next cur x = next x := by
  rw [swapNext, Function.update_of_ne h, Function.update_of_ne hs]

theorem Ring.swap_single (h : Ring next e []) : Ring (swapNext next e) e [] := by
  have he : next e = e := chain_nil.mp h.ring.2
  exact ⟨rfl, ⟨rfl, by rw [chain_nil, swapNext_cur, he, he]⟩, h.nodup⟩

/-- On a ring of two or more nodes the exchange loses the successor: it now leads into the ring
from outside. -/
theorem Ring.swap {y : α} (h : Ring next e (y :: r)) : Lasso (swapNext next e) y [y] e r := by
  obtain ⟨-, ⟨-, hy, hr⟩, hn⟩ := h
  simp only [List.nil_append, List.nodup_cons, List.mem_cons, not_or] at hn
  obtain ⟨⟨hey, her⟩, hyr, hnr⟩ := hn
  have hs : swapNext next e y = e := by
    rw [← hy]
    exact swapNext_succ fun he ↦ hey (by rw [← hy, he])
  refine ⟨⟨rfl, hs⟩, ⟨rfl, ?_⟩, ?_⟩
  · rw [swapNext_cur, hy]
    exact hr.congr fun x hx ↦ swapNext_other (ne_of_mem_of_not_mem hx her)
      (by rw [hy]; exact ne_of_mem_of_not_mem hx hyr)
  · simp only [List.cons_append, List.nil_append, List.nodup_cons, List.mem_cons, not_or]
    exact ⟨⟨Ne.symm hey, hyr⟩, her, hnr⟩

/-- One node off the ring is linked back in behind the first node of the ring. -/
theorem Lasso.swap_last {x : α} (h : Lasso next cur [x] e r) :
    Ring (swapNext next x) e (x :: r) := by
  obtain ⟨⟨rfl, hx⟩, ⟨-, hr⟩, hn⟩ := h
  rw [chain_nil] at hx
  simp only [List.cons_append, List.nil_append, List.nodup_cons, List.mem_cons, not_or] at hn
  obtain ⟨⟨hce, hcr⟩, her, hnr⟩ := hn
  have hs : swapNext next cur e = cur := by
    rw [← hx]
    exact swapNext_succ fun he ↦ hce (by rw [← hx, he])
  refine ⟨rfl, ⟨rfl, hs, ?_⟩, ?_⟩
  · rw [swapNext_cur, hx]
    exact hr.congr fun y hy ↦ swapNext_other (ne_of_mem_of_not_mem hy hcr)
      (by rw [hx]; exact ne_of_mem_of_not_mem hy her)
  · simp only [List.nil_append, List.nodup_cons, List.mem_cons, not_or]
    exact ⟨⟨Ne.symm hce, her⟩, hcr, hnr⟩

/-- Further from the ring the exchange only reorders the nodes that lead into it. -/
theorem Lasso.swap_tail {x y : α} (h : Lasso next cur (x :: y :: t) e r) :
    Lasso (swapNext next x) y (y :: x :: t) e r := by
  obtain ⟨⟨rfl, hy, ht⟩, hr, hn⟩ := h
  have hp : (y :: cur :: t ++ e :: r).Perm (cur :: y :: t ++ e :: r) :=
    List.Perm.swap cur y (t ++ e :: r)
  have hn' := hp.nodup_iff.mpr hn
  have hcur : cur ∉ t ++ e :: r := fun hm ↦ (List.nodup_cons.mp hn).1 (List.mem_cons_of_mem y hm)
  have hyn : y ∉ t ++ e :: r := fun hm ↦ (List.nodup_cons.mp hn').1 (List.mem_cons_of_mem cur hm)
  have hne : y ≠ cur := fun he ↦ (List.nodup_cons.mp hn).1 (by simp [he])
  have hother : ∀ z ∈ t ++ e :: r, swapNext next cur z = next z := fun z hz ↦
    swapNext_other (ne_of_mem_of_not_mem hz hcur) (by rw [hy]; exact ne_of_mem_of_not_mem hz hyn)
  have hs : swapNext next cur y = cur := by
    rw [← hy]
    exact swapNext_succ fun he ↦ hne (by rw [← hy, he])
  refine ⟨⟨rfl, hs, ?_⟩, ?_, hn'⟩
  · rw [swapNext_cur, hy]
    exact ht.congr fun z hz ↦ hother z (List.mem_append_left _ hz)
  · exact hr.congr fun z hz ↦ hother z (List.mem_append_right _ hz)

end

end Reasoning
