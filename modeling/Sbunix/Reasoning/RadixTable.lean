import Mathlib.Data.Set.Lattice
import Mathlib.Order.CompletePartialOrder
import Mathlib.Logic.Function.Basic

/-!
# Radix tables in a memory

A radix tree of height `n` is a table whose entries lead to tables of height `n - 1`; a table of
height 0 holds the values.  `child n t i` is the table of height `n` that entry `i` of the table `t`
of height `n + 1` leads to, and `val t i` the value at entry `i` of a table of height 0.  Nothing but
`child` and `val` says what the tree is, so the lemmas follow what writing single tables does to it.
-/

namespace Reasoning

variable {A ι E : Type*} (child : ℕ → A → ι → Option A) (val : A → ι → Option E)

/-- The tables of the tree of height `n` at `t`. -/
def tables : ℕ → A → Set A
  | 0, t => {t}
  | n + 1, t => {t} ∪ {u | ∃ i c, child n t i = some c ∧ u ∈ tables n c}

/-- No table of the tree is reached twice. -/
def IsTree : ℕ → A → Prop
  | 0, _ => True
  | n + 1, t => (∀ i c, child n t i = some c → IsTree n c ∧ t ∉ tables child n c) ∧
      ∀ i j c d, child n t i = some c → child n t j = some d → i ≠ j →
        Disjoint (tables child n c) (tables child n d)

/-- The table that a path leads to. -/
def descend : ℕ → A → List ι → Option A
  | _, t, [] => some t
  | 0, _, _ :: _ => none
  | n + 1, t, i :: p => (child n t i).bind fun c ↦ descend n c p

/-- The value that a path of `n + 1` indices leads to. -/
def leaf : ℕ → A → List ι → Option E
  | 0, t, [i] => val t i
  | n + 1, t, i :: p => (child n t i).bind fun c ↦ leaf n c p
  | _, _, _ => none

/-- How many tables are missing on a path. -/
def missing : ℕ → A → List ι → ℕ
  | n + 1, t, i :: p =>
      match child n t i with
      | none => n + 1
      | some c => missing n c p
  | _, _, _ => 0

variable {child val} {child' : ℕ → A → ι → Option A} {val' : A → ι → Option E} {n : ℕ} {t : A}

theorem self_mem_tables : t ∈ tables child n t := by
  cases n with
  | zero => exact rfl
  | succ n => exact Or.inl rfl

theorem mem_tables_child {i : ι} {c u : A} (h : child n t i = some c) (hu : u ∈ tables child n c) :
    u ∈ tables child (n + 1) t := Or.inr ⟨i, c, h, hu⟩

theorem missing_le (p : List ι) : missing child n t p ≤ n := by
  induction n generalizing t p with
  | zero =>
      cases p <;> exact Nat.le_refl 0
  | succ n ih =>
      match p with
      | [] => exact Nat.zero_le _
      | i :: p =>
          rw [missing]
          cases child n t i with
          | none => exact Nat.le_refl _
          | some c => exact Nat.le_succ_of_le (ih p)

/-! ## A table with one entry or none -/

theorem tables_leafless (h : ∀ j, child n t j = none) : tables child (n + 1) t = {t} := by
  ext u
  simp [tables, h]

theorem IsTree.leafless (h : ∀ j, child n t j = none) : IsTree child (n + 1) t := by
  refine ⟨fun i c hc ↦ ?_, fun i j c d hc ↦ ?_⟩
  · rw [h] at hc
    cases hc
  · rw [h] at hc
    cases hc

theorem tables_single [DecidableEq ι] {i : ι} {c : A}
    (h : ∀ j, child n t j = if j = i then some c else none) :
    tables child (n + 1) t = {t} ∪ tables child n c := by
  ext u
  rw [tables, Set.mem_union, Set.mem_union]
  refine or_congr_right ⟨fun ⟨j, d, hd, hu⟩ ↦ ?_, fun hu ↦ ⟨i, c, by rw [h, if_pos rfl], hu⟩⟩
  rw [h] at hd
  split at hd
  · exact Option.some.inj hd ▸ hu
  · cases hd

theorem IsTree.single [DecidableEq ι] {i : ι} {c : A} (hc : IsTree child n c)
    (h : ∀ j, child n t j = if j = i then some c else none) (ht : t ∉ tables child n c) :
    IsTree child (n + 1) t := by
  have hsome : ∀ {j d}, child n t j = some d → j = i ∧ d = c := by
    intro j d hd
    rw [h] at hd
    split at hd
    · rename_i hj
      exact ⟨hj, (Option.some.inj hd).symm⟩
    · cases hd
  refine ⟨fun j d hd ↦ ?_, fun j j' d d' hd hd' hne ↦ ?_⟩
  · rw [(hsome hd).2]
    exact ⟨hc, ht⟩
  · exact absurd ((hsome hd).1.trans (hsome hd').1.symm) hne

theorem leaf_single [DecidableEq ι] {i : ι} {c : A} {p : List ι} {e : E}
    (h : ∀ j, child n t j = if j = i then some c else none)
    (hl : leaf child val (n + 1) t p = some e) : ∃ q, p = i :: q ∧ leaf child val n c q = some e := by
  match p, hl with
  | j :: q, hl =>
      rw [leaf, h, Option.bind_eq_some_iff] at hl
      obtain ⟨d, hd, hl⟩ := hl
      split at hd
      · rename_i hj
        obtain rfl := Option.some.inj hd
        exact ⟨q, by rw [hj], hl⟩
      · cases hd

/-! ## The tree depends on its own tables only -/

theorem tables_congr (h : ∀ k, ∀ u ∈ tables child n t, child' k u = child k u) :
    tables child' n t = tables child n t := by
  induction n generalizing t with
  | zero => rfl
  | succ n ih =>
      ext u
      simp only [tables, Set.mem_union, Set.mem_singleton_iff, Set.mem_ofPred_eq,
        h n t self_mem_tables]
      refine or_congr_right (exists_congr fun i ↦ exists_congr fun c ↦ and_congr_right fun hc ↦ ?_)
      rw [ih fun k w hw ↦ h k w (mem_tables_child hc hw)]

theorem IsTree.congr (h : ∀ k, ∀ u ∈ tables child n t, child' k u = child k u)
    (ht : IsTree child n t) : IsTree child' n t := by
  induction n generalizing t with
  | zero => trivial
  | succ n ih =>
      have hself : child' n t = child n t := h n t self_mem_tables
      have hsub : ∀ {i c}, child n t i = some c →
          ∀ k, ∀ u ∈ tables child n c, child' k u = child k u :=
        fun hc k u hu ↦ h k u (mem_tables_child hc hu)
      refine ⟨fun i c hc ↦ ?_, fun i j c d hc hd hij ↦ ?_⟩
      · rw [hself] at hc
        rw [tables_congr (hsub hc)]
        exact ⟨ih (hsub hc) (ht.1 i c hc).1, (ht.1 i c hc).2⟩
      · rw [hself] at hc hd
        rw [tables_congr (hsub hc), tables_congr (hsub hd)]
        exact ht.2 i j c d hc hd hij

theorem leaf_congr (h : ∀ k, ∀ u ∈ tables child n t, child' k u = child k u)
    (hv : ∀ u ∈ tables child n t, val' u = val u) (p : List ι) :
    leaf child' val' n t p = leaf child val n t p := by
  induction n generalizing t p with
  | zero =>
      match p with
      | [] => rfl
      | [i] => exact congrFun (hv t self_mem_tables) i
      | _ :: _ :: _ => rfl
  | succ n ih =>
      match p with
      | [] => rfl
      | i :: p =>
          rw [leaf, leaf, h n t self_mem_tables]
          cases hc : child n t i with
          | none => rfl
          | some c =>
              exact ih (fun k u hu ↦ h k u (mem_tables_child hc hu))
                (fun u hu ↦ hv u (mem_tables_child hc hu)) p

theorem descend_congr (h : ∀ k, ∀ u ∈ tables child n t, child' k u = child k u) (p : List ι) :
    descend child' n t p = descend child n t p := by
  induction n generalizing t p with
  | zero =>
      match p with
      | [] => rfl
      | _ :: _ => rfl
  | succ n ih =>
      match p with
      | [] => rfl
      | i :: p =>
          rw [descend, descend, h n t self_mem_tables]
          cases hc : child n t i with
          | none => rfl
          | some c => exact ih (fun k u hu ↦ h k u (mem_tables_child hc hu)) p

/-! It depends on the levels below its own only. -/

theorem tables_congr_below (h : ∀ k < n, child' k = child k) (t : A) :
    tables child' n t = tables child n t := by
  induction n generalizing t with
  | zero => rfl
  | succ n ih =>
      simp only [tables, h n (Nat.lt_succ_self n), ih fun k hk ↦ h k (Nat.lt_succ_of_lt hk)]

theorem IsTree.congr_below (h : ∀ k < n, child' k = child k) (ht : IsTree child n t) :
    IsTree child' n t := by
  induction n generalizing t with
  | zero => trivial
  | succ n ih =>
      have hlow : ∀ k < n, child' k = child k := fun k hk ↦ h k (Nat.lt_succ_of_lt hk)
      simp only [IsTree, h n (Nat.lt_succ_self n), tables_congr_below hlow]
      exact ⟨fun i c hc ↦ ⟨ih hlow (ht.1 i c hc).1, (ht.1 i c hc).2⟩, ht.2⟩

theorem descend_congr_below (h : ∀ k < n, child' k = child k) (t : A) (p : List ι) :
    descend child' n t p = descend child n t p := by
  induction n generalizing t p with
  | zero => cases p <;> rfl
  | succ n ih =>
      match p with
      | [] => rfl
      | i :: p =>
          have hlow := ih fun k hk ↦ h k (Nat.lt_succ_of_lt hk)
          simp only [descend, h n (Nat.lt_succ_self n), hlow]

@[simp] theorem descend_nil : descend child n t [] = some t := by
  cases n <;> rfl

theorem descend_append {p q : List ι} {u : A} {k : ℕ} (hp : p.length + k = n)
    (hu : descend child n t p = some u) : descend child n t (p ++ q) = descend child k u q := by
  induction p generalizing n t with
  | nil =>
      obtain rfl : k = n := by simpa using hp
      obtain rfl : t = u := Option.some.inj (descend_nil.symm.trans hu)
      rfl
  | cons i p ih =>
      obtain ⟨n, rfl⟩ : ∃ m, n = m + 1 := ⟨p.length + k, by rw [← hp, List.length_cons]; omega⟩
      rw [descend, Option.bind_eq_some_iff] at hu
      obtain ⟨c, hc, hu⟩ := hu
      rw [List.cons_append, descend, hc, Option.bind_some]
      exact ih (by rw [List.length_cons] at hp; omega) hu

theorem missing_append {p q : List ι} {u : A} {k : ℕ} (hp : p.length + k = n)
    (hu : descend child n t p = some u) : missing child n t (p ++ q) = missing child k u q := by
  induction p generalizing n t with
  | nil =>
      obtain rfl : k = n := by simpa using hp
      obtain rfl : t = u := Option.some.inj (descend_nil.symm.trans hu)
      rfl
  | cons i p ih =>
      obtain ⟨n, rfl⟩ : ∃ m, n = m + 1 := ⟨p.length + k, by rw [← hp, List.length_cons]; omega⟩
      rw [descend, Option.bind_eq_some_iff] at hu
      obtain ⟨c, hc, hu⟩ := hu
      rw [List.cons_append, missing, hc]
      exact ih (by rw [List.length_cons] at hp; omega) hu

theorem descend_append_none {p q : List ι} (h : descend child n t p = none) :
    descend child n t (p ++ q) = none := by
  induction p generalizing n t with
  | nil => simp at h
  | cons i p ih =>
      cases n with
      | zero => rfl
      | succ n =>
          rw [List.cons_append, descend]
          rw [descend] at h
          cases hc : child n t i with
          | none => rfl
          | some c =>
              rw [hc, Option.bind_some] at h
              exact ih h

/-- Tables that a path shares with one that is there are not missing. -/
theorem missing_le_of_descend {p q l : List ι} {u : A} {k : ℕ} (hp : p.length + k = n)
    (hu : descend child n t (p ++ l) = some u) : missing child n t (p ++ q) ≤ k := by
  obtain ⟨c, hc⟩ : ∃ c, descend child n t p = some c := by
    refine Option.ne_none_iff_exists'.mp fun hn ↦ ?_
    rw [descend_append_none hn] at hu
    cases hu
  rw [missing_append hp hc]
  exact missing_le q

theorem descend_mem {p : List ι} {u : A} (h : descend child n t p = some u) :
    u ∈ tables child n t := by
  induction n generalizing t p with
  | zero =>
      match p, h with
      | [], h => exact (Option.some.inj h).symm
  | succ n ih =>
      match p, h with
      | [], h => exact Option.some.inj h ▸ self_mem_tables
      | i :: p, h =>
          rw [descend, Option.bind_eq_some_iff] at h
          obtain ⟨c, hc, hu⟩ := h
          exact mem_tables_child hc (ih hu)

theorem leaf_mem {p : List ι} {e : E} (h : leaf child val n t p = some e) :
    ∃ u ∈ tables child n t, ∃ i, val u i = some e := by
  induction n generalizing t p with
  | zero =>
      match p, h with
      | [i], h => exact ⟨t, self_mem_tables, i, h⟩
  | succ n ih =>
      match p, h with
      | i :: p, h =>
          rw [leaf, Option.bind_eq_some_iff] at h
          obtain ⟨c, hc, hl⟩ := h
          obtain ⟨u, hu, hv⟩ := ih hl
          exact ⟨u, mem_tables_child hc hu, hv⟩

theorem leaf_eq_some {p : List ι} {i : ι} {e : E} (hp : p.length = n) :
    leaf child val n t (p ++ [i]) = some e ↔ ∃ u, descend child n t p = some u ∧ val u i = some e := by
  induction p generalizing n t with
  | nil =>
      obtain rfl : n = 0 := hp.symm
      simp [leaf, descend]
  | cons j p ih =>
      obtain ⟨n, rfl⟩ : ∃ k, n = k + 1 := ⟨p.length, hp.symm⟩
      simp only [List.cons_append, leaf, descend, Option.bind_eq_some_iff]
      constructor
      · rintro ⟨c, hc, hl⟩
        obtain ⟨u, hu, hv⟩ := (ih (Nat.succ.inj hp)).mp hl
        exact ⟨u, ⟨c, hc, hu⟩, hv⟩
      · rintro ⟨u, ⟨c, hc, hu⟩, hv⟩
        exact ⟨c, hc, (ih (Nat.succ.inj hp)).mpr ⟨u, hu, hv⟩⟩

theorem IsTree.descend_inj {p q : List ι} {u : A} (ht : IsTree child n t)
    (hp : descend child n t p = some u) (hq : descend child n t q = some u) : p = q := by
  induction n generalizing t p q with
  | zero =>
      match p, q, hp, hq with
      | [], [], _, _ => rfl
  | succ n ih =>
      match p, q, hp, hq with
      | [], [], _, _ => rfl
      -- a path that ends early would make a table its own descendant
      | [], j :: q, hp, hq =>
          obtain rfl : t = u := Option.some.inj (descend_nil.symm.trans hp)
          rw [descend, Option.bind_eq_some_iff] at hq
          obtain ⟨c, hc, hu⟩ := hq
          exact absurd (descend_mem hu) (ht.1 j c hc).2
      | i :: p, [], hp, hq =>
          obtain rfl : t = u := Option.some.inj (descend_nil.symm.trans hq)
          rw [descend, Option.bind_eq_some_iff] at hp
          obtain ⟨c, hc, hu⟩ := hp
          exact absurd (descend_mem hu) (ht.1 i c hc).2
      | i :: p, j :: q, hp, hq =>
          rw [descend, Option.bind_eq_some_iff] at hp hq
          obtain ⟨c, hc, hu⟩ := hp
          obtain ⟨d, hd, hu'⟩ := hq
          by_cases hij : i = j
          · subst hij
            obtain rfl : c = d := Option.some.inj (hc.symm.trans hd)
            rw [ih (ht.1 i c hc).1 hu hu']
          · -- two entries lead to disjoint tables
            exact absurd (descend_mem hu')
              (Set.disjoint_left.mp (ht.2 i j c d hc hd hij) (descend_mem hu))

/-! ## Writing a value -/

/-- Nothing of the tree hangs on what the entries of a table of values say about tables. -/
theorem valueTable_spec {p : List ι} {u : A} (ht : IsTree child n t) (hp : p.length = n)
    (hu : descend child n t p = some u)
    (hc : ∀ m, ∀ w ∈ tables child n t, w ≠ u → child' m w = child m w) :
    tables child' n t = tables child n t ∧ IsTree child' n t ∧
      ∀ q, descend child' n t q = descend child n t q := by
  induction p generalizing n t with
  | nil =>
      obtain rfl : n = 0 := hp.symm
      exact ⟨rfl, trivial, fun q ↦ by cases q <;> rfl⟩
  | cons k p ih =>
      obtain ⟨n, rfl⟩ : ∃ k, n = k + 1 := ⟨p.length, hp.symm⟩
      rw [descend, Option.bind_eq_some_iff] at hu
      obtain ⟨c, hck, hu⟩ := hu
      have huc := descend_mem hu
      have hself : child' n t = child n t :=
        hc n t self_mem_tables fun he ↦ (ht.1 k c hck).2 (he ▸ huc)
      -- the child on the path by induction, the others as they do not hold the table `u`
      have hsub : ∀ {j d}, child n t j = some d → tables child' n d = tables child n d ∧
          IsTree child' n d ∧ ∀ q, descend child' n d q = descend child n d q := by
        intro j d hd
        by_cases hj : j = k
        · subst hj
          obtain rfl : c = d := Option.some.inj (hck.symm.trans hd)
          exact ih (ht.1 j c hck).1 (Nat.succ.inj hp) hu
            fun m w hw ↦ hc m w (mem_tables_child hd hw)
        · have hag : ∀ m, ∀ w ∈ tables child n d, child' m w = child m w := fun m w hw ↦
            hc m w (mem_tables_child hd hw) fun he ↦
              Set.disjoint_left.mp (ht.2 j k d c hd hck hj) hw (he ▸ huc)
          exact ⟨tables_congr hag, (ht.1 j d hd).1.congr hag, descend_congr hag⟩
      refine ⟨?_, ⟨fun j d hd ↦ ?_, fun i j d e hd he hij ↦ ?_⟩, fun q ↦ ?_⟩
      · ext w
        simp only [tables, Set.mem_union, Set.mem_singleton_iff, Set.mem_ofPred_eq, hself]
        refine or_congr_right (exists_congr fun j ↦ exists_congr fun d ↦ and_congr_right ?_)
        intro hd
        rw [(hsub hd).1]
      · rw [hself] at hd
        rw [(hsub hd).1]
        exact ⟨(hsub hd).2.1, (ht.1 j d hd).2⟩
      · rw [hself] at hd he
        rw [(hsub hd).1, (hsub he).1]
        exact ht.2 i j d e hd he hij
      · match q with
        | [] => rfl
        | j :: q =>
            rw [descend, descend, hself]
            cases hd : child n t j with
            | none => rfl
            | some d => exact (hsub hd).2.2 q

/-- Writing the value at one entry changes what its own path leads to, and nothing else. -/
theorem leaf_set [DecidableEq ι] {p q : List ι} {u : A} {i : ι} (ht : IsTree child n t)
    (hp : p.length = n) (hu : descend child n t p = some u)
    (hc : ∀ m, ∀ w ∈ tables child n t, w ≠ u → child' m w = child m w)
    (hv : ∀ w ∈ tables child n t, ∀ j, (w, j) ≠ (u, i) → val' w j = val w j) :
    leaf child' val' n t q = if q = p ++ [i] then val' u i else leaf child val n t q := by
  induction p generalizing n t q with
  | nil =>
      obtain rfl : n = 0 := hp.symm
      obtain rfl : t = u := Option.some.inj hu
      match q with
      | [] => rfl
      | [j] =>
          by_cases hj : j = i
          · subst hj
            rw [List.nil_append, if_pos rfl]
            rfl
          · rw [if_neg (by simpa using hj)]
            exact hv t self_mem_tables j (by simpa using hj)
      | _ :: _ :: _ => rw [if_neg (by simp)]; rfl
  | cons k p ih =>
      obtain ⟨n, rfl⟩ : ∃ k, n = k + 1 := ⟨p.length, hp.symm⟩
      rw [descend, Option.bind_eq_some_iff] at hu
      obtain ⟨c, hck, hu⟩ := hu
      have huc := descend_mem hu
      have hself : child' n t = child n t :=
        hc n t self_mem_tables fun he ↦ (ht.1 k c hck).2 (he ▸ huc)
      match q with
      | [] => rfl
      | j :: q =>
          rw [leaf, leaf, hself]
          by_cases hj : j = k
          · subst hj
            rw [hck, Option.bind_some, Option.bind_some,
              ih (ht.1 j c hck).1 (Nat.succ.inj hp) hu
                (fun m w hw ↦ hc m w (mem_tables_child hck hw))
                fun w hw ↦ hv w (mem_tables_child hck hw)]
            simp
          · rw [if_neg (by simp [hj])]
            cases hd : child n t j with
            | none => rfl
            | some d =>
                -- a path beside the one to `u`
                have hne : ∀ w ∈ tables child n d, w ≠ u := fun w hw he ↦
                  Set.disjoint_left.mp (ht.2 j k d c hd hck hj) hw (he ▸ huc)
                refine leaf_congr (fun m w hw ↦ hc m w (mem_tables_child hd hw) (hne w hw))
                  (fun w hw ↦ funext fun l ↦ ?_) q
                exact hv w (mem_tables_child hd hw) l fun he ↦ hne w hw (Prod.mk.inj he).1

/-! ## Adding an empty table -/

/-- Entry `i` of the table `t`, of height `k + 1`, now leads to the empty table `g`; the other
tables of `S` are as they were. -/
structure Graft (child child' : ℕ → A → ι → Option A) (S : Set A) (k : ℕ) (t : A) (i : ι)
    (g : A) : Prop where
  fresh : g ∉ S
  absent : child k t i = none
  link : child' k t i = some g
  empty : ∀ m j, child' m g j = none
  same : ∀ j, j ≠ i → child' k t j = child k t j
  other : ∀ m, ∀ u ∈ S, u ≠ t → child' m u = child m u

theorem Graft.mono {S S' : Set A} {k : ℕ} {u g : A} {i : ι} (h : Graft child child' S k u i g)
    (hs : S' ⊆ S) : Graft child child' S' k u i g :=
  ⟨fun hg ↦ h.fresh (hs hg), h.absent, h.link, h.empty, h.same, fun m w hw ↦ h.other m w (hs hw)⟩

theorem tables_empty {g : A} (h : ∀ m j, child' m g j = none) (k : ℕ) : tables child' k g = {g} := by
  cases k with
  | zero => rfl
  | succ k => simp [tables, h]

theorem IsTree.of_empty {g : A} (h : ∀ m j, child' m g j = none) (k : ℕ) : IsTree child' k g := by
  cases k with
  | zero => trivial
  | succ k => exact ⟨fun i c hc ↦ by simp [h] at hc, fun i j c d hc ↦ by simp [h] at hc⟩

theorem leaf_empty {g : A} (h : ∀ m j, child' m g j = none) (hv : ∀ j, val' g j = none) (k : ℕ)
    (q : List ι) : leaf child' val' k g q = none := by
  match k, q with
  | 0, [] => rfl
  | 0, [j] => exact hv j
  | 0, _ :: _ :: _ => rfl
  | k + 1, [] => rfl
  | k + 1, j :: q => rw [leaf, h, Option.bind_none]

/-- The subtree at entry `j` of `t`, or its absence, has given way to the tree at `c`, which has the
table `g` more. -/
structure Replaced (child child' : ℕ → A → ι → Option A) (n : ℕ) (t : A) (j : ι) (c g : A) :
    Prop where
  link : child' n t j = some c
  same : ∀ l, l ≠ j → child' n t l = child n t l
  beside : ∀ l d, l ≠ j → child n t l = some d → ∀ m, ∀ w ∈ tables child n d, child' m w = child m w
  fresh : g ∉ tables child (n + 1) t
  tree : IsTree child' n c
  union : tables child' n c = {w | ∃ d, child n t j = some d ∧ w ∈ tables child n d} ∪ {g}

section Replaced

variable {j : ι} {c g : A}

theorem Replaced.eq_of_link {d : A} (h : Replaced child child' n t j c g)
    (hd : child' n t j = some d) : c = d := Option.some.inj (h.link.symm.trans hd)

theorem Replaced.tables_eq (h : Replaced child child' n t j c g) :
    tables child' (n + 1) t = tables child (n + 1) t ∪ {g} := by
  ext w
  simp only [tables, Set.mem_union, Set.mem_singleton_iff, Set.mem_ofPred_eq]
  constructor
  · rintro (rfl | ⟨l, d, hd, hw⟩)
    · exact Or.inl (Or.inl rfl)
    · by_cases hl : l = j
      · subst hl
        obtain rfl := h.eq_of_link hd
        rw [h.union] at hw
        rcases hw with ⟨d, hd, hw⟩ | hw
        · exact Or.inl (Or.inr ⟨l, d, hd, hw⟩)
        · exact Or.inr hw
      · rw [h.same l hl] at hd
        rw [tables_congr (h.beside l d hl hd)] at hw
        exact Or.inl (Or.inr ⟨l, d, hd, hw⟩)
  · rintro ((rfl | ⟨l, d, hd, hw⟩) | rfl)
    · exact Or.inl rfl
    · by_cases hl : l = j
      · subst hl
        exact Or.inr ⟨l, c, h.link, by rw [h.union]; exact Or.inl ⟨d, hd, hw⟩⟩
      · refine Or.inr ⟨l, d, (h.same l hl).trans hd, ?_⟩
        rwa [tables_congr (h.beside l d hl hd)]
    · exact Or.inr ⟨j, c, h.link, by rw [h.union]; exact Or.inr rfl⟩

/-- The new subtree shares no table with those beside it. -/
theorem Replaced.disjoint {l : ι} {d : A} (h : Replaced child child' n t j c g)
    (ht : IsTree child (n + 1) t) (hl : l ≠ j) (hd : child n t l = some d) :
    Disjoint (tables child' n c) (tables child' n d) := by
  rw [h.union, tables_congr (h.beside l d hl hd), Set.disjoint_union_left,
    Set.disjoint_singleton_left]
  refine ⟨Set.disjoint_left.mpr ?_, fun hg ↦ h.fresh (mem_tables_child hd hg)⟩
  rintro w ⟨e, he, hw⟩ hwd
  exact Set.disjoint_left.mp (ht.2 j l e d he hd hl.symm) hw hwd

theorem Replaced.isTree (h : Replaced child child' n t j c g) (ht : IsTree child (n + 1) t) :
    IsTree child' (n + 1) t := by
  refine ⟨fun l d hd ↦ ?_, fun l l' d d' hd hd' hne ↦ ?_⟩
  · by_cases hl : l = j
    · subst hl
      obtain rfl := h.eq_of_link hd
      refine ⟨h.tree, ?_⟩
      rw [h.union]
      rintro (⟨d, hd, hm⟩ | hm)
      · exact (ht.1 l d hd).2 hm
      · exact h.fresh (Set.mem_singleton_iff.mp hm ▸ self_mem_tables)
    · rw [h.same l hl] at hd
      rw [tables_congr (h.beside l d hl hd)]
      exact ⟨(ht.1 l d hd).1.congr (h.beside l d hl hd), (ht.1 l d hd).2⟩
  · by_cases hl : l = j
    · subst hl
      obtain rfl := h.eq_of_link hd
      exact h.disjoint ht hne.symm ((h.same l' hne.symm).symm.trans hd')
    · rw [h.same l hl] at hd
      by_cases hl' : l' = j
      · subst hl'
        obtain rfl := h.eq_of_link hd'
        exact (h.disjoint ht hl hd).symm
      · rw [h.same l' hl'] at hd'
        rw [tables_congr (h.beside l d hl hd), tables_congr (h.beside l' d' hl' hd')]
        exact ht.2 l l' d d' hd hd' hne

theorem Replaced.descend_mono {q : List ι} {w : A} (h : Replaced child child' n t j c g)
    (hj : ∀ d q w, child n t j = some d → descend child n d q = some w →
      descend child' n c q = some w)
    (hq : descend child (n + 1) t q = some w) : descend child' (n + 1) t q = some w := by
  cases q with
  | nil => exact hq
  | cons l q =>
      rw [descend, Option.bind_eq_some_iff] at hq
      obtain ⟨d, hd, hq⟩ := hq
      rw [descend]
      by_cases hl : l = j
      · subst hl
        rw [h.link]
        exact hj d q w hd hq
      · rw [h.same l hl, hd, Option.bind_some, descend_congr (h.beside l d hl hd)]
        exact hq

theorem Replaced.leaf_eq (h : Replaced child child' n t j c g)
    (hj : ∀ q, leaf child' val' n c q = (child n t j).bind fun d ↦ leaf child val n d q)
    (hv : ∀ l d, l ≠ j → child n t l = some d → ∀ w ∈ tables child n d, val' w = val w)
    (q : List ι) : leaf child' val' (n + 1) t q = leaf child val (n + 1) t q := by
  cases q with
  | nil => rfl
  | cons l q =>
      rw [leaf, leaf]
      by_cases hl : l = j
      · subst hl
        rw [h.link]
        exact hj q
      · rw [h.same l hl]
        cases hd : child n t l with
        | none => rfl
        | some d => exact leaf_congr (h.beside l d hl hd) (hv l d hl hd) q

end Replaced

/-- A graft at the root puts an empty tree where there was none. -/
theorem Graft.replaced {k : ℕ} {g : A} {i : ι}
    (h : Graft child child' (tables child (k + 1) t) k t i g) (ht : IsTree child (k + 1) t) :
    Replaced child child' k t i g g where
  link := h.link
  same := h.same
  beside l d _ hd m w hw :=
    h.other m w (mem_tables_child hd hw) fun he ↦ (ht.1 l d hd).2 (he ▸ hw)
  fresh := h.fresh
  tree := .of_empty h.empty k
  union := by
    rw [tables_empty h.empty, h.absent]
    simp

theorem Graft.spec {k : ℕ} {p : List ι} {u g : A} {i : ι}
    (h : Graft child child' (tables child n t) k u i g) (ht : IsTree child n t)
    (hp : p.length + (k + 1) = n) (hu : descend child n t p = some u) :
    tables child' n t = tables child n t ∪ {g} ∧ IsTree child' n t ∧
      descend child' n t (p ++ [i]) = some g ∧
      (∀ q w, descend child n t q = some w → descend child' n t q = some w) ∧
      ∀ val' : A → ι → Option E, (∀ w ∈ tables child n t, w ≠ u → val' w = val w) →
        (∀ j, val' g j = none) → ∀ q, leaf child' val' n t q = leaf child val n t q := by
  induction p generalizing n t with
  | nil =>
      obtain rfl : n = k + 1 := by simpa using hp.symm
      obtain rfl : t = u := Option.some.inj hu
      have hr := h.replaced ht
      refine ⟨hr.tables_eq, hr.isTree ht, ?_, fun q w hq ↦ hr.descend_mono ?_ hq, ?_⟩
      · rw [List.nil_append, descend, h.link, Option.bind_some, descend_nil]
      · intro d q w hd
        rw [h.absent] at hd
        cases hd
      · intro val' hv hvg q
        refine hr.leaf_eq (fun q ↦ ?_) (fun l d _ hd w hw ↦ ?_) q
        · rw [h.absent, Option.bind_none, leaf_empty h.empty hvg]
        · exact hv w (mem_tables_child hd hw) fun he ↦ (ht.1 l d hd).2 (he ▸ hw)
  | cons j p ih =>
      obtain ⟨n, rfl⟩ : ∃ m, n = m + 1 := ⟨p.length + (k + 1), by rw [← hp, List.length_cons]; omega⟩
      rw [descend, Option.bind_eq_some_iff] at hu
      obtain ⟨c, hc, hu⟩ := hu
      have hcs : tables child n c ⊆ tables child (n + 1) t := fun w hw ↦ mem_tables_child hc hw
      have huc := descend_mem hu
      obtain ⟨htab, htree, hdesc, hmono, hleaf⟩ := ih (h.mono hcs) (ht.1 j c hc).1
        (by rw [List.length_cons] at hp; omega) hu
      have hself : child' n t = child n t :=
        h.other n t self_mem_tables fun he ↦ (ht.1 j c hc).2 (he ▸ huc)
      -- the subtrees beside `c` do not hold `u`
      have hne : ∀ l d, l ≠ j → child n t l = some d → ∀ w ∈ tables child n d, w ≠ u :=
        fun l d hl hd w hw he ↦ Set.disjoint_left.mp (ht.2 l j d c hd hc hl) (he ▸ hw) huc
      have hr : Replaced child child' n t j c g :=
        ⟨by rw [hself, hc], fun l _ ↦ by rw [hself],
          fun l d hl hd m w hw ↦ h.other m w (mem_tables_child hd hw) (hne l d hl hd w hw), h.fresh,
          htree, by rw [htab, hc]; simp⟩
      refine ⟨hr.tables_eq, hr.isTree ht, ?_, fun q w hq ↦ hr.descend_mono ?_ hq, ?_⟩
      · rw [List.cons_append, descend, hself, hc]
        exact hdesc
      · intro d q w hd hq
        obtain rfl : c = d := Option.some.inj (hc.symm.trans hd)
        exact hmono q w hq
      · intro val' hv hvg q
        refine hr.leaf_eq (fun q ↦ ?_) (fun l d hl hd w hw ↦ ?_) q
        · rw [hc]
          exact hleaf val' (fun w hw ↦ hv w (hcs hw)) hvg q
        · exact hv w (mem_tables_child hd hw) (hne l d hl hd w hw)

end Reasoning
