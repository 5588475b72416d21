import Sbunix.Sys.AddressSpace

/-!
# `map_v_p2` and `physicalAddress`

Three levels of tables and one write: the path of the address leads to the new value, every other
path to what it led to before.
-/

namespace Sbunix

open Reasoning

variable {U : Fin 512 → Bool} {s s' s'' : Machine} {r t v p : Nat} {i j : Fin 512}
  {free free' : List Nat}

/-! ## Writing an entry of the last level -/

/-- The entry `(t, i)` is the only one that differs. -/
def OneEntry (s s' : Machine) (S : Set Nat) (t : Nat) (i : Fin 512) : Prop :=
  ∀ u ∈ S, ∀ j, (u, j) ≠ (t, i) → entry s'.mem u j = entry s.mem u j

theorem writeEntry_mem {e : Nat} (ht : t < 2 ^ 31) :
    (s.writeEntry (kptr t) i e).mem = s.mem.store64 (t + 8 * i) e := by
  rw [Machine.writeEntry, phys_kptr ht]

structure PageWrite (U : Fin 512 → Bool) (r : Nat) (q : List (Fin 512)) (e : Nat) (s : Machine)
    (free : List Nat) (s' : Machine) : Prop where
  paged : Paged U s' r free
  frames : tableFrames U s'.mem r = tableFrames U s.mem r
  tables : ∀ p, tableAt U s'.mem r p = tableAt U s.mem r p
  pages : ∀ p, pageAt U s'.mem r p = if p = q then some e else pageAt U s.mem r p
  bytes : ∀ x, x / 4096 * 4096 ∉ tableFrames U s.mem r → s'.mem x = s.mem x

theorem writeEntry_page {q : List (Fin 512)} {e : Nat} (h : Paged U s r free)
    (hq : q.length = 3) (ht : tableAt U s.mem r q = some t) (he : Present e) (he' : e < 2 ^ 64) :
    OneEntry s (s.writeEntry (kptr t) i e) (tableFrames U s.mem r) t i ∧
    entry (s.writeEntry (kptr t) i e).mem t i = e ∧
    PageWrite U r (q ++ [i]) e s free (s.writeEntry (kptr t) i e) := by
  have htm := descend_mem ht
  obtain ⟨hta, htl⟩ := h.aligned t htm
  have hone : OneEntry s (s.writeEntry (kptr t) i e) (tableFrames U s.mem r) t i := by
    intro u hu j hj
    rw [writeEntry_mem htl]
    exact entry_store64_of_ne hta (h.aligned u hu).1 hj
  have hself : entry (s.writeEntry (kptr t) i e).mem t i = e := by
    rw [writeEntry_mem htl]
    exact entry_store64_self he'
  -- only the entries of `t` are written, and `t` has no tables below it
  have hchild : ∀ m, ∀ w ∈ tableFrames U s.mem r, w ≠ t →
      child U (s.writeEntry (kptr t) i e).mem m w = child U s.mem m w := fun m w hw hwt ↦
    child_congr (fun j ↦ hone w hw j fun hj ↦ hwt (Prod.mk.inj hj).1) m
  obtain ⟨htab, htree, hdesc⟩ := valueTable_spec h.tree hq ht hchild
  refine ⟨hone, hself, ⟨htree, ?_, h.freeList, h.free_lt, ?_⟩, htab, hdesc, fun l ↦ ?_,
    fun x hx ↦ ?_⟩
  · rw [tableFrames, htab]
    exact h.aligned
  · rw [tableFrames, htab]
    exact h.free_fresh
  · have hset := @leaf_set _ _ _ _ (pageEntry s.mem) _
      (pageEntry (s.writeEntry (kptr t) i e).mem) _ _ _ q l t i h.tree hq ht hchild ?_
    · rw [pageAt, hset, pageEntry, hself, if_pos he]
      rfl
    · intro w hw j hj
      rw [pageEntry, pageEntry, hone w hw j hj]
  · rw [writeEntry_mem htl]
    refine Memory.store64_apply_of_lt ?_
    have hne : x / 4096 * 4096 ≠ t := fun hx' ↦ hx (hx' ▸ htm)
    obtain ⟨m, rfl⟩ := hta
    omega

/-! ## The walk -/

/-- The table that entry `i` of the table at `q` leads to is hung in with all flags, and cleared but
for the entry `next`. -/
def NewTable (U : Fin 512 → Bool) (s : Machine) (r : Nat) (q : List (Fin 512)) (i next : Fin 512) :
    Prop :=
  ∃ u g, tableAt U s.mem r q = some u ∧ tableAt U s.mem r (q ++ [i]) = some g ∧
    entry s.mem u i = g ||| 7 ∧ ∀ j, j ≠ next → entry s.mem g j = 0

theorem NewTable.keep {q l : List (Fin 512)} {next : Fin 512} (h : NewTable U s r q i next)
    (hp : Paged U s r free) (hl : tableAt U s.mem r l = some t)
    (hone : OneEntry s s' (tableFrames U s.mem r) t j) (hq : q ≠ l)
    (hn : q ++ [i] = l → next = j)
    (hpath : ∀ p u, tableAt U s.mem r p = some u → tableAt U s'.mem r p = some u) :
    NewTable U s' r q i next := by
  obtain ⟨u, g, hu, hg, hui, hz⟩ := h
  refine ⟨u, g, hpath _ _ hu, hpath _ _ hg, ?_, fun k hk ↦ ?_⟩
  · rw [hone u (descend_mem hu) i fun he ↦ hq ?_, hui]
    obtain rfl : u = t := (Prod.mk.inj he).1
    exact hp.tree.descend_inj hu hl
  · rw [hone g (descend_mem hg) k fun he ↦ ?_, hz k hk]
    obtain ⟨rfl, rfl⟩ := Prod.mk.inj he
    exact hk (hn (hp.tree.descend_inj hg hl)).symm

/-- The walk of `map_v_p2` from `s` along `l` has arrived at `t`; `rest` is still to come. -/
structure Walked (U : Fin 512 → Bool) (r : Nat) (l rest : List (Fin 512)) (s : Machine)
    (free : List Nat) (s' : Machine) (free' : List Nat) (t : Nat) : Prop where
  paged : Paged U s' r free'
  cr3 : s'.cr3 = s.cr3
  taken : ∃ k, free = k ++ free' ∧ tableFrames U s'.mem r = tableFrames U s.mem r ∪ framesOf k
  pages : ∀ q, pageAt U s'.mem r q = pageAt U s.mem r q
  paths : ∀ p u, tableAt U s.mem r p = some u → tableAt U s'.mem r p = some u
  bytes : ∀ x, x / 4096 * 4096 ∉ tableFrames U s'.mem r → s'.mem x = s.mem x
  here : tableAt U s'.mem r l = some t
  old : tableAt U s.mem r l ≠ none → s' = s
  new : tableAt U s.mem r l = none → ∀ j, entry s'.mem t j = 0
  linked : ∀ q i next k, l ++ rest = q ++ i :: next :: k → q.length < l.length →
    tableAt U s.mem r (q ++ [i]) = none → NewTable U s' r q i next

theorem Walked.start (h : Paged U s r free) (rest : List (Fin 512)) :
    Walked U r [] rest s free s free r := by
  refine ⟨h, rfl, ⟨[], rfl, ?_⟩, fun _ ↦ rfl, fun _ _ hu ↦ hu, fun _ _ ↦ rfl, descend_nil,
    fun _ ↦ rfl, ?_, ?_⟩
  · simp [framesOf]
  · intro hn
    rw [tableAt, descend_nil] at hn
    cases hn
  · exact fun q _ _ _ _ hq ↦ absurd hq (Nat.not_lt_zero _)

theorem framesOf_append (k l : List Nat) : framesOf (k ++ l) = framesOf k ∪ framesOf l := by
  ext f
  simp only [framesOf, List.mem_append, Set.mem_ofPred_eq, Set.mem_union, or_and_right, exists_or]

theorem Walked.next {l rest : List (Fin 512)} {k t' : Nat} {free'' : List Nat}
    (h : Walked U r l (i :: rest) s free s' free' t) (hk : l.length + (k + 1) = 3)
    (hs : Stage U r k t i s' free' s'' free'' t')
    (ht' : tableAt U s''.mem r (l ++ [i]) = some t') :
    Walked U r (l ++ [i]) rest s free s'' free'' t' := by
  have hchild : tableAt U s'.mem r (l ++ [i]) = child U s'.mem k t i := by
    rw [tableAt, descend_append hk h.here, descend]
    simp
  have hsub : tableFrames U s'.mem r ⊆ tableFrames U s''.mem r := by
    obtain ⟨m, -, hm⟩ := hs.taken
    rw [hm]
    exact Set.subset_union_left
  -- a table that was missing at the start is missing now
  have hmiss : tableAt U s.mem r (l ++ [i]) = none → child U s'.mem k t i = none := by
    intro hn
    cases hl : tableAt U s.mem r l with
    | none =>
        exact child_of_zero (h.new hl i)
    | some u =>
        rw [← hchild, h.old (by simp [hl])]
        exact hn
  refine ⟨hs.paged, hs.cr3.trans h.cr3, ?_, fun q ↦ (hs.pages q).trans (h.pages q),
    fun p u hu ↦ hs.paths p u (h.paths p u hu), fun x hx ↦ ?_, ht', fun hn ↦ ?_,
    fun hn ↦ (hs.new (hmiss hn)).2, ?_⟩
  · obtain ⟨m, rfl, hm⟩ := h.taken
    obtain ⟨m', rfl, hm'⟩ := hs.taken
    refine ⟨m ++ m', by rw [List.append_assoc], ?_⟩
    rw [hm', hm, framesOf_append, Set.union_assoc]
  · exact (hs.bytes x hx).trans (h.bytes x fun hm ↦ hx (hsub hm))
  · have hl : tableAt U s.mem r l ≠ none := fun hl ↦ hn (descend_append_none hl)
    obtain ⟨c, hc⟩ := Option.ne_none_iff_exists'.mp hn
    rw [← h.old hl, hchild] at hc
    exact (hs.hit c hc).2.trans (h.old hl)
  · intro q i' nxt m heq hq hn
    rw [List.append_assoc] at heq
    by_cases hql : q.length < l.length
    · refine (h.linked q i' nxt m heq hql hn).keep h.paged h.here hs.keep ?_ ?_ hs.paths
      · rintro rfl
        exact Nat.lt_irrefl _ hql
      · rintro rfl
        rw [List.append_assoc, List.append_cancel_left_eq] at heq
        exact (List.cons.inj (List.cons.inj heq).2).1.symm
    · have hlen : l.length = q.length := by
        rw [List.length_append] at hq
        simp at hq
        omega
      obtain ⟨rfl, hrest⟩ := List.append_inj heq hlen
      obtain ⟨rfl, -⟩ := List.cons.inj hrest
      obtain ⟨hti, hz⟩ := hs.new (hmiss hn)
      exact ⟨t, t', hs.paths _ _ h.here, ht', hti, fun j _ ↦ hz j⟩

theorem Walked.step {l rest : List (Fin 512)} {k : Nat}
    (h : Walked U r l (i :: rest) s free s' free' t) (hk : l.length + (k + 1) = 3)
    (hU : k = 2 → U i) {q : List (Fin 512)}
    (hm : missing (child U s'.mem) (k + 1) t (i :: q) ≤ free'.length) :
    ∃ free'' t', (Machine.nextTable Machine.tableAlloc s' (kptr t) i).1 = kptr t' ∧
      Walked U r (l ++ [i]) rest s free (Machine.nextTable Machine.tableAlloc s' (kptr t) i).2
        free'' t' ∧
      missing (child U (Machine.nextTable Machine.tableAlloc s' (kptr t) i).2.mem) k t' q ≤
        free''.length := by
  obtain ⟨free'', t', hfst, hstage, ht', hm'⟩ := nextTable_spec h.paged h.here hk hU hm
  exact ⟨free'', t', hfst, h.next hk hstage ht', hm'⟩

/-! ## `map_v_p2` -/

/-- What `map_v_p2(v, p)` does to the tables under `r`, taking tables from the free list. -/
structure Mapped (U : Fin 512 → Bool) (r v p : Nat) (s : Machine) (free : List Nat) (s' : Machine)
    (free' : List Nat) : Prop where
  paged : Paged U s' r free'
  cr3 : s'.cr3 = s.cr3
  taken : ∃ k, free = k ++ free' ∧ tableFrames U s'.mem r = tableFrames U s.mem r ∪ framesOf k
  pages : ∀ q, pageAt U s'.mem r q = if q = pagePath v then some (p ||| 7) else pageAt U s.mem r q
  bytes : ∀ x, x / 4096 * 4096 ∉ tableFrames U s'.mem r → s'.mem x = s.mem x
  linked : ∀ q i next k, pagePath v = q ++ i :: next :: k →
    tableAt U s.mem r (q ++ [i]) = none → NewTable U s' r q i next

theorem mapVP2_eq (s : Machine) (v p : Nat) :
    s.mapVP2 v p =
      let a := Machine.nextTable Machine.tableAlloc s (kptr s.cr3) (getIndex v 39)
      let b := Machine.nextTable Machine.tableAlloc a.2 a.1 (getIndex v 30)
      let c := Machine.nextTable Machine.tableAlloc b.2 b.1 (getIndex v 21)
      c.2.writeEntry c.1 (getIndex v 12) (p ||| 7) := rfl

theorem mapVP2_spec (h : Paged U s s.cr3 free) (hU : U (getIndex v 39)) (hp : 4096 ∣ p)
    (hp' : p < 2 ^ 64)
    (hm : missing (child U s.mem) 3 s.cr3 (tablePath v) ≤ free.length) :
    ∃ free', Mapped U s.cr3 v p s free (s.mapVP2 v p) free' := by
  rw [mapVP2_eq]
  have h₀ := Walked.start h (pagePath v)
  obtain ⟨f₁, t₁, ht₁, h₁, hm₁⟩ := h₀.step (k := 2) rfl (fun _ ↦ hU) hm
  obtain ⟨f₂, t₂, ht₂, h₂, hm₂⟩ := h₁.step (k := 1) rfl (fun hk ↦ by cases hk) hm₁
  obtain ⟨f₃, t₃, ht₃, h₃, -⟩ := h₂.step (k := 0) rfl (fun hk ↦ by cases hk) hm₂
  simp only [ht₁, ht₂, ht₃]
  generalize (Machine.nextTable Machine.tableAlloc _ (kptr t₂) (getIndex v 21)).2 = s₃ at h₃ ⊢
  have hlt : p ||| 7 < 2 ^ 64 := by
    rw [or_low (n := 12) hp (by decide)]
    omega
  obtain ⟨hone, -, hw⟩ := writeEntry_page (i := getIndex v 12) h₃.paged rfl h₃.here
    (present_or hp) hlt
  -- what the walk has done, and then the write of the page's entry
  refine ⟨f₃, hw.paged, h₃.cr3, ?_, fun q ↦ ?_, fun x hx ↦ ?_, fun q i next k heq hn ↦ ?_⟩
  · rw [hw.frames]
    exact h₃.taken
  · rw [hw.pages, h₃.pages]
    rfl
  · rw [hw.frames] at hx
    exact (hw.bytes x hx).trans (h₃.bytes x hx)
  · have hq : q.length + k.length = 2 := by
      have := congrArg List.length heq
      simp [pagePath, tablePath] at this
      omega
    refine (h₃.linked q i next k heq ?_ hn).keep h₃.paged h₃.here hone ?_ ?_ fun p u hu ↦ ?_
    · simp only [List.length_append, List.length_cons, List.length_nil]
      omega
    · intro hl
      rw [hl] at hq
      simp only [List.length_append, List.length_cons, List.length_nil] at hq
      omega
    · intro hl
      rw [show pagePath v = (q ++ [i]) ++ [getIndex v 12] by rw [hl]; rfl, List.append_assoc,
        List.append_cancel_left_eq] at heq
      exact (List.cons.inj (List.cons.inj heq).2).1.symm
    · rw [hw.tables]
      exact hu

/-! ## Reading the tables back -/

/-- `physicalAddress` finds the present entry of an address, and only that. -/
theorem physicalAddress_iff (h : Paged U s s.cr3 free) (hU : U (getIndex v 39)) {e : Nat} :
    (s.physicalAddress v = some e ∧ Present e) ↔ pageAt U s.mem s.cr3 (pagePath v) = some e := by
  have hroot : tableAt U s.mem s.cr3 [] = some s.cr3 := descend_nil
  have hpath : pagePath v =
      [getIndex v 39, getIndex v 30, getIndex v 21, getIndex v 12] := rfl
  rw [Machine.physicalAddress, hpath, pageAt, leaf]
  simp only [readEntry_eq h (descend_mem hroot)]
  -- one level after the other; at a missing entry both sides stop
  by_cases h₁ : Present (entry s.mem s.cr3 (getIndex v 39))
  · have hc₁ := child_of_present (U := U) (k := 2) (fun _ ↦ hU) h₁
    have ht₁ := mem_tableFrames_child (k := 2) rfl hroot hc₁
    rw [if_neg h₁, hc₁, Option.bind_some, leaf]
    simp only [readEntry_eq h (descend_mem ht₁)]
    generalize frame (entry s.mem s.cr3 (getIndex v 39)) = t₁ at ht₁ ⊢
    by_cases h₂ : Present (entry s.mem t₁ (getIndex v 30))
    · have hc₂ := child_of_present (U := U) (k := 1) (fun hk ↦ by cases hk) h₂
      have ht₂ := mem_tableFrames_child (k := 1) rfl ht₁ hc₂
      rw [if_neg h₂, hc₂, Option.bind_some, leaf]
      simp only [readEntry_eq h (descend_mem ht₂)]
      generalize frame (entry s.mem t₁ (getIndex v 30)) = t₂ at ht₂ ⊢
      by_cases h₃ : Present (entry s.mem t₂ (getIndex v 21))
      · have hc₃ := child_of_present (U := U) (k := 0) (fun hk ↦ by cases hk) h₃
        have ht₃ := mem_tableFrames_child (k := 0) rfl ht₂ hc₃
        rw [if_neg h₃, hc₃, Option.bind_some, leaf, readEntry_eq h (descend_mem ht₃), pageEntry]
        split
        · rename_i h₄
          exact ⟨And.left, fun he ↦ ⟨he, Option.some.inj he ▸ h₄⟩⟩
        · rename_i h₄
          exact ⟨fun hb ↦ absurd (Option.some.inj hb.1 ▸ hb.2) h₄, fun he ↦ by cases he⟩
      · rw [if_pos (not_not.mp h₃), child_of_absent h₃, Option.bind_none]
        exact ⟨fun hb ↦ absurd (Option.some.inj hb.1 ▸ hb.2) not_present_zero,
          fun he ↦ by cases he⟩
    · rw [if_pos (not_not.mp h₂), child_of_absent h₂, Option.bind_none]
      exact ⟨fun he ↦ (by cases he.1), fun he ↦ by cases he⟩
  · rw [if_pos (not_not.mp h₁), child_of_absent h₁, Option.bind_none]
    exact ⟨fun he ↦ (by cases he.1), fun he ↦ by cases he⟩

theorem getIndex_eq_iff {v v' n : Nat} :
    getIndex v n = getIndex v' n ↔ v / 2 ^ n % 512 = v' / 2 ^ n % 512 := by
  rw [Fin.ext_iff, getIndex_val, getIndex_val]

/-- The four indices are the page number, in the 48 bits that are translated. -/
theorem pagePath_eq_iff {v v' : Nat} :
    pagePath v = pagePath v' ↔ v / 4096 % 2 ^ 36 = v' / 4096 % 2 ^ 36 := by
  have hd : ∀ x : Nat, x / 2 ^ 12 = x / 4096 ∧ x / 2 ^ 21 = x / 4096 / 512 ∧
      x / 2 ^ 30 = x / 4096 / 512 / 512 ∧ x / 2 ^ 39 = x / 4096 / 512 / 512 / 512 := by
    intro x
    omega
  obtain ⟨h₁, h₂, h₃, h₄⟩ := hd v
  obtain ⟨h₁', h₂', h₃', h₄'⟩ := hd v'
  simp only [pagePath, tablePath, List.cons_append, List.nil_append, List.cons.injEq, and_true,
    getIndex_eq_iff, h₁, h₂, h₃, h₄, h₁', h₂', h₃', h₄']
  generalize v / 4096 = x
  generalize v' / 4096 = y
  omega

/-! ## Read after write, and the frame -/

/-- A machine whose pages `a` to `last` are free. -/
def freeMachine (a last : Nat) : Machine where
  mem := fun _ ↦ 0
  cr3 := 0
  alloc :=
    { pageMap := fun n ↦ if n < a then 0 else if n < last then n + 1 else noPage, base := 0,
      firstFreepage := a, lastPage := last }

theorem freeMachine_freeList {a k : Nat} (hk : a + k < 2 ^ 52) :
    FreeList (freeMachine a (a + k)).alloc (List.range' a k) := by
  apply freeList_range' (a := a) rfl rfl
  · intro n ha hn
    show (if n < a then 0 else if n < a + k then n + 1 else noPage) = n + 1
    rw [if_neg (Nat.not_lt.mpr ha), if_pos hn]
  · show (if a + k < a then 0 else if a + k < a + k then a + k + 1 else noPage) = noPage
    rw [if_neg (by omega), if_neg (Nat.lt_irrefl _)]
  · intro n hn
    exact if_pos hn
  · exact hk

end Sbunix
