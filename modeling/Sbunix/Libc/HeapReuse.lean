import Sbunix.Libc.HeapRun

/-!
# Blocks that are used again

The loop of `malloc` stops before the last record, wants more bytes than it was asked for and less
than 10000, and sets `min` to the size that it was asked for, so that the first block it takes is the
one it keeps.
-/

namespace Sbunix

open Reasoning Heap

/-- The arguments of the calls of `sb_malloc` that `malloc(size)` makes. -/
def Heap.sbMallocCalls (h : Heap) (fuel size : Nat) : Option (List Nat) :=
  if h.start = 0 then some [size, infoSize]
  else (scan h.mem size fuel h.start 10000 none).map fun
    | (_, some _) => []
    | (_, none) => [size, infoSize]

namespace Heap

variable {s s' : Heap} {mem : Memory} {base temp last add size fuel min p q : Nat} {ns l : List Nat}

/-- The end of the heap moves by the calls of `sb_malloc`. -/
theorem brk_malloc (h : s.malloc fuel size = some (add, s')) : ∃ calls,
    s.sbMallocCalls fuel size = some calls ∧
      s'.brk = calls.foldl (fun brk n ↦ (brk + intArg n) % 2 ^ 64) s.brk := by
  rw [malloc] at h
  rw [sbMallocCalls]
  by_cases hstart : s.start = 0
  · rw [if_pos hstart] at h ⊢
    obtain ⟨-, rfl⟩ := Prod.mk.inj (Option.some.inj h)
    exact ⟨_, rfl, rfl⟩
  · rw [if_neg hstart] at h ⊢
    obtain ⟨⟨temp, mintemp⟩, hscan, hr⟩ := Option.map_eq_some_iff.mp h
    rw [hscan]
    cases mintemp with
    | none =>
        obtain ⟨-, rfl⟩ := Prod.mk.inj hr
        exact ⟨_, rfl, rfl⟩
    | some mintemp =>
        obtain ⟨-, rfl⟩ := Prod.mk.inj hr
        exact ⟨_, rfl, rfl⟩

/-! ## The block that the loop finds -/

/-- What the loop takes at its first sight of a block. -/
def Takes (mem : Memory) (size p : Nat) : Prop :=
  allocAt mem p = 0 ∧ sizeAt mem p > size ∧ 10000 > sizeAt mem p

instance : Decidable (Takes mem size p) := inferInstanceAs (Decidable (_ ∧ _ ∧ _))

/-- With `min` not above the size asked for, nothing is taken any more. -/
theorem scan_kept (hmin : min ≤ size) (mintemp : Option Nat)
    (hc : Chain (nextAt mem) temp (l ++ [last]) 0) (hz : 0 ∉ l ++ [last])
    (hfuel : l.length < fuel) : scan mem size fuel temp min mintemp = some (last, mintemp) := by
  induction l generalizing temp fuel with
  | nil =>
      obtain ⟨fuel, rfl⟩ := Nat.exists_eq_add_of_le' (show 1 ≤ fuel by omega)
      obtain ⟨rfl, hnext⟩ := hc
      exact if_pos hnext
  | cons p l ih =>
      obtain ⟨fuel, rfl⟩ := Nat.exists_eq_add_of_le' (show 1 ≤ fuel by omega)
      obtain ⟨rfl, hc⟩ := hc
      have hz' : 0 ∉ l ++ [last] := fun hm ↦ hz (List.mem_cons_of_mem _ hm)
      rw [scan, if_neg (hc.start_ne (by simp) hz'), if_neg (by omega)]
      exact ih hc hz' (Nat.lt_of_succ_lt_succ hfuel)

/-- The loop finds the first record that it takes, which is not the last one. -/
theorem scan_first (size : Nat) (hc : Chain (nextAt mem) temp (l ++ [last]) 0) (hz : 0 ∉ l ++ [last])
    (hfuel : l.length < fuel) :
    (scan mem size fuel temp 10000 none = some (last, none) ∧ ∀ p ∈ l, ¬ Takes mem size p) ∨
      ∃ pre p post, l = pre ++ p :: post ∧
        scan mem size fuel temp 10000 none = some (last, some p) ∧ Takes mem size p ∧
        ∀ q ∈ pre, ¬ Takes mem size q := by
  induction l generalizing temp fuel with
  | nil =>
      obtain ⟨fuel, rfl⟩ := Nat.exists_eq_add_of_le' (show 1 ≤ fuel by omega)
      obtain ⟨rfl, hnext⟩ := hc
      exact .inl ⟨if_pos hnext, fun _ hp ↦ absurd hp List.not_mem_nil⟩
  | cons p l ih =>
      obtain ⟨fuel, rfl⟩ := Nat.exists_eq_add_of_le' (show 1 ≤ fuel by omega)
      obtain ⟨rfl, hc⟩ := hc
      have hz' : 0 ∉ l ++ [last] := fun hm ↦ hz (List.mem_cons_of_mem _ hm)
      rw [scan, if_neg (hc.start_ne (by simp) hz')]
      by_cases ht : allocAt mem temp = 0 ∧ sizeAt mem temp > size ∧ 10000 > sizeAt mem temp
      · -- from here on `min` is `size`, and nothing is above the one and below the other
        rw [if_pos ht, scan_kept (Nat.le_refl size) _ hc hz' (Nat.lt_of_succ_lt_succ hfuel)]
        exact .inr ⟨[], temp, l, rfl, rfl, ht, fun _ hq ↦ absurd hq List.not_mem_nil⟩
      · rw [if_neg ht]
        rcases ih hc hz' (Nat.lt_of_succ_lt_succ hfuel) with
          ⟨hs, hnone⟩ | ⟨pre, p, post, rfl, hs, hp, hpre⟩
        · exact .inl ⟨hs, List.forall_mem_cons.mpr ⟨ht, hnone⟩⟩
        · exact .inr ⟨temp :: pre, p, post, rfl, hs, hp, List.forall_mem_cons.mpr ⟨ht, hpre⟩⟩

/-! ## The smallest block that fits -/

/-- A freed block with room for `size` bytes. -/
def Fits (mem : Memory) (size p : Nat) : Prop := allocAt mem p = 0 ∧ size ≤ sizeAt mem p

/-- A smallest one of the freed blocks that fit. -/
structure Best (mem : Memory) (ns : List Nat) (size p : Nat) : Prop where
  listed : p ∈ ns
  fits : Fits mem size p
  least : ∀ q ∈ ns, Fits mem size q → sizeAt mem p ≤ sizeAt mem q

/-- `malloc(size)` hands out the smallest freed block that fits, and asks for more memory only when
none fits. -/
def ReusesBest (s : Heap) (fuel : Nat) (ns : List Nat) (size : Nat) : Prop :=
  ∃ add s' calls, s.malloc fuel size = some (add, s') ∧ s.sbMallocCalls fuel size = some calls ∧
    ((∃ p ∈ ns, Fits s.mem size p) →
      (∃ p, Best s.mem ns size p ∧ add = addressAt s.mem p) ∧ calls = []) ∧
    (calls ≠ [] → ∀ p ∈ ns, ¬ Fits s.mem size p)

/-- The first block that the loop takes, with others behind it, is a smallest one that fits. -/
def BestFirst (mem : Memory) (ns : List Nat) (size : Nat) : Prop :=
  ∃ pre p post, ns = pre ++ p :: post ∧ post ≠ [] ∧ Takes mem size p ∧
    (∀ q ∈ pre, ¬ Takes mem size q) ∧ Best mem ns size p

theorem Takes.fits (h : Takes mem size p) : Fits mem size p := ⟨h.1, h.2.1.le⟩

/-- The first one of a list is the same whichever way the list is taken apart. -/
theorem first_unique {pre post pre' post' : List Nat} (hsplit : pre ++ p :: post = pre' ++ q :: post')
    (hp : Takes mem size p) (hq : Takes mem size q) (hpre : ∀ x ∈ pre, ¬ Takes mem size x)
    (hpre' : ∀ x ∈ pre', ¬ Takes mem size x) : p = q := by
  have hfind (l l' : List Nat) {x : Nat} (hx : Takes mem size x)
      (hl : ∀ y ∈ l, ¬ Takes mem size y) :
      (l ++ x :: l').find? (fun y ↦ decide (Takes mem size y)) = some x := by
    rw [List.find?_eq_some_iff_append]
    exact ⟨decide_eq_true hx, l, l', rfl, fun y hy ↦ by simpa using hl y hy⟩
  have hsame := hfind pre post hp hpre
  rw [hsplit, hfind pre' post' hq hpre'] at hsame
  exact (Option.some.inj hsame).symm

theorem malloc_taken (hstart : s.start ≠ 0)
    (hscan : scan s.mem size fuel s.start 10000 none = some (last, some p)) :
    ∃ s', s.malloc fuel size = some (addressAt s.mem p, s') ∧ s.sbMallocCalls fuel size = some [] := by
  have hkeep : Keeps s.mem (setAlloc s.mem p 1) p := setAlloc_keeps
  refine ⟨{ s with mem := setAlloc s.mem p 1 }, ?_, ?_⟩
  · rw [malloc, if_neg hstart, hscan, Option.map_some]
    dsimp only
    rw [hkeep.2.1]
  · rw [sbMallocCalls, if_neg hstart, hscan]
    rfl

theorem malloc_extends (h : s.start = 0 ∨
      ∃ last, scan s.mem size fuel s.start 10000 none = some (last, none)) :
    ∃ add s', s.malloc fuel size = some (add, s') ∧
      s.sbMallocCalls fuel size = some [size, infoSize] := by
  by_cases hstart : s.start = 0
  · rw [malloc, if_pos hstart, sbMallocCalls, if_pos hstart]
    exact ⟨_, _, rfl, rfl⟩
  · obtain ⟨last, hscan⟩ := h.resolve_left hstart
    rw [malloc, if_neg hstart, sbMallocCalls, if_neg hstart, hscan]
    exact ⟨_, _, rfl, rfl⟩

/-- A call that asks for more memory is right when no block fits. -/
theorem reusesBest_extends (h : ∃ add s', s.malloc fuel size = some (add, s') ∧
      s.sbMallocCalls fuel size = some [size, infoSize]) :
    s.ReusesBest fuel ns size ↔ ∀ p ∈ ns, ¬ Fits s.mem size p := by
  obtain ⟨add, s', hmalloc, hcalls⟩ := h
  constructor
  · rintro ⟨_, _, calls, -, hcalls', -, hnone⟩
    obtain rfl := Option.some.inj (hcalls.symm.trans hcalls')
    exact hnone (List.cons_ne_nil _ _)
  · intro hnone
    refine ⟨add, s', _, hmalloc, hcalls, ?_, fun _ ↦ hnone⟩
    rintro ⟨p, hp, hfits⟩
    exact absurd hfits (hnone p hp)

theorem Listed.reusesBest_iff (h : Listed s base ns) (hfuel : ns.length < fuel) :
    s.ReusesBest fuel ns size ↔ (∀ p ∈ ns, ¬ Fits s.mem size p) ∨ BestFirst s.mem ns size := by
  rcases List.eq_nil_or_concat ns with rfl | ⟨l, last, rfl⟩
  · -- the heap is empty
    rw [reusesBest_extends (malloc_extends (.inl h.chain))]
    refine iff_of_true (fun p hp ↦ absurd hp List.not_mem_nil) (.inl fun p hp ↦ ?_)
    exact absurd hp List.not_mem_nil
  · rw [List.concat_eq_append] at *
    rw [List.length_append] at hfuel
    have hstart := h.start_ne_zero (List.append_ne_nil_of_right_ne_nil l (by simp))
    rcases scan_first size h.chain h.zero_notMem (Nat.lt_of_succ_lt hfuel) with
      ⟨hscan, hnone⟩ | ⟨pre, p, post, rfl, hscan, hp, hpre⟩
    · rw [reusesBest_extends (malloc_extends (.inr ⟨last, hscan⟩))]
      refine ⟨.inl, ?_⟩
      rintro (hfits | ⟨pre, p, post, hsplit, hpost, hp, -, -⟩)
      · exact hfits
      · -- the block that is taken is not the last one
        obtain ⟨post, z, rfl⟩ := (List.eq_nil_or_concat post).resolve_left hpost
        rw [List.concat_eq_append, ← List.cons_append, ← List.append_assoc] at hsplit
        have hl := (List.append_inj' hsplit rfl).1
        exact absurd hp (hnone p (hl ▸ List.mem_append_right pre List.mem_cons_self))
    · obtain ⟨s', hmalloc, hcalls⟩ := malloc_taken hstart hscan
      have hmem : p ∈ pre ++ p :: post ++ [last] :=
        List.mem_append_left _ (List.mem_append_right pre List.mem_cons_self)
      have hsplit : pre ++ p :: post ++ [last] = pre ++ p :: (post ++ [last]) := by simp
      constructor
      · rintro ⟨add, _, calls, hmalloc', -, hbest, -⟩
        obtain ⟨rfl, -⟩ := Prod.mk.inj (Option.some.inj (hmalloc.symm.trans hmalloc'))
        obtain ⟨⟨q, hq, hadd⟩, -⟩ := hbest ⟨p, hmem, hp.fits⟩
        obtain rfl := h.laid.address_inj hmem hq.listed hadd
        exact .inr ⟨pre, p, post ++ [last], hsplit, by simp, hp, hpre, hq⟩
      · rintro (hnone | ⟨pre', q, post', hsplit', -, hq, hpre', hbest⟩)
        · exact absurd hp.fits (hnone p hmem)
        · obtain rfl := first_unique (hsplit.symm.trans hsplit') hp hq hpre hpre'
          exact ⟨_, s', [], hmalloc, hcalls, fun _ ↦ ⟨⟨p, hbest, rfl⟩, rfl⟩, fun hne ↦ absurd rfl hne⟩

end Heap

/-- In every heap that calls of `malloc` and `free` lead to, `malloc` hands out the smallest freed
block that fits exactly when none fits or the first one that its loop takes is that block. -/
theorem malloc_reuse {heap : Heap} {requested : Nat → Nat} {fuel : Nat} {calls : List MallocCall}
    (hstart : heap.start = 0) (hbrk : 0 < heap.brk) (hsized : ∀ call ∈ calls, call.Sized)
    (hroom : heap.brk + (calls.map MallocCall.cost).sum < 2 ^ 64) (hfuel : calls.length < fuel)
    (s : Heap) (hs : s = (calls.foldl (MallocState.step fuel) ⟨heap, requested⟩).heap) :
    ∃ ns, MallocState.Records s ns ∧ ∀ size, (s.ReusesBest fuel ns size ↔
      (∀ p ∈ ns, ¬ Fits s.mem size p) ∨ BestFirst s.mem ns size) := by
  have hinit : MallocState.Inv ⟨heap, requested⟩ heap.brk [] := .init hstart hbrk
  obtain ⟨hstates, -⟩ := hinit.run (by rwa [List.length_nil, Nat.zero_add]) hsized hroom
  obtain ⟨ns, hinv, hlen⟩ := hstates calls [] (List.append_nil calls).symm
  subst hs
  exact ⟨ns, hinv.records, fun size ↦ hinv.listed.reusesBest_iff hlen⟩

/-- A heap with a freed block of 16 bytes and an allocated one of 100 behind it. -/
def freedHeap : Heap := (([.malloc 16, .malloc 100, .free 0x1000] : List MallocCall).foldl
  (MallocState.step 5) ⟨freshHeap, fun _ ↦ 0⟩).heap

theorem malloc_reuse_freed : ∃ ns, MallocState.Records freedHeap ns ∧
    ∀ size, (freedHeap.ReusesBest 5 ns size ↔
      (∀ p ∈ ns, ¬ Fits freedHeap.mem size p) ∨ BestFirst freedHeap.mem ns size) :=
  malloc_reuse rfl (by decide) (by decide) (by decide) (by decide) freedHeap rfl

/-- A request of just the size of the freed block is met with new memory. -/
theorem malloc_reuse_exact :
    MallocState.Records freedHeap [0x1010, 0x1094] ∧ ¬ freedHeap.ReusesBest 5 [0x1010, 0x1094] 16 := by
  have hrecords : MallocState.Records freedHeap [0x1010, 0x1094] :=
    ⟨⟨by decide, by decide, show nextAt freedHeap.mem 0x1094 = 0 by decide⟩, by decide⟩
  refine ⟨hrecords, ?_⟩
  have hscan : scan freedHeap.mem 16 5 freedHeap.start 10000 none = some (0x1094, none) := by decide
  rw [reusesBest_extends (malloc_extends (.inr ⟨_, hscan⟩))]
  exact fun hnone ↦ hnone 0x1010 List.mem_cons_self (show _ ∧ _ by decide)

end Sbunix
