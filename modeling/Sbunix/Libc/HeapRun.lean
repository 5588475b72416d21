import Sbunix.Reasoning.Runs
import Sbunix.Libc.HeapLayout

/-!
# Runs of `malloc` and `free`

Whatever addresses are freed, and however often, a block that is marked allocated shares no byte
with another one or with a record.
-/

namespace Sbunix

open Reasoning Heap

inductive MallocCall where
  | malloc (size : Nat)
  | free (add : Nat)

namespace MallocCall

/-- What a call takes from `sb_malloc` at most. -/
def cost : MallocCall → Nat
  | malloc size => size + infoSize
  | free _ => 0

/-- The size is an `int`. -/
def Sized : MallocCall → Prop
  | malloc size => size < 2 ^ 31
  | free _ => True

instance : (call : MallocCall) → Decidable call.Sized
  | malloc size => inferInstanceAs (Decidable (size < 2 ^ 31))
  | free _ => inferInstanceAs (Decidable True)

end MallocCall

/-- The heap, and for each address the size of the last request that got it. -/
structure MallocState where
  heap : Heap
  requested : Nat → Nat

namespace MallocState

def step (fuel : Nat) (s : MallocState) : MallocCall → MallocState
  | .malloc size =>
      match s.heap.malloc fuel size with
      | some (add, heap) => ⟨heap, Function.update s.requested add size⟩
      | none => s
  | .free add =>
      match s.heap.free fuel add with
      | some heap => { s with heap := heap }
      | none => s

/-- The records from `start` on are `ns`, and behind them is NULL. -/
def Records (s : Heap) (ns : List Nat) : Prop := Chain (nextAt s.mem) s.start ns 0 ∧ 0 ∉ ns

/-- The blocks that are marked allocated share no byte with each other and with the records, and are
as large as it was asked for. -/
structure Safe (s : MallocState) (ns : List Nat) : Prop where
  records : Records s.heap ns
  nodup : ns.Nodup
  blocks : ∀ p ∈ ns, ∀ q ∈ ns, p ≠ q → allocAt s.heap.mem p ≠ 0 → allocAt s.heap.mem q ≠ 0 →
    Apart (addressAt s.heap.mem p) (sizeAt s.heap.mem p) (addressAt s.heap.mem q)
      (sizeAt s.heap.mem q)
  apart : ∀ p ∈ ns, allocAt s.heap.mem p ≠ 0 → ∀ q ∈ ns,
    Apart (addressAt s.heap.mem p) (sizeAt s.heap.mem p) q infoSize
  large : ∀ p ∈ ns, allocAt s.heap.mem p ≠ 0 →
    s.requested (addressAt s.heap.mem p) ≤ sizeAt s.heap.mem p

/-- What a call does: `malloc` returns a block that was not allocated, and `free` writes to one block
and the flag of its record, if there is one at the address. -/
def Lawful (fuel : Nat) (s : MallocState) : MallocCall → Prop
  | .malloc size => ∃ add heap ns p, s.heap.malloc fuel size = some (add, heap) ∧ Records heap ns ∧
      p ∈ ns ∧ addressAt heap.mem p = add ∧ size ≤ sizeAt heap.mem p ∧ allocAt heap.mem p ≠ 0 ∧
      ∀ ns, Records s.heap ns → p ∈ ns → allocAt s.heap.mem p = 0
  | .free add => ∃ mem ns, s.heap.free fuel add = some { s.heap with mem := mem } ∧
      Records s.heap ns ∧
      ((mem = s.heap.mem ∧ ∀ p ∈ ns, addressAt s.heap.mem p ≠ add) ∨
        ∃ p ∈ ns, addressAt s.heap.mem p = add ∧ allocAt mem p = 0 ∧
          ∀ x, ¬ Touches s.heap.mem p x → mem x = s.heap.mem x)

variable {s : MallocState} {base fuel size add : Nat} {ns ns' : List Nat} {calls : List MallocCall}

/-- The invariant. -/
structure Inv (s : MallocState) (base : Nat) (ns : List Nat) : Prop where
  listed : Listed s.heap base ns
  large : ∀ p ∈ ns, allocAt s.heap.mem p ≠ 0 →
    s.requested (addressAt s.heap.mem p) ≤ sizeAt s.heap.mem p

theorem Records.unique {h : Heap} (hr : Records h ns) (hr' : Records h ns') : ns = ns' :=
  hr.1.unique hr'.1 hr.2 hr'.2

theorem Inv.records (h : Inv s base ns) : Records s.heap ns := ⟨h.listed.chain, h.listed.zero_notMem⟩

theorem Inv.safe (h : Inv s base ns) : Safe s ns where
  records := h.records
  nodup := h.listed.laid.nodup
  blocks p hp q hq hne _ _ := by
    have hp' := h.listed.laid.place hp
    have hq' := h.listed.laid.place hq
    have horder := h.listed.laid.order hp hq
    unfold Apart
    omega
  apart p hp _ q hq := by
    have hp' := h.listed.laid.place hp
    have hq' := h.listed.laid.place hq
    have horder := h.listed.laid.order hp hq
    unfold Apart
    omega
  large := h.large

theorem Inv.free (h : Inv s base ns) (hfuel : ns.length < fuel) :
    Inv (s.step fuel (.free add)) base ns ∧
      (s.step fuel (.free add)).heap.brk = s.heap.brk ∧ Lawful fuel s (.free add) := by
  rcases h.listed.free hfuel add with ⟨hcall, hnone⟩ | ⟨p, hp, mem, hadd, hcall, hflag, hout⟩
  · have hstep : s.step fuel (.free add) = s := by rw [step, hcall]
    rw [hstep]
    exact ⟨h, rfl, s.heap.mem, ns, hcall, h.records, .inl ⟨rfl, hnone⟩⟩
  · have hstep : s.step fuel (.free add) = { s with heap := { s.heap with mem := mem } } := by
      rw [step, hcall]
    have hkeep := fun q (hq : q ∈ ns) ↦ h.listed.laid.keeps hp hout hq
    rw [hstep]
    refine ⟨⟨h.listed.keep fun q hq ↦ (hkeep q hq).1, fun q hq hmark ↦ ?_⟩, rfl, mem, ns, hcall,
      h.records, .inr ⟨p, hp, hadd, hflag, hout⟩⟩
    obtain ⟨⟨hs, ha, -⟩, hal⟩ := hkeep q hq
    -- the record that is freed is not marked any more
    have hne : q ≠ p := by
      rintro rfl
      exact hmark hflag
    show s.requested (addressAt mem q) ≤ sizeAt mem q
    rw [hs, ha]
    exact h.large q hq (hal hne ▸ hmark)

/-- The flag of a record is set, and its address asked for again. -/
theorem Inv.reuse {p : Nat} (h : Inv s base ns) (hp : p ∈ ns) (hle : size ≤ sizeAt s.heap.mem p) :
    Inv ⟨{ s.heap with mem := setAlloc s.heap.mem p 1 },
      Function.update s.requested (addressAt s.heap.mem p) size⟩ base ns := by
  have hout : ∀ x, ¬ Touches s.heap.mem p x → setAlloc s.heap.mem p 1 x = s.heap.mem x := by
    intro x hx
    unfold Touches at hx
    exact setAlloc_apply (by omega)
  have hkeep := fun q (hq : q ∈ ns) ↦ h.listed.laid.keeps hp hout hq
  refine ⟨h.listed.keep fun q hq ↦ (hkeep q hq).1, fun q hq hmark ↦ ?_⟩
  obtain ⟨⟨hs, ha, -⟩, hal⟩ := hkeep q hq
  dsimp only at hmark ⊢
  rw [hs, ha]
  -- no other record has this address
  by_cases hne : q = p
  · rw [hne, Function.update_self]
    exact hle
  · have hmark' : allocAt s.heap.mem q ≠ 0 := by
      rw [← hal hne]
      exact hmark
    rw [Function.update_of_ne fun he ↦ hne (h.listed.laid.address_inj hq hp he)]
    exact h.large q hq hmark'

/-- A block is added whose size was asked for. -/
theorem Inv.extend {heap : Heap} {q : Nat} (h : Inv s base ns)
    (hlisted : Listed heap base (ns ++ [q]))
    (hadded : Added s.heap.mem heap.mem ns q size s.heap.brk) :
    Inv ⟨heap, Function.update s.requested s.heap.brk size⟩ base (ns ++ [q]) := by
  refine ⟨hlisted, fun p hp hmark ↦ ?_⟩
  dsimp only at hmark ⊢
  rcases List.mem_append.mp hp with hp' | hp'
  · obtain ⟨hs, ha, hal⟩ := hadded.old p hp'
    obtain ⟨-, hplace, hend⟩ := h.listed.laid.place hp'
    -- the old blocks lie below the old end of the heap
    have hne : addressAt s.heap.mem p ≠ s.heap.brk := by
      unfold infoSize at hend
      omega
    have hmark' : allocAt s.heap.mem p ≠ 0 := by
      rw [← hal]
      exact hmark
    rw [hs, ha, Function.update_of_ne hne]
    exact h.large p hp' hmark'
  · rw [List.mem_singleton.mp hp', hadded.address, hadded.size, Function.update_self]

theorem Inv.malloc (h : Inv s base ns) (hfuel : ns.length < fuel) (hsize : size < 2 ^ 31)
    (hroom : s.heap.brk + size + infoSize < 2 ^ 64) :
    ∃ ns', Inv (s.step fuel (.malloc size)) base ns' ∧ ns'.length ≤ ns.length + 1 ∧
      (s.step fuel (.malloc size)).heap.brk ≤ s.heap.brk + size + infoSize ∧
      Lawful fuel s (.malloc size) := by
  -- an old block is taken, or a new one is made at the break
  rcases h.listed.malloc hfuel hsize hroom with
    ⟨p, hp, hfree, hle, hcall⟩ | ⟨heap, hcall, hbrk, hlisted, hadded⟩
  · have hinv := h.reuse hp hle
    have hkeep : Keeps s.heap.mem (setAlloc s.heap.mem p 1) p := setAlloc_keeps
    have hmark : allocAt (setAlloc s.heap.mem p 1) p ≠ 0 := by
      rw [allocAt_setAlloc (by decide)]
      exact Nat.one_ne_zero
    have hlarge : size ≤ sizeAt (setAlloc s.heap.mem p 1) p := by
      rw [hkeep.1]
      exact hle
    rw [step, hcall]
    exact ⟨ns, hinv, Nat.le_succ _,
      Nat.le_trans (Nat.le_add_right _ size) (Nat.le_add_right _ infoSize), _, _, ns, p, hcall,
      hinv.records, hp, hkeep.2.1, hlarge, hmark, fun _ _ _ ↦ hfree⟩
  · have hinv := h.extend hlisted hadded
    have hmark : allocAt heap.mem (s.heap.brk + size) ≠ 0 := by
      rw [hadded.alloc]
      exact Nat.one_ne_zero
    rw [step, hcall]
    refine ⟨_, hinv, ?_, Nat.le_of_eq hbrk, _, heap, _, _, hcall, hinv.records,
      List.mem_append_right ns List.mem_cons_self, hadded.address, Nat.le_of_eq hadded.size.symm,
      hmark, fun ns' hr hp ↦ ?_⟩
    · rw [List.length_append]
      rfl
    · rw [hr.unique h.records] at hp
      have hend := (h.listed.laid.place hp).2.2
      unfold infoSize at hend
      omega

/-- One call, which takes no more than its cost from the heap and adds one record at most. -/
theorem Inv.step {call : MallocCall} (h : Inv s base ns) (hfuel : ns.length < fuel)
    (hsized : call.Sized) (hroom : s.heap.brk + call.cost < 2 ^ 64) :
    ∃ ns', Inv (s.step fuel call) base ns' ∧ ns'.length ≤ ns.length + 1 ∧
      (s.step fuel call).heap.brk ≤ s.heap.brk + call.cost ∧ Lawful fuel s call := by
  cases call with
  | malloc size =>
      have hcost : (MallocCall.malloc size).cost = size + infoSize := rfl
      exact h.malloc hfuel hsized (by omega)
  | free add =>
      obtain ⟨hinv, hbrk, hlaw⟩ := h.free hfuel
      exact ⟨ns, hinv, Nat.le_succ _, Nat.le_of_eq hbrk, hlaw⟩

/-- A run from a state in the invariant, as long as the heap has room. -/
theorem Inv.run (h : Inv s base ns) (hfuel : ns.length + calls.length < fuel)
    (hsized : ∀ call ∈ calls, call.Sized)
    (hroom : s.heap.brk + (calls.map MallocCall.cost).sum < 2 ^ 64) :
    AllStates (MallocState.step fuel) (fun s ↦ ∃ ns, Inv s base ns ∧ ns.length < fuel) s calls ∧
      AllSteps (MallocState.step fuel) (Lawful fuel) s calls := by
  -- each call needs fuel for one record more than the call before
  induction calls generalizing s ns with
  | nil => exact ⟨allStates_nil.mpr ⟨ns, h, hfuel⟩, allSteps_nil⟩
  | cons call calls ih =>
      rw [List.map_cons, List.sum_cons] at hroom
      rw [List.length_cons] at hfuel
      obtain ⟨ns', hinv, hlen, hbrk, hlaw⟩ := h.step (show ns.length < fuel by omega)
        (hsized call List.mem_cons_self) (by omega)
      obtain ⟨hstates, hsteps⟩ := ih hinv (by omega)
        (fun c hc ↦ hsized c (List.mem_cons_of_mem call hc)) (by omega)
      exact ⟨allStates_cons.mpr ⟨⟨ns, h, by omega⟩, hstates⟩, allSteps_cons.mpr ⟨hlaw, hsteps⟩⟩

theorem Inv.init {heap : Heap} {requested : Nat → Nat} (hstart : heap.start = 0)
    (hbrk : 0 < heap.brk) : Inv ⟨heap, requested⟩ heap.brk [] :=
  ⟨⟨hbrk, hstart, rfl⟩, fun _ hp ↦ absurd hp List.not_mem_nil⟩

end MallocState

/-- In every run of `malloc` and `free` that the heap has room for, the allocated blocks are safe, and
`free` writes to the block that it frees and to the flag of its record only. -/
theorem heap_run {heap : Heap} {requested : Nat → Nat} {fuel : Nat} {calls : List MallocCall}
    (hstart : heap.start = 0) (hbrk : 0 < heap.brk) (hsized : ∀ call ∈ calls, call.Sized)
    (hroom : heap.brk + (calls.map MallocCall.cost).sum < 2 ^ 64) (hfuel : calls.length < fuel) :
    AllStates (MallocState.step fuel) (fun s ↦ ∃ ns, MallocState.Safe s ns) ⟨heap, requested⟩ calls ∧
      AllSteps (MallocState.step fuel) (MallocState.Lawful fuel) ⟨heap, requested⟩ calls := by
  obtain ⟨hstates, hsteps⟩ := (MallocState.Inv.init hstart hbrk).run
    (by rwa [List.length_nil, Nat.zero_add]) hsized hroom
  refine ⟨fun pre post hsplit ↦ ?_, hsteps⟩
  obtain ⟨ns, hinv, -⟩ := hstates pre post hsplit
  exact ⟨ns, hinv.safe⟩

/-- A heap that was not used yet. -/
def freshHeap : Heap := ⟨fun _ ↦ 0, 0, 0x1000⟩

theorem heap_run_reuse :
    AllStates (MallocState.step 5) (fun s ↦ ∃ ns, MallocState.Safe s ns) ⟨freshHeap, fun _ ↦ 0⟩
        [.malloc 16, .malloc 100, .free 0x1000, .malloc 8] ∧
      AllSteps (MallocState.step 5) (MallocState.Lawful 5) ⟨freshHeap, fun _ ↦ 0⟩
        [.malloc 16, .malloc 100, .free 0x1000, .malloc 8] :=
  heap_run rfl (by decide) (by decide) (by decide) (by decide)

/-- `free` writes behind the block that it frees, to the flag of the record. -/
theorem heap_free_flag : ∃ heap heap', freshHeap.malloc 2 16 = some (0x1000, heap) ∧
    heap.free 2 0x1000 = some heap' ∧
    ∃ x, ¬ (0x1000 ≤ x ∧ x < 0x1000 + 16) ∧ heap'.mem x ≠ heap.mem x :=
  ⟨_, _, rfl, rfl, 0x1020, by decide, by decide⟩

end Sbunix
