import Sbunix.Sys.ElfImage
import Sbunix.Sys.FaultVmas
import Sbunix.Sys.Malloc

/-!
# The heap of a program

A process that `loadElf` has set up accesses addresses of its heap; a fault has `pageFault` map the
page at the end of the heap's VMA.  The pages of the heap stay those of the VMA, fault by fault, as
long as no segment lies there.
-/

namespace Sbunix

open Reasoning Kernel

variable {k k' k₁ : Kernel} {s₀ : Machine} {w a v fuel errCode ehdr task : Nat}
  {free free' free₀ l : List Nat} {stack heap c mm : Nat} {f : Elf} {procs : Procs}
  {A : Nat → Option Nat} {e n : Nat}

/-! ## Accesses to the heap -/

/-- The addresses from `HEAP_START` to `HEAP_END`. -/
def HeapAddress (a : Nat) : Prop := heapStart ≤ a ∧ a < heapEnd

instance (a : Nat) : Decidable (HeapAddress a) := inferInstanceAs (Decidable (_ ∧ _))

/-- There are `n` free frames at least. -/
def FreeAtLeast (k : Kernel) (n : Nat) : Prop := ∃ free, FreeList k.alloc free ∧ n ≤ free.length

/-- An access to the heap: a write to a page that is mapped, or a fault for one that is not, which
`pageFault` has frames for. -/
inductive HeapAccess (fuel : Nat) (k : Kernel) : Kernel → Prop
  | write {a : Nat} {b : UInt8} {s : Machine} (ha : HeapAddress a) (h : k.writeByte a b = some s) :
      HeapAccess fuel k (k.onMachine s)
  | fault {a errCode : Nat} {k' : Kernel} (ha : HeapAddress a) (hmiss : k.translate a = none)
      (herr : errCode &&& pBit = 0) (hfree : FreeAtLeast k 4)
      (h : k.pageFault fuel errCode a = some (.resume k')) : HeapAccess fuel k k'

abbrev HeapRun (fuel : Nat) : Kernel → Kernel → Prop := Relation.ReflTransGen (HeapAccess fuel)

/-- The access to `a` is tried again, up to `n` times, until it does not fault any more. -/
def retry (fuel errCode a : Nat) : Nat → Kernel → Option Kernel
  | 0, k => some k
  | n + 1, k =>
      if (k.translate a).isSome then some k
      else
        (k.pageFault fuel errCode a).bind fun
          | .resume k => retry fuel errCode a n k
          | .halt _ => none

/-! ## What is claimed of the heap -/

/-- The VMAs of the current process end with those of its stack and its heap. -/
structure HasHeap (k : Kernel) (stack heap : Nat) : Prop where
  list : ∃ l, VmaList k (k.mms (k.procs.pcbs k.procs.current).mm).mmap (l ++ [stack, heap]) ∧
    ∀ a ∈ l, (k.vmas a).type ≠ .stack ∧ (k.vmas a).type ≠ .heap
  stack : (k.vmas stack).type = .stack
  heap : (k.vmas heap).type = .heap

/-- In every state of a run: the mapped pages of the heap are those of its VMA; a fault is resolved
and replaces no translation, and the VMA of the stack has no part in it; and an access goes through
after a fault for each page from the end of the VMA to its own. -/
structure HeapGrows (fuel : Nat) (k₁ : Kernel) (stack heap : Nat) : Prop where
  exact : ∀ k, HeapRun fuel k₁ k → ∀ a, HeapAddress a →
    (k.translate a ≠ none ↔ (k.vmas heap).start ≤ a ∧ a < (k.vmas heap).vmEnd)
  fault : ∀ k, HeapRun fuel k₁ k → ∀ a errCode, HeapAddress a → k.translate a = none →
    errCode &&& pBit = 0 → FreeAtLeast k 4 →
    ∃ k', k.pageFault fuel errCode a = some (.resume k') ∧
      (∀ v < 2 ^ 47, k.translate v ≠ none → k'.translate v = k.translate v) ∧
      ¬ stackFault (k.vmas stack) a ∧ k'.vmas stack = k.vmas stack
  access : ∀ k, HeapRun fuel k₁ k → ∀ a errCode n, HeapAddress a → errCode &&& pBit = 0 →
    n = a / 4096 + 1 - (k.vmas heap).vmEnd / 4096 → FreeAtLeast k (4 * n) →
    ∃ k', retry fuel errCode a n k = some k' ∧ k'.translate a ≠ none

/-- The heap grows as it should, when the loops of `pageFault` have fuel enough. -/
def HeapGrowth (k : Kernel) : Prop :=
  ∃ stack heap fuel₀, HasHeap k stack heap ∧ ∀ fuel, fuel₀ ≤ fuel → HeapGrows fuel k stack heap

/-! ## The search for the VMA -/

/-- VMAs of segments are passed over. -/
theorem faultVmas_segments {v m : Nat} (hl : Chain (fun a ↦ (k.vmas a).next) v l m)
    (hne : ∀ a ∈ l, a ≠ 0) (ht : ∀ a ∈ l, (k.vmas a).type ≠ .stack ∧ (k.vmas a).type ≠ .heap) :
    faultVmas a (fuel + l.length) v k = faultVmas a fuel m k := by
  induction l generalizing v with
  | nil =>
      obtain rfl : v = m := hl
      rfl
  | cons x l ih =>
      obtain ⟨rfl, hl⟩ := hl
      rw [List.forall_mem_cons] at hne ht
      rw [List.length_cons, ← Nat.add_assoc, faultVmas, if_neg hne.1]
      dsimp only
      rw [if_neg fun h ↦ ht.1.2 h.1, if_neg fun h : stackFault _ _ ↦ ht.1.1 h.1]
      exact ih hl hne.2 ht.2

/-- The unsigned differences of the stack's test are too big for any address of the heap. -/
theorem not_stackFault {vma : Vma} (ha : a < heapEnd) (he : vma.vmEnd = userStackTop) :
    ¬ stackFault vma a := by
  rintro ⟨-, -, -, h⟩
  rw [he] at h
  simp only [sub64, userStackTop, stackLimit, heapEnd] at h ha
  omega

/-- The VMAs of the current process end with those of its stack and its heap, which ends at page
`e`. -/
structure HeapVmas (k : Kernel) (l : List Nat) (stack heap e : Nat) : Prop where
  list : VmaList k (k.mms k.curMm).mmap (l ++ [stack, heap])
  segments : ∀ a ∈ l, (k.vmas a).type ≠ .stack ∧ (k.vmas a).type ≠ .heap
  stack : (k.vmas stack).type = .stack ∧ (k.vmas stack).vmEnd = userStackTop
  heap : (k.vmas heap).type = .heap ∧ (k.vmas heap).start = heapStart ∧
    (k.vmas heap).vmEnd = 4096 * e
  bound : e < 2 ^ 50

/-- The page that a fault on page `y` has mapped: the one at the end of the heap, or page `y` itself
when the heap reaches beyond it. -/
theorem heapPage_eq (he : e < 2 ^ 50) (hn : e - a / 4096 < n) :
    heapPage a n (4096 * e) = some (4096 * min (a / 4096) e) := by
  induction n generalizing e with
  | zero => exact absurd hn (Nat.not_lt_zero _)
  | succ n ih =>
      rw [heapPage]
      split
      · rename_i hlt
        rw [show sub64 (4096 * e) 4096 = 4096 * (e - 1) by rw [sub64]; omega,
          ih (by omega) (by omega)]
        exact congrArg some (by omega)
      · exact congrArg some (by omega)

/-- A fault on the heap maps a page and ends the heap's VMA behind it. -/
theorem HeapVmas.faultVmas (h : HeapVmas k l stack heap e) (ha : HeapAddress a)
    (hfuel : l.length + (e - a / 4096) + 3 ≤ fuel) :
    faultVmas a fuel (k.mms k.curMm).mmap k =
      some ((k.onMachine (k.mapNew (4096 * min (a / 4096) e))).setVmEnd heap
        (4096 * (min (a / 4096) e + 1)), true) := by
  obtain ⟨m, rfl⟩ := Nat.exists_eq_add_of_le' hfuel
  obtain ⟨x, hl, rfl, hnext, -⟩ := chain_append.mp h.list.chain
  have hne : ∀ y ∈ l, y ≠ 0 := fun y hy ↦ h.list.ne_zero y (List.mem_append_left _ hy)
  have hx : x ≠ 0 := h.list.ne_zero x (by simp)
  have hh : heap ≠ 0 := h.list.ne_zero heap (by simp)
  have hnext : (k.vmas x).next = heap := hnext
  have hskip : (k.vmas x).type ≠ .heap := by
    rw [h.stack.1]
    decide
  have hb := h.bound
  rw [show m + (l.length + (e - a / 4096) + 3) = (m + (e - a / 4096) + 1 + 1 + 1) + l.length by
    omega, faultVmas_segments hl hne h.segments, Kernel.faultVmas, if_neg hx]
  dsimp only
  rw [if_neg fun hc ↦ hskip hc.1, if_neg (not_stackFault ha.2 h.stack.2), hnext, Kernel.faultVmas,
    if_neg hh]
  dsimp only
  rw [if_pos ⟨h.heap.1, by rw [h.heap.2.1]; exact ha.1, ha.2.le⟩, h.heap.2.2,
    heapPage_eq hb (by omega), Option.map_some,
    show (4096 * min (a / 4096) e + 4096) % 2 ^ 64 = 4096 * (min (a / 4096) e + 1) by omega]
  rfl

/-- A fault on a page that is not present, when a VMA takes it. -/
theorem pageFault_found (herr : errCode &&& pBit = 0)
    (hmm : (k.procs.pcbs k.procs.current).mm ≠ 0)
    (hs : faultVmas a fuel (k.mms (k.procs.pcbs k.procs.current).mm).mmap k = some (k', true)) :
    k.pageFault fuel errCode a = some (.resume k') := by
  have hp : (errCode &&& 0xF) &&& pBit = 0 := by
    rw [Nat.and_assoc]
    exact herr
  unfold Kernel.pageFault
  dsimp only
  rw [if_neg fun hc ↦ hc.1 hp, if_neg hmm, hs]
  simp

/-! ## The invariant -/

theorem heapStart_page : heapStart / 4096 = 0x8000 := rfl

theorem heapEnd_page : heapEnd / 4096 = 0x10000 := rfl

theorem userStackTop_page : userStackTop / 4096 = 0x22222000 := rfl

/-- The heap's VMA has grown by `c` pages, which are the pages mapped beyond those of the program. -/
structure HeapState (w : Nat) (s₀ : Machine) (free₀ : List Nat) (phs : List Phdr) (procs : Procs)
    (l : List Nat) (stack heap : Nat) (k : Kernel) (c : Nat) (A : Nat → Option Nat)
    (free : List Nat) : Prop where
  machine : ∃ img, Loaded w s₀ free₀ A img k.toMachine free
  pages : ∀ y, A y ≠ none ↔ ProgramPage phs y ∨ heapStart / 4096 < y ∧ y ≤ heapStart / 4096 + c
  bound : c < 0x8000
  list : VmaList k (k.mms (procs.pcbs procs.current).mm).mmap (l ++ [stack, heap])
  segments : ∀ a ∈ l, (k.vmas a).type ≠ .stack ∧ (k.vmas a).type ≠ .heap
  stack : k.vmas stack = { stackVma with next := heap }
  heap : ∃ mm, k.vmas heap = { heapVma mm with vmEnd := heapStart + 4096 * (c + 1) }
  procs : k.procs = procs

section
variable {phs : List Phdr} (h : HeapState w s₀ free₀ phs procs l stack heap k c A free)
  (h₀ : Space w s₀ free₀) (hnew : ∀ v, HeapAddress v → s₀.walk v = none)
  (hseg : ∀ ph ∈ phs, ∀ x, ph.Covers x → ¬ (heapStart / 4096 < x ∧ x < heapEnd / 4096))

include h hseg in
theorem HeapState.page_iff (ha : HeapAddress a) :
    A (a / 4096) ≠ none ↔ a < heapStart + 4096 * (c + 1) := by
  obtain ⟨hlo, hhi⟩ := ha
  have hb := h.bound
  have hlo' : 0x8000 ≤ a / 4096 := by
    rw [← heapStart_page]
    exact Nat.div_le_div_right hlo
  have hhi' : a / 4096 < 0x10000 := Nat.div_lt_of_lt_mul hhi
  have hlt : a < heapStart + 4096 * (c + 1) ↔ a / 4096 < 0x8000 + (c + 1) := by
    rw [Nat.div_lt_iff_lt_mul (by decide), Nat.add_mul, Nat.mul_comm (c + 1)]
    rfl
  rw [h.pages, ProgramPage, hlt, heapStart_page, userStackTop_page]
  rw [heapStart_page, heapEnd_page] at hseg
  constructor
  · rintro ((⟨ph, hph, hc⟩ | hs | hh) | ⟨-, hc⟩)
    · have := hseg ph hph _ hc
      omega
    · omega
    · omega
    · omega
  · intro hlt
    by_cases hx : a / 4096 = 0x8000
    · exact .inl (.inr (.inr hx))
    · exact .inr ⟨by omega, by omega⟩

include h hnew hseg in
/-- The mapped pages of the heap are those of its VMA. -/
theorem HeapState.mapped (ha : HeapAddress a) :
    k.translate a ≠ none ↔ a < heapStart + 4096 * (c + 1) := by
  obtain ⟨img, hl⟩ := h.machine
  have hv : a < 2 ^ 47 := Nat.lt_trans ha.2 (by decide)
  rw [← h.page_iff hseg ha, translate_user hv, hl.walk hv, hnew a ha, Option.or_none, Ne,
    Option.map_eq_none_iff, Option.map_eq_none_iff]

include h in
/-- The search takes the page at the end of the heap. -/
theorem HeapState.faultVmas (ha : HeapAddress a) (hle : heapStart + 4096 * (c + 1) ≤ a)
    (hfuel : l.length + 4 ≤ fuel) :
    faultVmas a fuel (k.mms (procs.pcbs procs.current).mm).mmap k =
      some ((k.onMachine (k.mapNew (heapStart + 4096 * (c + 1)))).setVmEnd heap
        (heapStart + 4096 * (c + 2)), true) := by
  obtain ⟨mm, hheap⟩ := h.heap
  have hstart : heapStart = 4096 * 0x8000 := rfl
  have hend : heapStart + 4096 * (c + 1) = 4096 * (0x8000 + (c + 1)) := by
    rw [hstart, ← Nat.mul_add]
  have hend' : heapStart + 4096 * (c + 2) = 4096 * (0x8000 + (c + 1) + 1) := by
    rw [hstart, ← Nat.mul_add, Nat.add_assoc]
  have hb := h.bound
  have hv : HeapVmas k l stack heap (0x8000 + (c + 1)) := by
    refine ⟨?_, h.segments, ?_, ?_, by omega⟩
    · rw [Kernel.curMm, h.procs]
      exact h.list
    · rw [h.stack]
      exact ⟨rfl, rfl⟩
    · rw [hheap]
      exact ⟨rfl, rfl, hend⟩
  have hmin : min (a / 4096) (0x8000 + (c + 1)) = 0x8000 + (c + 1) := Nat.min_eq_right (by omega)
  have hsteps : l.length + (0x8000 + (c + 1) - a / 4096) + 3 ≤ fuel := by omega
  have hfault := hv.faultVmas ha hsteps
  rw [hmin, Kernel.curMm, h.procs] at hfault
  rw [hend, hend', hfault]

include h hnew hseg in
/-- A fault maps the page behind the heap. -/
theorem HeapState.fault (ha : HeapAddress a) (hmiss : k.translate a = none)
    (herr : errCode &&& pBit = 0) (hmm : (procs.pcbs procs.current).mm ≠ 0)
    (hlen : 4 ≤ free.length) (hfuel : l.length + 4 ≤ fuel) :
    ∃ k' A' free', k.pageFault fuel errCode a = some (.resume k') ∧
      free.length ≤ free'.length + 4 ∧
      HeapState w s₀ free₀ phs procs l stack heap k' (c + 1) A' free' ∧
      ∀ v < 2 ^ 47, k.translate v ≠ none → k'.translate v = k.translate v := by
  have hle : heapStart + 4096 * (c + 1) ≤ a := by
    by_contra hlt
    exact (h.mapped hnew hseg ha).mpr (Nat.lt_of_not_le hlt) hmiss
  have hb := h.bound
  have hp := h.procs
  obtain ⟨img, hl⟩ := h.machine
  have hend : (heapStart + 4096 * (c + 1)) / 4096 = heapStart / 4096 + (c + 1) :=
    Nat.add_mul_div_left _ _ (by decide)
  have hc : heapStart + 4096 * (c + 1) < 2 ^ 47 := by
    simp only [heapStart]
    omega
  have hc' : c + 1 < 0x8000 := by
    have := ha.2
    simp only [heapStart, heapEnd] at this hle
    omega
  obtain ⟨n, free', hlen', -, hl'⟩ := hl.mapNew hc hlen
  obtain ⟨mm, hheap⟩ := h.heap
  have hfound := h.faultVmas ha hle hfuel
  obtain ⟨k', hk', hm', he', hheap', hp'⟩ : ∃ k', (k.onMachine (k.mapNew (heapStart + 4096 *
      (c + 1)))).setVmEnd heap (heapStart + 4096 * (c + 2)) = k' ∧
      k'.toMachine = k.mapNew (heapStart + 4096 * (c + 1)) ∧ EndsOnly [heap] k k' ∧
      k'.vmas heap = { k.vmas heap with vmEnd := heapStart + 4096 * (c + 2) } ∧ k'.procs = k.procs :=
    ⟨_, rfl, rfl, .setVmEnd _ (List.mem_singleton_self heap), by simp [setVmEnd], rfl⟩
  rw [hk'] at hfound
  rw [← hp] at hfound hmm
  rw [← hm'] at hl'
  have hother : ∀ y, (k.vmas y).type ≠ .heap → k'.vmas y = k.vmas y := fun y hy ↦ by
    refine he'.other y fun hm ↦ hy ?_
    rw [List.mem_singleton.mp hm, hheap]
    rfl
  have hstack : (k.vmas stack).type ≠ .heap := by
    rw [h.stack]
    exact fun he ↦ by cases he
  refine ⟨k', _, free', pageFault_found herr hmm hfound, hlen', ⟨⟨_, hl'⟩, fun y ↦ ?_, hc', ?_,
    fun y hy ↦ ?_, ?_, ⟨mm, ?_⟩, hp'.trans hp⟩, fun v hv hv' ↦ ?_⟩
  · rw [update_ne_none, hend, h.pages]
    constructor
    · rintro (rfl | hy | hy)
      · exact .inr ⟨by omega, Nat.le_refl _⟩
      · exact .inl hy
      · exact .inr ⟨hy.1, by omega⟩
    · rintro (hy | hy)
      · exact .inr (.inl hy)
      · by_cases hlast : y = heapStart / 4096 + (c + 1)
        · exact .inl hlast
        · exact .inr (.inr ⟨hy.1, by omega⟩)
  · rw [he'.mms]
    exact h.list.congr fun y _ ↦ he'.next y
  · rw [hother y (h.segments y hy).2]
    exact h.segments y hy
  · rw [hother stack hstack]
    exact h.stack
  · rw [hheap', hheap]
  · rw [translate_user hv, translate_user hv, hl'.walk hv, hl.walk hv, Function.update_of_ne]
    -- the page behind the heap was not mapped
    intro hpage
    rw [hend, heapStart_page] at hpage
    have hva : HeapAddress v := by
      simp only [HeapAddress, heapStart, heapEnd]
      omega
    have hlt := (h.mapped hnew hseg hva).mp hv'
    simp only [heapStart] at hlt
    omega

include h h₀ hnew hseg in
theorem HeapState.write {b : UInt8} {s : Machine} (ha : HeapAddress a)
    (hw : k.writeByte a b = some s) :
    HeapState w s₀ free₀ phs procs l stack heap (k.onMachine s) c A free := by
  have hv : a < 2 ^ 47 := Nat.lt_trans ha.2 (by decide)
  obtain ⟨img, hl⟩ := h.machine
  have hmapped : k.translate a ≠ none := by
    rw [translate_user hv, Ne, Option.map_eq_none_iff]
    intro hn
    rw [Machine.writeByte, Machine.translateWrite, if_neg (user_lt_kernBase hv), hn] at hw
    cases hw
  obtain ⟨n, hn⟩ := Option.ne_none_iff_exists'.mp
    ((h.page_iff hseg ha).mpr ((h.mapped hnew hseg ha).mp hmapped))
  obtain ⟨s', hs', hl'⟩ := hl.writeByte h₀ hv hn b
  obtain rfl : s' = s := Option.some.inj (hs'.symm.trans hw)
  exact ⟨⟨_, hl'⟩, h.pages, h.bound, ⟨h.list.chain, h.list.ne_zero⟩, h.segments, h.stack, h.heap,
    h.procs⟩

theorem HeapState.enough (h : HeapState w s₀ free₀ phs procs l stack heap k c A free) {n : Nat}
    (hf : FreeAtLeast k n) : n ≤ free.length := by
  obtain ⟨img, hl⟩ := h.machine
  obtain ⟨free', hf', hlen⟩ := hf
  rwa [hf'.unique hl.space.ready.freeList] at hlen

variable (hmm : (procs.pcbs procs.current).mm ≠ 0) (hfuel : l.length + 4 ≤ fuel)

include h h₀ hnew hseg hmm hfuel in
theorem HeapState.step (hs : HeapAccess fuel k k') :
    ∃ c A free, HeapState w s₀ free₀ phs procs l stack heap k' c A free := by
  cases hs with
  | write ha hw => exact ⟨c, A, free, h.write h₀ hnew hseg ha hw⟩
  | fault ha hmiss herr hfree hk =>
      obtain ⟨k₂, A', free', hk₂, -, h', -⟩ :=
        h.fault hnew hseg ha hmiss herr hmm (h.enough hfree) hfuel
      obtain rfl : k₂ = k' := FaultResult.resume.inj (Option.some.inj (hk₂.symm.trans hk))
      exact ⟨c + 1, A', free', h'⟩

include h h₀ hnew hseg hmm hfuel in
theorem HeapState.run (hr : HeapRun fuel k k') :
    ∃ c A free, HeapState w s₀ free₀ phs procs l stack heap k' c A free := by
  induction hr with
  | refl => exact ⟨c, A, free, h⟩
  | tail _ hs ih =>
      obtain ⟨c, A, free, h⟩ := ih
      exact h.step h₀ hnew hseg hmm hfuel hs

include h hnew hseg hmm hfuel in
/-- An access goes through after a fault for each page between the heap and its address. -/
theorem HeapState.retry {n : Nat} (ha : HeapAddress a) (herr : errCode &&& pBit = 0)
    (hn : a < heapStart + 4096 * (c + 1 + n)) (hlen : 4 * n ≤ free.length) :
    ∃ k', retry fuel errCode a n k = some k' ∧ k'.translate a ≠ none := by
  induction n generalizing k c A free with
  | zero => exact ⟨k, rfl, (h.mapped hnew hseg ha).mpr hn⟩
  | succ n ih =>
      rw [Sbunix.retry]
      cases hmiss : k.translate a with
      | some p => exact ⟨k, rfl, by rw [hmiss]; exact Option.some_ne_none p⟩
      | none =>
          obtain ⟨k₂, A', free', hk₂, hlen', h', -⟩ :=
            h.fault hnew hseg ha hmiss herr hmm (by omega) hfuel
          rw [hk₂]
          exact ih h' (by rw [Nat.add_right_comm, Nat.add_assoc (c + 1)] ; exact hn) (by omega)

include h h₀ hnew hseg hmm hfuel in
theorem HeapState.heapGrows : HeapGrows fuel k stack heap where
  exact k₂ hr a ha := by
    obtain ⟨c, A, free, h⟩ := h.run h₀ hnew hseg hmm hfuel hr
    obtain ⟨mm, hheap⟩ := h.heap
    rw [h.mapped hnew hseg ha, hheap]
    exact (and_iff_right ha.1).symm
  fault k₂ hr a errCode ha hmiss herr hfree := by
    obtain ⟨c, A, free, h⟩ := h.run h₀ hnew hseg hmm hfuel hr
    obtain ⟨k', A', free', hk', -, h', hkeep⟩ :=
      h.fault hnew hseg ha hmiss herr hmm (h.enough hfree) hfuel
    refine ⟨k', hk', hkeep, not_stackFault ha.2 ?_, h'.stack.trans h.stack.symm⟩
    rw [h.stack]
    rfl
  access k₂ hr a errCode n ha herr hn hfree := by
    obtain ⟨c, A, free, h⟩ := h.run h₀ hnew hseg hmm hfuel hr
    obtain ⟨mm, hheap⟩ := h.heap
    have hend : (k₂.vmas heap).vmEnd / 4096 = heapStart / 4096 + (c + 1) := by
      rw [hheap]
      exact Nat.add_mul_div_left _ _ (by decide)
    refine h.retry hnew hseg hmm hfuel ha herr ?_ (h.enough hfree)
    rw [hend] at hn
    have := heapStart_page
    omega

end

/-! ## After `loadElf` -/

/-- The tables that `f` is loaded under map nothing of the heap. -/
def NoHeap (s : Machine) : Prop := ∀ v, HeapAddress v → s.walk v = none

/-- No segment has a page beyond the first of the heap's range. -/
def Elf.SparesHeap (f : Elf) : Prop :=
  ∀ ph ∈ f.phdrs, ∀ x, ph.Covers x → ¬ (heapStart / 4096 < x ∧ x < heapEnd / 4096)

theorem Program.hasHeap (h : Program w k free task ehdr f A k' free') (procs : Procs)
    (hmm : (procs.pcbs procs.current).mm = (k.procs.pcbs task).mm) :
    ∃ stack heap l, HasHeap { k' with procs := procs } stack heap ∧
      VmaList k' (k'.mms (k.procs.pcbs task).mm).mmap (l ++ [stack, heap]) ∧
      (∀ a ∈ l, (k'.vmas a).type ≠ .stack ∧ (k'.vmas a).type ≠ .heap) ∧
      k'.vmas stack = { stackVma with next := heap } ∧
      k'.vmas heap = heapVma (k.procs.pcbs task).mm := by
  obtain ⟨l, stack, heap, hl, ht, hst, hh⟩ := h.vmas
  have hv := hl.list.toVmaList
  refine ⟨stack, heap, l, ⟨⟨l, ?_, ht⟩, ?_, ?_⟩, hv, ht, hst, hh⟩
  · change VmaList _ (k'.mms (procs.pcbs procs.current).mm).mmap _
    rw [hmm]
    exact ⟨hv.chain, hv.ne_zero⟩
  · change (k'.vmas stack).type = .stack
    rw [hst]
    rfl
  · change (k'.vmas heap).type = .heap
    rw [hh]
    rfl

/-- The heap of a program whose segments spare it grows as it should. -/
theorem loadElf_heapGrowth {tarfs : Nat} {filename : CString}
    (h : Archived w k free tarfs fuel filename task ehdr f) (hnew : NoHeap k.toMachine)
    (hseg : f.SparesHeap) (hmm : (k.procs.pcbs task).mm ≠ 0) :
    ∃ k', k.loadElf tarfs fuel filename task = some k' ∧
      ∀ procs, (procs.pcbs procs.current).mm = (k.procs.pcbs task).mm →
        HeapGrowth { k' with procs := procs } := by
  obtain ⟨k', A, free', hk', hp⟩ := h.loadElf k.mem
  rw [refill_self] at hk' hp
  refine ⟨k', hk', fun procs hprocs ↦ ?_⟩
  obtain ⟨stack, heap, l, hh, hlist, ht, hst, hhp⟩ := hp.hasHeap procs hprocs
  have hstate : HeapState w k.toMachine free f.phdrs procs l stack heap
      { k' with procs := procs } 0 A free' := by
    refine ⟨⟨_, hp.machine⟩, fun y ↦ ?_, by decide, ?_, ht, hst, ⟨(k.procs.pcbs task).mm, hhp⟩, rfl⟩
    · rw [hp.pages, or_iff_left]
      omega
    · change VmaList _ (k'.mms (procs.pcbs procs.current).mm).mmap _
      rw [hprocs]
      exact ⟨hlist.chain, hlist.ne_zero⟩
  exact ⟨stack, heap, l.length + 4, hh, fun fuel hf ↦
    hstate.heapGrows h.space hnew hseg (by rw [hprocs]; exact hmm) hf⟩

theorem archiveKernel_walk (ph : Phdr) (hv : v < 2 ^ 47) :
    (archiveKernel ph).walk v = none := by
  have hu := (archiveKernel_space ph).2.2
  have hw : (archiveKernel ph).walk v =
      pageAt userEntries (archiveKernel ph).mem 0x1000 (pagePath v) :=
    (pageAt_restrict (user_index hv)).symm
  have hsame : SameOn (tableFrames userEntries (bootSpace 0 0).mem 0x1000) (bootSpace 0 0).mem
      (archiveKernel ph).mem := by
    intro x hx
    rw [show tableFrames userEntries (bootSpace 0 0).mem 0x1000 = {0x1000} from
      tables_leafless bootSpace_noUser, Set.mem_singleton_iff] at hx
    exact if_neg (show ¬ 0x40000 ≤ x by omega)
  rw [hw, pageAt_congr bootSpace_userTree.dvd hsame]
  change leaf _ _ 3 0x1000 (getIndex v 39 :: _) = none
  rw [leaf, bootSpace_noUser]
  rfl

theorem loadElf_heapGrowth_text :
    ∃ k', (archiveKernel ⟨1, 5, 120, 0x400000, 5, 5⟩).loadElf 0xffffffff80040000 20 (cstr "a")
      0xffffffff8000c000 = some k' ∧ ∀ procs : Procs, (procs.pcbs procs.current).mm =
        0xffffffff8000d000 → HeapGrowth { k' with procs := procs } := by
  refine loadElf_heapGrowth (w := 0x2000) (archiveKernel_archived _ rfl ⟨by decide, by decide, by
    decide⟩ (by decide) (by decide) fun g ↦ rfl) (fun v hv ↦ ?_) ?_ (by decide)
  · exact archiveKernel_walk _ (Nat.lt_trans hv.2 (by decide))
  · intro ph hph x hc
    rw [List.mem_singleton.mp hph] at hc
    have hlt : x < 0x400 + 1 := hc.2.2
    rw [heapStart_page]
    omega

/-- A segment at the second page of the heap is mapped there, outside the heap's VMA. -/
theorem loadElf_heapGrowth_segment :
    ∃ k', (archiveKernel ⟨1, 5, 120, 0x08001000, 5, 5⟩).loadElf 0xffffffff80040000 20 (cstr "a")
      0xffffffff8000c000 = some k' ∧ ¬ HeapGrowth k' := by
  have h := archiveKernel_archived ⟨1, 5, 120, 0x08001000, 5, 5⟩ rfl
    ⟨by decide, by decide, by decide⟩ (by decide) (by decide) fun g ↦ rfl
  obtain ⟨k', A, free', hk', hp⟩ := h.loadElf (archiveKernel ⟨1, 5, 120, 0x08001000, 5, 5⟩).mem
  rw [refill_self] at hk' hp
  refine ⟨k', hk', fun ⟨stack, heap, fuel, hh, hg⟩ ↦ ?_⟩
  have hmm : (k'.procs.pcbs k'.procs.current).mm = 0xffffffff8000d000 := by
    rw [hp.procs]
    rfl
  obtain ⟨stack', heap', l', -, hl', -, -, hheap'⟩ := hp.hasHeap k'.procs hmm
  obtain ⟨l, hl, -⟩ := hh.list
  rw [hmm] at hl
  obtain ⟨-, he⟩ := List.append_inj' (hl.unique hl') rfl
  obtain rfl : heap = heap' := (List.cons.inj (List.cons.inj he).2).1
  have hmapped : k'.translate 0x08001000 ≠ none := by
    obtain ⟨n, hn⟩ := Option.ne_none_iff_exists'.mp ((hp.pages 0x8001).mpr
      (.inl ⟨_, List.mem_singleton_self _, by decide⟩))
    rw [translate_user (by decide), hp.machine.walk (by decide),
      show 0x08001000 / 4096 = 0x8001 from rfl, hn]
    exact Option.some_ne_none _
  have hrange := ((hg fuel (Nat.le_refl _)).exact k' .refl 0x08001000 (by decide)).mp hmapped
  rw [hheap'] at hrange
  exact absurd hrange.2 (by decide)

end Sbunix
