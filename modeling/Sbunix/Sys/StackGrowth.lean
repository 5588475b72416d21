import Sbunix.Sys.HeapGrowth

/-!
# The stack of a program

The stack branch of `pageFault` tests `fault_addr - end - PAGE_SIZE`, with the subtraction the wrong
way round: below the end of the VMA the difference wraps, and the branch is never taken.
-/

namespace Sbunix

open Reasoning Kernel

variable {k k' : Kernel} {v a x fuel errCode n : Nat}

/-- A fault on a page that is not present, below the end of the STACK VMA at `v`, which may still
grow over it. -/
structure BelowStack (k : Kernel) (v a errCode : Nat) : Prop where
  listed : ∃ l, VmaList k (k.mms (k.procs.pcbs k.procs.current).mm).mmap l ∧ v ∈ l
  type : (k.vmas v).type = .stack
  range : (k.vmas v).vmEnd ≤ (k.vmas v).start ∧ (k.vmas v).start < 2 ^ 64
  size : (k.vmas v).start - (k.vmas v).vmEnd ≤ stackLimit
  below : a < (k.vmas v).vmEnd
  near : (k.vmas v).vmEnd - a ≤ stackLimit - ((k.vmas v).start - (k.vmas v).vmEnd)
  absent : k.translate a = none
  notPresent : errCode &&& pBit = 0

/-- Some number of faults at `a` maps its page and moves the end of the VMA below it, and the pages of
the stack that were mapped keep their translations. -/
def StackGrows (k : Kernel) (v a errCode : Nat) : Prop :=
  ∃ fuel n k', retry fuel errCode a n k = some k' ∧ k'.translate a ≠ none ∧
    (k'.vmas v).vmEnd ≤ frame a ∧
    ∀ x, (k.vmas v).vmEnd ≤ x → x < (k.vmas v).start → k.translate x ≠ none →
      k'.translate x = k.translate x

/-- The stack branch is for addresses almost 2^64 below the end of the VMA. -/
theorem stackFault_far {vma : Vma} (h : stackFault vma a) :
    2 ^ 64 ≤ vma.vmEnd - a + 4096 + stackLimit := by
  obtain ⟨-, hle, -, hfar⟩ := h
  simp only [sub64, stackLimit] at hfar ⊢
  omega

theorem BelowStack.not_stackFault (h : BelowStack k v a errCode) : ¬ stackFault (k.vmas v) a := by
  intro hs
  have hfar := stackFault_far hs
  have hrange := h.range
  have hnear := h.near
  simp only [stackLimit] at hfar hnear
  omega

/-! ## Faults that leave the stack as it is -/

/-- The search changes the VMA that takes the fault, and no other. -/
theorem faultVmas_stack {found : Bool} (ht : (k.vmas v).type = .stack)
    (hn : ¬ stackFault (k.vmas v) a) (h : faultVmas a fuel x k = some (k', found)) :
    k'.vmas v = k.vmas v := by
  induction fuel generalizing x with
  | zero => cases h
  | succ fuel ih =>
      rw [faultVmas] at h
      dsimp only at h
      split at h
      · obtain ⟨rfl, -⟩ := Prod.mk.inj (Option.some.inj h)
        rfl
      · split at h
        · -- the heap takes the fault
          rename_i hheap
          obtain ⟨vmEnd, -, he⟩ := Option.map_eq_some_iff.mp h
          obtain ⟨rfl, -⟩ := Prod.mk.inj he
          have hvx : v ≠ x := by
            rintro rfl
            exact absurd (ht.symm.trans hheap.1) (by decide)
          exact Function.update_of_ne hvx _ _
        · split at h
          · -- the stack that takes it is another one
            rename_i hstack
            obtain ⟨rfl, -⟩ := Prod.mk.inj (Option.some.inj h)
            have hvx : v ≠ x := by
              rintro rfl
              exact hn hstack
            exact Function.update_of_ne hvx _ _
          · exact ih h

theorem pageFault_stack (ht : (k.vmas v).type = .stack) (hn : ¬ stackFault (k.vmas v) a)
    (h : k.pageFault fuel errCode a = some (.resume k')) : k'.vmas v = k.vmas v := by
  rcases pageFault_cases h with ⟨s, hr⟩ | ⟨k₁, found, hk₁, hr⟩
  · obtain rfl := FaultResult.resume.inj hr
    rfl
  · rcases hr with hr | hr
    · obtain rfl := FaultResult.resume.inj hr
      exact faultVmas_stack ht hn hk₁
    · cases hr

/-- However often the access is tried again. -/
theorem retry_stack (ht : (k.vmas v).type = .stack) (hn : ¬ stackFault (k.vmas v) a)
    (h : retry fuel errCode a n k = some k') : k'.vmas v = k.vmas v := by
  induction n generalizing k with
  | zero =>
      obtain rfl := Option.some.inj h
      rfl
  | succ n ih =>
      rw [retry] at h
      split at h
      · obtain rfl := Option.some.inj h
        rfl
      · obtain ⟨r, hr, h⟩ := Option.bind_eq_some_iff.mp h
        cases r with
        | resume k₁ =>
            have hv := pageFault_stack ht hn hr
            rw [← hv] at ht hn
            exact (ih ht hn h).trans hv
        | halt k₁ => cases h

theorem BelowStack.not_grows (h : BelowStack k v a errCode) : ¬ StackGrows k v a errCode := by
  rintro ⟨fuel, n, k', hk', -, hend, -⟩
  rw [retry_stack h.type h.not_stackFault hk'] at hend
  have hframe : frame a ≤ a := Nat.and_le_left
  have hbelow := h.below
  omega

/-- No fault below the end of a STACK VMA makes it grow: any number of them leaves the VMA as it was,
with its end above the address. -/
theorem stackGrows_never (h : BelowStack k v a errCode) : ¬ StackGrows k v a errCode ∧
    ∀ fuel n k', retry fuel errCode a n k = some k' → k'.vmas v = k.vmas v :=
  ⟨h.not_grows, fun _ _ _ hk' ↦ retry_stack h.type h.not_stackFault hk'⟩

/-! A program that has used the first page of its stack up. -/

theorem bootKernel_belowStack :
    BelowStack (bootKernel 0 0 0xffffffff8000e000) 0xffffffff8000e000 (userStackTop - 8) 4 where
  listed := ⟨[0xffffffff8000e000, 0xffffffff8000f000], ⟨⟨rfl, rfl, rfl⟩, by simp⟩, by simp⟩
  type := rfl
  range := by decide
  size := by decide
  below := by decide
  near := by decide
  absent := by decide +kernel
  notPresent := by decide

theorem stackGrows_never_boot :
    ¬ StackGrows (bootKernel 0 0 0xffffffff8000e000) 0xffffffff8000e000 (userStackTop - 8) 4 :=
  (stackGrows_never bootKernel_belowStack).1

/-- The next push is a segmentation fault. -/
theorem stackGrows_push : (bootKernel 0 0 0xffffffff8000e000).pageFault 3 4 (userStackTop - 8) =
      some (.halt (bootKernel 0 0 0xffffffff8000e000)) ∧
    ¬ StackGrows (bootKernel 0 0 0xffffffff8000e000) 0xffffffff8000e000 (userStackTop - 8) 4 :=
  ⟨rfl, bootKernel_belowStack.not_grows⟩

end Sbunix
