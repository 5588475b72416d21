import Sbunix.Sys.KernelCode
import Sbunix.Sys.StackGrowth

/-!
# Where the STACK VMAs end

Fork copies the VMAs, a fault moves the end of one, and the loader makes new ones.  No STACK VMA comes
to end outside the user's half, so no fault is ever taken by the stack branch of `pageFault`.
-/

namespace Sbunix

open Reasoning Kernel KernelM

variable {k k' : Kernel} {vma : Vma} {a v x mm fuel ehdr task : Nat}

/-- The STACK VMAs end in the user's half. -/
def StackEnds (k : Kernel) : Prop := ∀ v, (k.vmas v).type = .stack → (k.vmas v).vmEnd < 2 ^ 47

theorem StackEnds.congr (h : StackEnds k) (hv : k'.vmas = k.vmas) : StackEnds k' := by
  intro v
  rw [hv]
  exact h v

theorem StackEnds.not_stackFault (h : StackEnds k) : ¬ stackFault (k.vmas v) a := by
  intro hs
  have hfar := stackFault_far hs
  have hend := h v hs.1
  simp only [stackLimit] at hfar
  omega

theorem StackEnds.setVma (h : StackEnds k) (a : Nat) (hvma : vma.type = .stack → vma.vmEnd < 2 ^ 47) :
    StackEnds (k.setVma a vma) := by
  intro v
  change (Function.update k.vmas a vma v).type = _ → (Function.update k.vmas a vma v).vmEnd < _
  by_cases hv : v = a
  · rw [hv, Function.update_self]
    exact hvma
  · rw [Function.update_of_ne hv]
    exact h v

/-! ## Page faults -/

theorem StackEnds.faultVmas {found : Bool} (h : StackEnds k)
    (hf : faultVmas a fuel x k = some (k', found)) : StackEnds k' := by
  induction fuel generalizing x with
  | zero => cases hf
  | succ fuel ih =>
      rw [Kernel.faultVmas] at hf
      dsimp only at hf
      split at hf
      · obtain ⟨rfl, -⟩ := Prod.mk.inj (Option.some.inj hf)
        exact h
      · split at hf
        · rename_i hheap
          obtain ⟨vmEnd, -, he⟩ := Option.map_eq_some_iff.mp hf
          obtain ⟨rfl, -⟩ := Prod.mk.inj he
          refine StackEnds.setVma (h.congr rfl) x fun ht ↦ ?_
          exact absurd (hheap.1.symm.trans ht) (by decide)
        · split at hf
          · rename_i hstack
            exact absurd hstack h.not_stackFault
          · exact ih hf

theorem StackEnds.pageFault {errCode : Nat} (h : StackEnds k)
    (hf : k.pageFault fuel errCode a = some (.resume k')) : StackEnds k' := by
  rcases pageFault_cases hf with ⟨s, hr⟩ | ⟨k₁, found, hk₁, hr⟩
  · obtain rfl := FaultResult.resume.inj hr
    exact h.congr rfl
  · rcases hr with hr | hr
    · obtain rfl := FaultResult.resume.inj hr
      exact h.faultVmas hk₁
    · cases hr

/-! ## Fork -/

theorem StackEnds.forkFile (h : StackEnds k) (p c : Nat) : StackEnds (k.forkFile p c) := by
  unfold Kernel.forkFile
  split
  · have hpage : StackEnds (k.onMachine k.kmalloc.2) := h.congr rfl
    have hv : StackEnds ((k.onMachine k.kmalloc.2).setVma c { k.vmas c with file := k.kmalloc.1 }) :=
      hpage.setVma c (h c)
    exact hv.congr rfl
  · exact h

theorem StackEnds.forkVma (h : StackEnds k) (mm p c : Nat) (flag : Bool) :
    StackEnds (k.forkVma mm p c flag).2 := by
  have hnode : (k.forkNode mm c flag).2.vmas = k.vmas := by
    unfold Kernel.forkNode
    dsimp only
    generalize (if c = 0 then true else flag) = b
    cases b
    · rfl
    · rfl
  unfold Kernel.forkVma
  generalize k.forkNode mm c flag = node at hnode ⊢
  exact ((h.congr hnode).setVma node.1 ((h.congr hnode) p)).forkFile p node.1

theorem StackEnds.forkSyscall {regs : ForkRegs} (h : StackEnds k)
    (hf : k.forkSyscall fuel regs = some k') : StackEnds k' := by
  unfold Kernel.forkSyscall at hf
  dsimp only at hf
  obtain ⟨⟨c, k₁⟩, h₁, h₂⟩ := Option.bind_eq_some_iff.mp hf
  have hcopies : StackEnds k₁ :=
    forkVmas_induction (R := fun _ k k' ↦ StackEnds k → StackEnds k') (fun _ _ ↦ id)
      (fun _ k _ p c hrest hk ↦ hrest (hk.forkVma _ p c false)) h₁ (h.congr rfl)
  dsimp only at h₂
  obtain ⟨k₂, -, -, -, -, hv, he⟩ := forkStack_eq (k := k₁) k.forkSpace.1 k.forkSpace.2.1
    k.forkSpace.2.2.1 c regs
  rw [he] at h₂
  obtain ⟨s, -, rfl⟩ := Option.map_eq_some_iff.mp h₂
  refine StackEnds.congr (k := k₂) ?_ rfl
  split at hv
  · refine StackEnds.congr (hcopies.setVma c ?_) hv
    exact hcopies c
  · exact hcopies.congr hv

/-! ## The loader -/

theorem StackEnds.linkCurrent (h : StackEnds k) (mm vma : Nat) : StackEnds (k.linkCurrent mm vma) :=
  h.setVma _ (h _)

theorem StackEnds.setCurrent (h : StackEnds k) (mm vma : Nat) : StackEnds (k.setCurrent mm vma) :=
  h.congr rfl

theorem StackEnds.segmentVma (h : StackEnds k) (mm v : Nat) (ph : Phdr) :
    StackEnds (k.segmentVma mm v ph) := by
  unfold Kernel.segmentVma
  dsimp only
  have hnew : StackEnds (k.setVma v { start := ph.vaddr, vmEnd := ph.vmEnd, flag := ph.flags }) :=
    h.setVma v fun ht ↦ by cases ht
  generalize k.setVma v { start := ph.vaddr, vmEnd := ph.vmEnd, flag := ph.flags } = k₁ at hnew
  split
  · refine StackEnds.setCurrent (StackEnds.setVma (hnew.congr rfl) v ?_) mm v
    exact hnew v
  · have hlink := hnew.linkCurrent mm v
    refine StackEnds.setCurrent (hlink.setVma v ?_) mm v
    exact hlink v

theorem StackEnds.loadSegment {ph : Phdr} (h : StackEnds k)
    (hl : k.loadSegment ehdr mm ph = some k') : StackEnds k' := by
  unfold Kernel.loadSegment at hl
  split at hl
  · dsimp only at hl
    obtain ⟨k₁, hk₁, rfl⟩ := Option.map_eq_some_iff.mp hl
    have hpage : StackEnds (k.onMachine k.kmalloc.2) := h.congr rfl
    have hvma := hpage.segmentVma mm k.kmalloc.1 ph
    generalize (k.onMachine k.kmalloc.2).segmentVma mm k.kmalloc.1 ph = k₂ at hk₁ hvma
    have hcopy : StackEnds k₁ := by
      unfold Kernel.copySegment at hk₁
      split at hk₁
      · obtain ⟨s, -, rfl⟩ := Option.map_eq_some_iff.mp hk₁
        exact hvma.congr rfl
      · obtain rfl := Option.some.inj hk₁
        exact hvma.congr rfl
    -- a segment has one of the other types
    refine StackEnds.setVma (hcopy.congr rfl) _ fun ht ↦ ?_
    dsimp only at ht
    split_ifs at ht
  · obtain rfl := Option.some.inj hl
    exact h

theorem StackEnds.loadSegments {n phdr : Nat} (h : StackEnds k)
    (hl : loadSegments ehdr mm n phdr k = some k') : StackEnds k' := by
  induction n generalizing phdr k with
  | zero =>
      obtain rfl := Option.some.inj hl
      exact h
  | succ n ih =>
      rw [Kernel.loadSegments] at hl
      obtain ⟨ph, -, hl⟩ := Option.bind_eq_some_iff.mp hl
      obtain ⟨k₁, hk₁, hl⟩ := Option.bind_eq_some_iff.mp hl
      exact ih (h.loadSegment hk₁) hl

theorem StackEnds.loadStack (h : StackEnds k) (hl : k.loadStack task mm = some k') :
    StackEnds k' := by
  unfold Kernel.loadStack at hl
  dsimp only at hl
  have hpage : StackEnds (k.onMachine k.kmalloc.2) := h.congr rfl
  have hclear : StackEnds ((k.onMachine k.kmalloc.2).setVma k.kmalloc.1 {}) :=
    hpage.setVma _ fun ht ↦ by cases ht
  generalize (k.onMachine k.kmalloc.2).setVma k.kmalloc.1 {} = k₁ at hclear hl
  have hhead : StackEnds (if (k₁.mms mm).mmap = 0 then
      k₁.setMm mm { k₁.mms mm with mmap := k.kmalloc.1 } else k₁.linkCurrent mm k.kmalloc.1) := by
    split
    · exact hclear.congr rfl
    · exact hclear.linkCurrent mm _
  generalize (if (k₁.mms mm).mmap = 0 then k₁.setMm mm { k₁.mms mm with mmap := k.kmalloc.1 }
      else k₁.linkCurrent mm k.kmalloc.1) = k₂ at hhead hl
  split at hl
  · cases hl
  · obtain rfl := Option.some.inj hl
    have hlink := (hhead.linkCurrent mm k.kmalloc.1).setCurrent mm k.kmalloc.1
    refine StackEnds.congr (StackEnds.setVma (hlink.congr rfl) k.kmalloc.1 fun _ ↦ ?_) rfl
    exact show userStackTop < 2 ^ 47 by decide

theorem StackEnds.loadHeap (h : StackEnds k) (mm : Nat) : StackEnds (k.loadHeap mm) := by
  have hpage : StackEnds (k.onMachine k.kmalloc.2) := h.congr rfl
  have hcur := (hpage.linkCurrent mm k.kmalloc.1).setCurrent mm k.kmalloc.1
  refine StackEnds.congr (StackEnds.setVma (hcur.congr rfl) k.kmalloc.1 fun ht ↦ ?_) rfl
  cases ht

theorem StackEnds.loadProgram (h : StackEnds k) (hl : k.loadProgram task ehdr = some k') :
    StackEnds k' := by
  unfold Kernel.loadProgram at hl
  obtain ⟨phoff, -, hl⟩ := Option.bind_eq_some_iff.mp hl
  obtain ⟨entry, -, hl⟩ := Option.bind_eq_some_iff.mp hl
  obtain ⟨phnum, -, hl⟩ := Option.bind_eq_some_iff.mp hl
  dsimp only at hl
  obtain ⟨k₁, hk₁, hl⟩ := Option.bind_eq_some_iff.mp hl
  obtain ⟨k₂, hk₂, rfl⟩ := Option.map_eq_some_iff.mp hl
  have hstart : StackEnds ((k.setRip task entry).setMm (k.procs.pcbs task).mm
      { k.mms (k.procs.pcbs task).mm with mmap := 0 }) := h.congr rfl
  exact ((hstart.loadSegments hk₁).loadStack hk₂).loadHeap _

/-! ## Exec -/

theorem steady_stackEnds : SteadyLoad fun k k' ↦ StackEnds k → StackEnds k' where
  refl _ := id
  trans h h' := h' ∘ h
  fault h hk := hk.pageFault h
  store _ hk := hk.congr rfl
  loadCR3 _ _ hk := hk.congr rfl
  program h hk := hk.loadProgram h
  malloc _ _ hk := hk.congr rfl
  setRsp _ _ _ hk := hk.congr rfl

theorem within_execve (tarfs fuel file argv : Nat) :
    Within (fun k k' ↦ StackEnds k → StackEnds k') (execveSyscall tarfs fuel file argv) := by
  have h := steady_stackEnds
  have hk : Within (fun k k' ↦ StackEnds k → StackEnds k')
      (call fun k ↦ (k.kmalloc.1, k.onMachine k.kmalloc.2)) := within_call fun _ hk ↦ hk.congr rfl
  refine h.bind hk fun newprocess ↦ h.bind hk fun kernelstack ↦ h.bind hk fun mm ↦
    h.bind (within_call fun _ hk ↦ hk.congr rfl) fun cr3 ↦ ?_
  exact h.bind (h.loadString fuel file fuel) fun name ↦
    h.bind (within_modify fun _ hk ↦ hk.congr rfl) fun _ ↦
    h.bind (h.loadString fuel file fuel) fun s ↦ h.bind (h.ask _) fun u ↦
    h.bind (h.execArgs fuel argv u) fun (stackindex, u) ↦ h.bind (h.read _) fun currCR3 ↦
    h.bind (h.execLoad tarfs fuel newprocess stackindex u) fun (ans, args) ↦
    h.bind (within_modify fun _ hk ↦ hk.congr rfl) fun _ ↦
    h.bind (within_modify fun _ hk ↦ hk.congr rfl) fun _ ↦ h.pure _

theorem StackEnds.execveSyscall {tarfs file argv : Nat} {e : ExecEnd} (h : StackEnds k)
    (hrun : execveSyscall tarfs fuel file argv k = some (.done e k')) : StackEnds k' :=
  within_execve tarfs fuel file argv k e k' hrun h

end Sbunix
