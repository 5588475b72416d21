import Sbunix.Sys.ExecHeap

/-!
# Files that cannot be executed

What `getFile` finds is not compared with NULL, what `loadElf` returns is not looked at, and behind
the load every path leads to `iretq`: the call has no way to fail.
-/

namespace Sbunix

open Reasoning Kernel KernelM

variable {k k' : Kernel} {tarfs fuel file argv : Nat}

/-- The caller runs on as if it had not called: it is current, the ring is linked as it was, and its
PCB, its `mm_struct` and its address space are the same. -/
structure SameCaller (k k' : Kernel) : Prop where
  current : k'.procs.current = k.procs.current
  ring : ∀ r, Ring k.procs.nextOf k.procs.first r → Ring k'.procs.nextOf k'.procs.first r
  pcb : k'.procs.pcbs k.procs.current = k.procs.pcbs k.procs.current
  mm : k'.mms k.curMm = k.mms k.curMm
  space : k'.cr3 = k.cr3
  memory : ∀ v < 2 ^ 47, k'.readByte v = k.readByte v

/-- The call returns an error to a caller that is as it was. -/
def FailsAtomically (k : Kernel) (r : Option (Outcome ExecEnd)) : Prop :=
  ∃ code k', r = some (.done (.returned code) k') ∧ code < 0 ∧ SameCaller k k'

theorem execve_enters {e : ExecEnd} (h : execveSyscall tarfs fuel file argv k = some (.done e k')) :
    (∃ ans args, e = .entered ans args) ∧ k'.procs.current = k.kmalloc.1 := by
  simp only [execveSyscall, bind_done, read_done, modify_done, ask_done, call_done, pure_done,
    and_assoc, exists_eq_left, exists_and_left, exists_const] at h
  obtain ⟨name, k₁, -, s, k₂, -, u, -, y, k₃, -, z, k₄, -, rfl, rfl⟩ := h
  exact ⟨⟨z.1, z.2, rfl⟩, rfl⟩

/-- No file at all makes the call fail the way it should: a call that is over, whatever file it was
given, has the new process as the current one. -/
theorem execve_not_failsAtomically (tarfs fuel file argv : Nat) (k : Kernel) :
    ¬ FailsAtomically k (execveSyscall tarfs fuel file argv k) ∧
      ∀ e k', execveSyscall tarfs fuel file argv k = some (.done e k') →
        k'.procs.current = k.kmalloc.1 := by
  refine ⟨fun ⟨code, k', h, _, _⟩ ↦ ?_, fun e k' h ↦ (execve_enters h).2⟩
  obtain ⟨⟨ans, args, he⟩, -⟩ := execve_enters h
  cases he

def Outcome.isHalted : Outcome ExecEnd → Bool
  | .done _ _ => false
  | .halted _ => true

/-- A name that is not in the archive: the kernel looks for the magic number at NULL and stops. -/
theorem execve_missing :
    (archiveKernel ⟨1, 5, 120, 0x400000, 5, 5⟩).getFile (cstr "hello") 20 0xffffffff80040000 =
        some 0 ∧
      (∃ k', execveSyscall 0xffffffff80040000 30 0xffffffff80040278 0
        (archiveKernel ⟨1, 5, 120, 0x400000, 5, 5⟩) = some (.halted k')) ∧
      ¬ FailsAtomically (archiveKernel ⟨1, 5, 120, 0x400000, 5, 5⟩)
        (execveSyscall 0xffffffff80040000 30 0xffffffff80040278 0
          (archiveKernel ⟨1, 5, 120, 0x400000, 5, 5⟩)) := by
  have h : (execveSyscall 0xffffffff80040000 30 0xffffffff80040278 0
        (archiveKernel ⟨1, 5, 120, 0x400000, 5, 5⟩)).any Outcome.isHalted = true := by decide +kernel
  obtain ⟨o, hrun, ho⟩ := (Option.any_eq_true _ _).mp h
  cases o with
  | done e k' => cases ho
  | halted k' =>
      refine ⟨by decide +kernel, ⟨k', hrun⟩, ?_⟩
      rintro ⟨code, k₁, hret, -, -⟩
      rw [hrun] at hret
      cases hret

end Sbunix
