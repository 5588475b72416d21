import Sbunix.Sys.Ring
import Sbunix.Sys.Exec

/-!
# The ring after `waitpid` and `execve`

Both calls relink the current process by hand.  `waitpidSyscall` leaves the link of the process
before it as it was; `execveSyscall` takes `first->next` for that process without a search.
-/

namespace Sbunix

open Reasoning Procs Kernel

/-- The processes `1`, ..., `n`, linked in this order; `first` is process 1. -/
def countedRing (n current : Nat) : Procs where
  pcbs := fun a ↦ { pid := a, next := a % n + 1 }
  first := 1
  current := current
  last := 0
  zombie := 0
  pID := fun _ ↦ 0

/-! ## Waitpid -/

variable {s s' : Procs} {k : Kernel} {l r : List Nat} {y c : Nat}

/-- One simple cycle of the processes in `l`, with the former successor of `current` now current. -/
structure WaitRing (l : List Nat) (s s' : Procs) : Prop where
  current : s'.current = s.nextOf s.current
  ring : ∃ r, Ring s'.nextOf s'.current r ∧ ∀ a, a ∈ s'.current :: r ↔ a ∈ l

/-- The process that `waitpidSyscall` switches to leads into the ring from outside. -/
theorem Procs.waitpidSyscall_lasso {pid : Nat} (sp : SwitchPoint)
    (h : Ring s.nextOf s.current (y :: r)) (hp : 0 < pid) :
    Lasso (s.waitpidSyscall pid sp).nextOf (s.waitpidSyscall pid sp).current [y] s.current r := by
  rw [waitpidSyscall_nextOf sp hp, waitpidSyscall_current sp hp]
  have hy : s.nextOf s.current = y := h.ring.2.1
  rw [hy]
  exact h.swap

/-- On a ring of two processes or more `waitpidSyscall` never leaves a ring. -/
theorem waitRing_never {pid : Nat} (sp : SwitchPoint) (h : Ring s.nextOf s.current r)
    (hr : r ≠ []) (hp : 0 < pid) :
    ¬ WaitRing (s.current :: r) s (s.waitpidSyscall pid sp) := by
  obtain ⟨y, r, rfl⟩ := List.exists_cons_of_ne_nil hr
  rintro ⟨-, r', hring, -⟩
  exact (waitpidSyscall_lasso sp h hp).not_ring hring

theorem waitRing_never_three :
    ¬ WaitRing [2, 3, 1] (countedRing 3 2) ((countedRing 3 2).waitpidSyscall 3 ⟨0, 0⟩) := by
  have h : Ring (countedRing 3 2).nextOf (countedRing 3 2).current [3, 1] :=
    ⟨rfl, ⟨rfl, rfl, rfl, rfl⟩, by decide⟩
  exact waitRing_never ⟨0, 0⟩ h (by decide) (by decide)

/-- Of two processes the one that calls ends up alone on the ring. -/
theorem waitRing_two : Ring (countedRing 2 1).nextOf (countedRing 2 1).current [2] ∧
    Ring ((countedRing 2 1).waitpidSyscall 2 ⟨0, 0⟩).nextOf 1 [] ∧
    ((countedRing 2 1).waitpidSyscall 2 ⟨0, 0⟩).current = 2 ∧
    ¬ WaitRing [1, 2] (countedRing 2 1) ((countedRing 2 1).waitpidSyscall 2 ⟨0, 0⟩) := by
  have h : Ring (countedRing 2 1).nextOf (countedRing 2 1).current [2] :=
    ⟨rfl, ⟨rfl, rfl, rfl⟩, by decide⟩
  have hl := waitpidSyscall_lasso ⟨0, 0⟩ h (show 0 < 2 by decide)
  refine ⟨h, ⟨rfl, hl.ring, by decide⟩, rfl, ?_⟩
  rintro ⟨-, r, hring, -⟩
  exact hl.not_ring hring

/-! ## Execve -/

theorem Kernel.execSwitch_nextOf (k : Kernel) (c : Nat) : (k.execSwitch c).procs.nextOf =
    replaceBehind k.procs.nextOf (k.procs.nextOf k.procs.first) k.procs.current c := by
  unfold execSwitch
  dsimp only
  rw [nextOf_modify_keep]
  · change ((k.procs.setNext _ c).setNext c _).nextOf = _
    rw [nextOf_setNext, nextOf_setNext, replaceBehind]
    rfl
  · intro p
    rfl

/-- The new process `c` is current, and stands on the ring where the caller stood: the other
processes `r` follow it. -/
structure ExecRing (c : Nat) (r : List Nat) (s : Procs) : Prop where
  current : s.current = c
  ring : Ring s.nextOf c r

/-- `execveSyscall` puts the new process in the place of the caller exactly when the caller is the
second process behind `first`. -/
theorem execRing_iff (h : Ring k.procs.nextOf k.procs.current r)
    (hf : k.procs.first ∈ k.procs.current :: r) (hne : k.procs.current ≠ k.procs.first)
    (hc : c ∉ k.procs.current :: r) : ExecRing c r (k.execSwitch c).procs ↔
      k.procs.nextOf (k.procs.nextOf k.procs.first) = k.procs.current := by
  have hr : r ≠ [] := by
    rintro rfl
    exact hne (List.mem_singleton.mp hf).symm
  -- whether `first->next` leads to the caller is all that counts
  rw [← h.replaceBehind_iff hr hc (h.next_mem hf)]
  constructor
  · intro hring
    rw [← execSwitch_nextOf]
    exact hring.ring
  · intro hring
    refine ⟨rfl, ?_⟩
    rw [execSwitch_nextOf]
    exact hring

/-- A machine without memory that runs the processes `procs`. -/
def idleKernel (procs : Procs) : Kernel where
  mem := fun _ ↦ 0
  cr3 := 0
  alloc := ⟨fun _ ↦ 0, 0, 0, 0⟩
  procs := procs
  mms := fun _ ↦ {}
  vmas := fun _ ↦ {}
  files := fun _ ↦ {}

theorem execRing_third : ExecRing 9 [1, 2] ((idleKernel (countedRing 3 3)).execSwitch 9).procs := by
  have h : Ring (countedRing 3 3).nextOf 3 [1, 2] := ⟨rfl, ⟨rfl, rfl, rfl, rfl⟩, by decide⟩
  exact (execRing_iff (k := idleKernel (countedRing 3 3)) h (by decide) (by decide)
    (by decide)).mpr rfl

/-- A caller that stands right behind `first` is its own predecessor: the new process ends up on a
ring of its own. -/
theorem execRing_second : Ring (countedRing 2 2).nextOf 2 [1] ∧
    ((idleKernel (countedRing 2 2)).execSwitch 9).procs.nextOf 9 = 9 ∧
    ¬ ExecRing 9 [1] ((idleKernel (countedRing 2 2)).execSwitch 9).procs := by
  refine ⟨⟨rfl, ⟨rfl, rfl, rfl⟩, by decide⟩, rfl, fun h ↦ ?_⟩
  have hnext := h.ring.ring.2.1
  exact absurd hnext (by decide)

end Sbunix
