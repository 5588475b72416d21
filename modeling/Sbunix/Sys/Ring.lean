import Sbunix.Sys.Process

/-!
# What the process calls do to the ring

One lemma a call: the `next` pointers and `current` afterwards, as an operation on chains.
-/

namespace Sbunix

open Reasoning

namespace Procs

variable {s : Procs}

theorem nextOf_modify (s : Procs) (a : Nat) (f : Pcb → Pcb) :
    (s.modify a f).nextOf = Function.update s.nextOf a (f (s.pcbs a)).next := by
  funext x
  by_cases h : x = a
  · subst h
    simp [nextOf, modify]
  · simp [nextOf, modify, h]

theorem nextOf_modify_keep (s : Procs) (a : Nat) {f : Pcb → Pcb} (hf : ∀ p, (f p).next = p.next) :
    (s.modify a f).nextOf = s.nextOf := by
  rw [nextOf_modify, hf]
  exact Function.update_eq_self a s.nextOf

@[simp] theorem nextOf_setNext (s : Procs) (a v : Nat) :
    (s.setNext a v).nextOf = Function.update s.nextOf a v := nextOf_modify s a _

@[simp] theorem nextOf_setState (s : Procs) (a : Nat) (st : ProcessState) :
    (s.setState a st).nextOf = s.nextOf := nextOf_modify_keep s a fun _ ↦ rfl

@[simp] theorem nextOf_contextSwitch (s : Procs) (next prev : Nat) (sp : SwitchPoint) :
    (s.contextSwitch next prev sp).nextOf = s.nextOf := by
  refine (nextOf_modify_keep _ prev ?_).trans (nextOf_setState s next .running)
  intro p
  rfl

@[simp] theorem current_modify (s : Procs) (a : Nat) (f : Pcb → Pcb) :
    (s.modify a f).current = s.current := rfl

@[simp] theorem current_setNext (s : Procs) (a v : Nat) : (s.setNext a v).current = s.current := rfl

@[simp] theorem current_contextSwitch (s : Procs) (next prev : Nat) (sp : SwitchPoint) :
    (s.contextSwitch next prev sp).current = s.current := rfl

/-! ### The state of a process -/

def stateOf (s : Procs) (a : Nat) : ProcessState := (s.pcbs a).processState

theorem stateOf_modify_keep (s : Procs) (a : Nat) {f : Pcb → Pcb}
    (hf : ∀ p, (f p).processState = p.processState) : (s.modify a f).stateOf = s.stateOf := by
  funext x
  by_cases h : x = a
  · subst h
    simp [stateOf, modify, hf]
  · simp [stateOf, modify, h]

@[simp] theorem stateOf_setNext (s : Procs) (a v : Nat) : (s.setNext a v).stateOf = s.stateOf :=
  stateOf_modify_keep s a fun _ ↦ rfl

@[simp] theorem stateOf_setState (s : Procs) (a : Nat) (st : ProcessState) :
    (s.setState a st).stateOf = Function.update s.stateOf a st := by
  funext x
  by_cases h : x = a
  · subst h
    simp [stateOf, setState, modify]
  · simp [stateOf, setState, modify, h]

@[simp] theorem stateOf_contextSwitch (s : Procs) (next prev : Nat) (sp : SwitchPoint) :
    (s.contextSwitch next prev sp).stateOf = Function.update s.stateOf next .running := by
  refine (stateOf_modify_keep _ prev ?_).trans (stateOf_setState s next .running)
  intro p
  rfl

/-! ### Yield and schedule -/

theorem yieldSyscall_eq (sp : SwitchPoint) (h : s.nextOf s.current ≠ 0) :
    s.yieldSyscall sp =
      { s with current := s.nextOf s.current }.contextSwitch (s.nextOf s.current) s.current sp :=
  if_pos h

theorem yieldSyscall_nextOf (sp : SwitchPoint) : (s.yieldSyscall sp).nextOf = s.nextOf := by
  unfold yieldSyscall
  dsimp only
  split
  · exact nextOf_contextSwitch _ _ _ _
  · rfl

theorem yieldSyscall_current (sp : SwitchPoint) (h : s.nextOf s.current ≠ 0) :
    (s.yieldSyscall sp).current = s.nextOf s.current := by
  rw [yieldSyscall_eq sp h]
  rfl

theorem yieldSyscall_stateOf (sp : SwitchPoint) (h : s.nextOf s.current ≠ 0) :
    (s.yieldSyscall sp).stateOf =
      Function.update s.stateOf (s.nextOf s.current) .running := by
  rw [yieldSyscall_eq sp h, stateOf_contextSwitch]
  rfl

/-- `last` is never assigned, so `schedule` is a yield. -/
theorem schedule_eq_yield (sp : SwitchPoint) (hl : s.last = 0) (hc : s.current ≠ 0)
    (h : s.nextOf s.current ≠ 0) : s.schedule sp = s.yieldSyscall sp := by
  rw [yieldSyscall_eq sp h, schedule, if_pos (by rw [hl]; exact hc)]

/-! ### Exit -/

/-- The links after `exitSyscall`, with `temp` the predecessor it found. -/
def exitNext (s : Procs) (temp : Nat) : Nat → Nat :=
  let next := Function.update s.nextOf temp (s.nextOf s.current)
  if s.zombie = 0 then next else Function.update next s.zombie s.current

/-- The state in which `exitSyscall` yields. -/
def exitLinked (s : Procs) (temp : Nat) : Procs :=
  let t := (s.setState s.current .zombie).setNext temp (s.nextOf s.current)
  if s.zombie = 0 then { t with zombie := s.current } else t.setNext s.zombie s.current

theorem exitSyscall_eq (fuel : Nat) (sp : SwitchPoint) :
    s.exitSyscall fuel sp =
      (findPred s.nextOf s.current fuel (s.nextOf s.current)).map fun temp ↦
        (s.exitLinked temp).yieldSyscall sp := by
  rw [exitSyscall, nextOf_setState]
  rfl

theorem exitLinked_nextOf (temp : Nat) : (s.exitLinked temp).nextOf = s.exitNext temp := by
  have ht : ((s.setState s.current .zombie).setNext temp (s.nextOf s.current)).nextOf =
      Function.update s.nextOf temp (s.nextOf s.current) := by
    rw [nextOf_setNext, nextOf_setState]
  unfold exitLinked exitNext
  dsimp only
  split
  · exact ht
  · rw [nextOf_setNext, ht]

theorem exitLinked_current (temp : Nat) : (s.exitLinked temp).current = s.current := by
  unfold exitLinked
  dsimp only
  split <;> rfl

theorem exitLinked_zombie (temp : Nat) :
    (s.exitLinked temp).zombie = if s.zombie = 0 then s.current else s.zombie := by
  unfold exitLinked
  dsimp only
  split <;> rfl

theorem exitLinked_stateOf (temp : Nat) :
    (s.exitLinked temp).stateOf = Function.update s.stateOf s.current .zombie := by
  have ht : ((s.setState s.current .zombie).setNext temp (s.nextOf s.current)).stateOf =
      Function.update s.stateOf s.current .zombie := by
    rw [stateOf_setNext, stateOf_setState]
  unfold exitLinked
  dsimp only
  split
  · exact ht
  · rw [stateOf_setNext, ht]

/-! ### Waitpid -/

theorem waitpidSyscall_zero (sp : SwitchPoint) : s.waitpidSyscall 0 sp = s := rfl

theorem waitpidSyscall_nextOf {pid : Nat} (sp : SwitchPoint) (hp : 0 < pid) :
    (s.waitpidSyscall pid sp).nextOf = swapNext s.nextOf s.current := by
  have hm : (s.modify s.current fun p ↦ { p with waitOnChildpid := pid }).nextOf = s.nextOf :=
    nextOf_modify_keep s _ fun _ ↦ rfl
  rw [waitpidSyscall, if_pos hp]
  simp only [nextOf_contextSwitch]
  change (((s.modify s.current _).setNext _ _).setNext _ _).nextOf = _
  rw [nextOf_setNext, nextOf_setNext, hm, swapNext]

theorem waitpidSyscall_current {pid : Nat} (sp : SwitchPoint) (hp : 0 < pid) :
    (s.waitpidSyscall pid sp).current = s.nextOf s.current := by
  have hm : (s.modify s.current fun p ↦ { p with waitOnChildpid := pid }).nextOf = s.nextOf :=
    nextOf_modify_keep s _ fun _ ↦ rfl
  rw [waitpidSyscall, if_pos hp]
  simp only [current_contextSwitch, hm]

theorem waitpidSyscall_stateOf {pid : Nat} (sp : SwitchPoint) (hp : 0 < pid) :
    (s.waitpidSyscall pid sp).stateOf =
      Function.update s.stateOf (s.nextOf s.current) .running := by
  have hm : (s.modify s.current fun p ↦ { p with waitOnChildpid := pid }).nextOf = s.nextOf :=
    nextOf_modify_keep s _ fun _ ↦ rfl
  have hst : (s.modify s.current fun p ↦ { p with waitOnChildpid := pid }).stateOf = s.stateOf :=
    stateOf_modify_keep s _ fun _ ↦ rfl
  rw [waitpidSyscall, if_pos hp]
  simp only [stateOf_contextSwitch, hm]
  change Function.update (((s.modify s.current _).setNext _ _).setNext _ _).stateOf _ _ = _
  rw [stateOf_setNext, stateOf_setNext, hst]

/-! ### Fork -/

@[simp] theorem getPID_pcbs (s : Procs) : s.getPID.2.pcbs = s.pcbs := by
  unfold getPID
  split <;> rfl

@[simp] theorem getPID_current (s : Procs) : s.getPID.2.current = s.current := by
  unfold getPID
  split <;> rfl

theorem forkSyscall_nextOf {a : ForkArgs} (hc : a.child ≠ s.current) :
    (s.forkSyscall a).nextOf = insertAfter s.nextOf s.current a.child := by
  have hg : s.getPID.2.nextOf = s.nextOf := by
    funext x
    simp [nextOf]
  rw [forkSyscall, forkChild]
  refine (nextOf_modify_keep (s.forkLink a) a.child ?_).trans ?_
  · intro p
    rfl
  rw [forkLink]
  simp only [nextOf_setNext, getPID_current, current_modify]
  rw [nextOf_modify_keep (f := fun p ↦ { p with numChild := (p.numChild + 1) % 2 ^ 32 }) _ _
    fun _ ↦ rfl, nextOf_modify, hg, insertAfter]
  funext x
  by_cases hx : x = a.child
  · subst hx
    rw [Function.update_self, Function.update_self, Function.update_of_ne hc.symm]
  · rw [Function.update_of_ne hx, Function.update_of_ne hx]
    by_cases hx' : x = s.current
    · subst hx'
      rw [Function.update_self, Function.update_self]
    · rw [Function.update_of_ne hx', Function.update_of_ne hx', Function.update_of_ne hx]

theorem forkLink_current (a : ForkArgs) : (s.forkLink a).current = s.current := by
  simp [forkLink]

theorem forkSyscall_current (a : ForkArgs) : (s.forkSyscall a).current = s.current := by
  simp [forkSyscall, forkChild, forkLink]

theorem forkSyscall_pcbs_other {a : ForkArgs} {x : Nat} (hx : x ≠ a.child) (hc : x ≠ s.current) :
    (s.forkSyscall a).pcbs x = s.pcbs x := by
  simp only [forkSyscall, forkChild, forkLink, modify, setNext, getPID_current, getPID_pcbs,
    Function.update_of_ne hx, Function.update_of_ne hc]

theorem forkSyscall_pid_parent {a : ForkArgs} (hc : a.child ≠ s.current) :
    ((s.forkSyscall a).pcbs s.current).pid = (s.pcbs s.current).pid ∧
      ((s.forkSyscall a).pcbs s.current).processState = (s.pcbs s.current).processState := by
  simp [forkSyscall, forkChild, forkLink, modify, setNext, hc.symm]

theorem forkSyscall_child {a : ForkArgs} (hc : a.child ≠ s.current) :
    ((s.forkSyscall a).pcbs a.child).pid = s.getPID.1 ∧
      ((s.forkSyscall a).pcbs a.child).ppid = (s.pcbs s.current).pid ∧
      ((s.forkSyscall a).pcbs a.child).processState = .new := by
  simp [forkSyscall, forkChild, forkLink, modify, setNext, hc, hc.symm]

/-- The parent keeps its address space and its kernel stack. -/
theorem forkLink_parent {a : ForkArgs} (hc : a.child ≠ s.current) :
    ((s.forkLink a).pcbs s.current).mm = (s.pcbs s.current).mm ∧
      ((s.forkLink a).pcbs s.current).cr3 = (s.pcbs s.current).cr3 ∧
      ((s.forkLink a).pcbs s.current).kstack = (s.pcbs s.current).kstack := by
  simp [forkLink, modify, setNext, hc.symm]

theorem forkSyscall_spaces {a : ForkArgs} (hc : a.child ≠ s.current) :
    ((s.forkSyscall a).pcbs s.current).mm = (s.pcbs s.current).mm ∧
      ((s.forkSyscall a).pcbs s.current).cr3 = (s.pcbs s.current).cr3 ∧
      ((s.forkSyscall a).pcbs a.child).mm = a.mm ∧
      ((s.forkSyscall a).pcbs a.child).cr3 = a.cr3 := by
  simp [forkSyscall, forkChild, forkLink, modify, setNext, hc, hc.symm]

theorem forkSyscall_pID (a : ForkArgs) : (s.forkSyscall a).pID = s.getPID.2.pID := rfl

theorem forkSyscall_globals (a : ForkArgs) : (s.forkSyscall a).first = s.first ∧
    (s.forkSyscall a).last = s.last ∧ (s.forkSyscall a).zombie = s.zombie := by
  have hg : s.getPID.2.first = s.first ∧ s.getPID.2.last = s.last ∧
      s.getPID.2.zombie = s.zombie := by
    unfold getPID
    split <;> exact ⟨rfl, rfl, rfl⟩
  exact hg

end Procs

end Sbunix
