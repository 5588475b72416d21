import Sbunix.Reasoning.Chain
import Mathlib.Algebra.Group.Nat.Defs

/-!
# Processes and the scheduler's ring (`sys/process.c`, the process calls of `sys/syscall.c`)

A PCB is a page of its own, so the PCBs are a map from addresses to records and NULL is address 0.
The functions take the pages that the caller's `kmalloc` returned.  A switch of stacks is the
assignment to `current`; what it saves in the PCB that is left comes in as a `SwitchPoint`.
-/

namespace Sbunix

open Reasoning

/-- The values of `process_state`, in the order of their numbers. -/
inductive ProcessState where
  | new | ready | running | zombie
deriving DecidableEq, Repr, Inhabited

/-- A NUL-terminated string, without its NUL. -/
abbrev CString := List UInt8

def cstr (s : String) : CString := s.toList.map fun c ↦ c.toNat.toUInt8

/-- `struct pcb`; `fd` is its array of `MAX_FD = 30` words. -/
structure Pcb where
  pid : Nat := 0
  ppid : Nat := 0
  kstack : Nat := 0
  mm : Nat := 0
  initKern : Nat := 0
  rsp : Nat := 0
  rip : Nat := 0
  processState : ProcessState := .new
  sleep : Nat := 0
  alarm : Nat := 0
  cr3 : Nat := 0
  processName : CString := []
  fd : Nat → Nat := fun _ ↦ 0
  waitOnChildpid : Nat := 0
  numChild : Nat := 0
  curDir : CString := []
  next : Nat := 0
deriving Inhabited

/-- `(uint64_t)-1`: no process id, and no child waited for. -/
def noPid : Nat := 2 ^ 64 - 1

def maxProcesses : Nat := 100

/-- The globals of `process.c`. -/
structure Procs where
  pcbs : Nat → Pcb
  first : Nat
  current : Nat
  last : Nat
  zombie : Nat
  pID : Nat → Nat

/-- The stack pointer and the address of label 1 when `contextSwitch` leaves a process. -/
structure SwitchPoint where
  rsp : Nat
  rip : Nat

namespace Procs

/-- Assign to fields of the PCB at address `a`. -/
def modify (s : Procs) (a : Nat) (f : Pcb → Pcb) : Procs :=
  { s with pcbs := Function.update s.pcbs a (f (s.pcbs a)) }

def nextOf (s : Procs) (a : Nat) : Nat := (s.pcbs a).next

def setNext (s : Procs) (a v : Nat) : Procs := s.modify a fun p ↦ { p with next := v }

def setState (s : Procs) (a : Nat) (st : ProcessState) : Procs :=
  s.modify a fun p ↦ { p with processState := st }

/-- The loop of `getPID` over the slots from `i` on. -/
def getPIDLoop (pID : Nat → Nat) (i : Nat) : Nat → Option Nat
  | 0 => none
  | left + 1 => if pID i = 0 then some i else getPIDLoop pID (i + 1) left

def getPID (s : Procs) : Nat × Procs :=
  match getPIDLoop s.pID 0 maxProcesses with
  | some i => (i, { s with pID := Function.update s.pID i 1 })
  | none => (noPid, s)

def mapProcessID (s : Procs) : Procs :=
  { s with pID := fun i ↦ if i < maxProcesses then 0 else s.pID i }

/-- `kernProcess()` with the two pages of its `kmalloc` calls. -/
def kernProcess (s : Procs) (init kstack cr3 initFunc : Nat) : Procs :=
  let (pid, s) := s.getPID
  let top := kstack + 0x1000 - 16
  let s := s.modify init fun _ ↦
    { pid := pid, ppid := 0, rip := initFunc, processState := .running, sleep := 0, alarm := 0,
      waitOnChildpid := noPid, cr3 := cr3, processName := cstr "Kernel", numChild := 0,
      rsp := top, initKern := top, kstack := top, next := init }
  { s with first := init, current := init }

/-- What `userInitProcess` gets from `kmalloc`, `setUserSpace` and `loadElf`. -/
structure InitArgs where
  init : Nat
  cr3 : Nat
  mm : Nat
  kstack : Nat
  rip : Nat
  rsp : Nat
  filename : CString

/-- `userInitProcess(filename)`; `fuel` bounds its search for the last process of the ring. -/
def userInitProcess (s : Procs) (a : InitArgs) (fuel : Nat) : Option Procs :=
  let (pid, s) := s.getPID
  let top := a.kstack + 0x1000 - 16
  let s := s.modify a.init fun _ ↦
    { pid := pid, ppid := 0, rip := a.rip, processState := .new, sleep := 0, alarm := 0,
      waitOnChildpid := noPid, processName := a.filename, curDir := cstr "/rootfs/bin/",
      numChild := 0, cr3 := a.cr3, mm := a.mm, initKern := top, kstack := top, rsp := a.rsp }
  -- linked in before `current`, behind the process that closes the ring
  (findPred s.nextOf s.current fuel s.current).map fun temp ↦
    (s.setNext temp a.init).setNext a.init s.current

/-- `switchToRing3(init)`: the first user process starts. -/
def switchToRing3 (s : Procs) (init : Nat) : Procs := { s with current := init }

def contextSwitch (s : Procs) (next prev : Nat) (sp : SwitchPoint) : Procs :=
  -- the state of `prev` stays as it is
  (s.setState next .running).modify prev fun p ↦ { p with kstack := sp.rsp, rip := sp.rip }

/-- `schedule()`, the loop body of the kernel process. -/
def schedule (s : Procs) (sp : SwitchPoint) : Procs :=
  let prev := s.current
  -- nothing assigns `last`
  let s := if s.current ≠ s.last then { s with current := s.nextOf s.current }
    else { s with current := s.first }
  s.contextSwitch s.current prev sp

def yieldSyscall (s : Procs) (sp : SwitchPoint) : Procs :=
  let prev := s.current
  let next := s.nextOf s.current
  if next ≠ 0 then { s with current := next }.contextSwitch next prev sp else s

/-- `exitSyscall(code)`; `none` when the search for the predecessor is not over after `fuel`
nodes. -/
def exitSyscall (s : Procs) (fuel : Nat) (sp : SwitchPoint) : Option Procs :=
  let s := s.setState s.current .zombie
  (findPred s.nextOf s.current fuel (s.nextOf s.current)).map fun temp ↦
    let s := s.setNext temp (s.nextOf s.current)
    -- of the zombies only the first one's link is written
    let s := if s.zombie = 0 then { s with zombie := s.current }
      else s.setNext s.zombie s.current
    s.yieldSyscall sp

def waitpidSyscall (s : Procs) (pid : Nat) (sp : SwitchPoint) : Procs :=
  if pid > 0 then
    let parent := s.current
    let s := s.modify parent fun p ↦ { p with waitOnChildpid := pid }
    let child := s.nextOf parent
    let temp := s.nextOf child
    -- the process before `parent` keeps its link
    let s := (s.setNext child parent).setNext parent temp
    { s with current := child }.contextSwitch child parent sp
  else s

/-- What `forkSyscall` gets from `kmalloc`, `allocatePage` and the registers. -/
structure ForkArgs where
  child : Nat
  cr3 : Nat
  mm : Nat
  kstack : Nat
  rip : Nat
  pos : Nat

/-- Lines 262 to 277 of `forkSyscall`: the child's PCB is filled in and linked in behind the
parent. -/
def forkLink (s : Procs) (a : ForkArgs) : Procs :=
  let parent := s.current
  let (pid, s) := s.getPID
  let p := s.pcbs parent
  let s := s.modify a.child fun _ ↦
    { pid := pid, ppid := p.pid, processState := .new, sleep := 0, alarm := 0,
      waitOnChildpid := noPid, processName := p.processName, curDir := p.curDir, numChild := 0,
      cr3 := a.cr3 }
  let s := s.modify parent fun p ↦ { p with numChild := (p.numChild + 1) % 2 ^ 32 }
  let temp := s.nextOf s.current
  (s.setNext s.current a.child).setNext a.child temp

/-- The later assignments of `forkSyscall` to the child's PCB: descriptors, `mm`, kernel stack and
resume address. -/
def forkChild (s : Procs) (a : ForkArgs) : Procs :=
  let parent := s.pcbs s.current
  let top := a.kstack + 0x1000 - 16
  s.modify a.child fun c ↦
    { c with
      fd := fun i ↦ if i < 30 then parent.fd i else c.fd i, mm := a.mm, initKern := top,
      rsp := 0x22222000000, rip := if a.rip ≠ 0 then a.rip else c.rip,
      kstack := (top + 2 ^ 64 - (parent.kstack + 2 ^ 64 - a.pos) % 2 ^ 64) % 2 ^ 64 }

/-- The PCB half of `forkSyscall`. -/
def forkSyscall (s : Procs) (a : ForkArgs) : Procs := (s.forkLink a).forkChild a

end Procs

end Sbunix
