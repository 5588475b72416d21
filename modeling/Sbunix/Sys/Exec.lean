import Sbunix.Sys.Elf
import Sbunix.Sys.Malloc

/-!
# `execveSyscall` (`sys/syscall.c`)

The call builds a new process beside the caller: its PCB and its tables, with the program loaded and
the arguments copied there, and ends with `iretq` into that process.  What it reads and writes in
user memory may fault, and `pageFault` then works for the caller, which is still current.
-/

namespace Sbunix

open Reasoning

/-! ## Code of the kernel that may fault -/

/-- A piece of kernel code ends with a value, or with the machine stopped. -/
inductive Outcome (α : Type) where
  | done (a : α) (k : Kernel)
  | halted (k : Kernel)

/-- Kernel code; `none` when fuel runs out, or when it does what is not modelled. -/
def KernelM (α : Type) : Type := Kernel → Option (Outcome α)

namespace KernelM

instance : Monad KernelM where
  pure a := fun k ↦ some (.done a k)
  bind x f := fun k ↦
    match x k with
    | some (.done a k) => f a k
    | some (.halted k) => some (.halted k)
    | none => none

/-- A part of the state. -/
def read {α : Type} (f : Kernel → α) : KernelM α := fun k ↦ some (.done (f k) k)

/-- A change of the state that gives a value. -/
def call {α : Type} (f : Kernel → α × Kernel) : KernelM α := fun k ↦ some (.done (f k).1 (f k).2)

def modify (f : Kernel → Kernel) : KernelM Unit := fun k ↦ some (.done () (f k))

/-- A change that is not modelled for every state. -/
def attempt (f : Kernel → Option Kernel) : KernelM Unit := fun k ↦ (f k).map (.done ())

/-- A value that is not modelled for every state. -/
def ask {α : Type} (f : Kernel → Option α) : KernelM α := fun k ↦ (f k).map (.done · k)

/-- A page fault of the kernel. -/
def fault (fuel errCode v : Nat) : KernelM Unit := fun k ↦
  (k.pageFault fuel errCode v).map fun
    | .resume k => .done () k
    | .halt k => .halted k

/-- A read of a byte, again after each fault. -/
def loadByte (fuel v : Nat) : Nat → KernelM UInt8
  | 0 => fun _ ↦ none
  | n + 1 => fun k ↦
      match k.readByte v with
      | some b => some (.done b k)
      | none => (do fault fuel 0 v; loadByte fuel v n) k

/-- A write of a byte, again after each fault; the error code tells whether the page is there. -/
def storeByte (fuel v : Nat) (b : UInt8) : Nat → KernelM Unit
  | 0 => fun _ ↦ none
  | n + 1 => fun k ↦
      match k.writeByte v b with
      | some s => some (.done () (k.onMachine s))
      | none =>
          (do fault fuel (if (k.translate v).isSome then pBit ||| wBit else wBit) v
              storeByte fuel v b n) k

/-- The little-endian number in the `n` bytes at `v`. -/
def loadBytes (fuel v : Nat) : Nat → KernelM Nat
  | 0 => pure 0
  | n + 1 => do
      let b ← loadByte fuel (v % 2 ^ 64) fuel
      let r ← loadBytes fuel (v + 1) n
      pure (b.toNat + 256 * r)

/-- The `n` low bytes of `x`, to `v`. -/
def storeBytes (fuel v x : Nat) : Nat → KernelM Unit
  | 0 => pure ()
  | n + 1 => do
      storeByte fuel (v % 2 ^ 64) x.toUInt8 fuel
      storeBytes fuel (v + 1) (x / 256) n

/-- The string at `v`, of less than `n` bytes. -/
def loadString (fuel v : Nat) : Nat → KernelM CString
  | 0 => fun _ ↦ none
  | n + 1 => do
      let b ← loadByte fuel (v % 2 ^ 64) fuel
      if b = 0 then pure [] else do
        let s ← loadString fuel (v + 1) n
        pure (b :: s)

/-- `strcpy` to `v`. -/
def storeString (fuel v : Nat) : CString → KernelM Unit
  | [] => storeByte fuel (v % 2 ^ 64) 0 fuel
  | b :: s => do
      storeByte fuel (v % 2 ^ 64) b fuel
      storeString fuel (v + 1) s

end KernelM

open KernelM

/-! ## The arguments on the kernel's stack -/

/-- `char userstack[10][50]`. -/
abbrev UserStack := Nat → UInt8

namespace UserStack

/-- `strcpy` to row `i`; `none` when the string runs over the end of the array. -/
def copyRow (u : UserStack) (i : Nat) (s : CString) : Option UserStack :=
  if 50 * i + s.length < 500 then
    some fun x ↦ if 50 * i ≤ x ∧ x ≤ 50 * i + s.length then s.getD (x - 50 * i) 0 else u x
  else none

/-- The string at `x`, of `n` bytes at most before the end of the array. -/
def stringAt (u : UserStack) (x : Nat) : Nat → Option CString
  | 0 => none
  | n + 1 => if u x = 0 then some [] else (u.stringAt (x + 1) n).map (u x :: ·)

/-- `userstack[i]`. -/
def row (u : UserStack) (i : Nat) : Option CString := u.stringAt (50 * i) (500 - 50 * i)

end UserStack

/-- The loop over `argv` from index `i` on; its last `if` has no effect. -/
def copyArgs (fuel argv : Nat) : Nat → Nat → UserStack → KernelM (Nat × UserStack)
  | 0, _, _ => fun _ ↦ none
  | n + 1, i, u => do
      let p ← loadBytes fuel (argv + 8 * i) 8
      let s ← loadString fuel p fuel
      if strcmp s [] ≠ 0 then do
        -- both are read again for the copy
        let p ← loadBytes fuel (argv + 8 * i) 8
        let s ← loadString fuel p fuel
        let u ← ask fun _ ↦ u.copyRow i s
        copyArgs fuel argv n (i + 1) u
      else pure (i, u)

/-- `if (argv)`. -/
def execArgs (fuel argv : Nat) (u : UserStack) : KernelM (Nat × UserStack) :=
  if argv ≠ 0 then copyArgs fuel argv fuel 1 u else pure (1, u)

/-- `ans[a] = mallocSyscall(20); strcpy(userstack[a], ans[a])`, with the string that is placed. -/
def placeArg (fuel ans a : Nat) (u : UserStack) : KernelM (Nat × CString) := do
  let p ← call fun k ↦ k.mallocSyscall 20
  storeBytes fuel (ans + 8 * a) p 8
  let s ← ask fun _ ↦ u.row a
  storeString fuel p s
  pure (p, s)

/-- `while (a < stackindex)`, for `n` arguments from `a` on. -/
def placeArgs (fuel ans : Nat) (u : UserStack) : Nat → Nat → KernelM (List (Nat × CString))
  | 0, _ => pure []
  | n + 1, a => do
      let arg ← placeArg fuel ans a u
      let args ← placeArgs fuel ans u n (a + 1)
      pure (arg :: args)

/-! ## The call -/

/-- How the call ends: with `iretq` into the new process, which finds the array `ans` and the strings
`args` in its memory, or with a value for the caller. -/
inductive ExecEnd where
  | entered (ans : Nat) (args : List (Nat × CString))
  | returned (code : Int)

/-- The test of the magic number at `ehdr`. -/
def isElf (fuel ehdr : Nat) : KernelM Bool := do
  let c₁ ← loadByte fuel (ehdr + 1) fuel
  if c₁ = 0x45 then
    let c₂ ← loadByte fuel (ehdr + 2) fuel
    if c₂ = 0x4c then
      let c₃ ← loadByte fuel (ehdr + 3) fuel
      pure (c₃ = 0x46)
    else pure false
  else pure false

namespace Kernel

/-- The new PCB, in a page that `kmalloc` has cleared, and its `mm_struct`. -/
def execPcb (k : Kernel) (newprocess kernelstack cr3 mm : Nat) (name : CString) : Kernel :=
  let cur := k.procs.pcbs k.procs.current
  let top := kernelstack + 4096 - 16
  { k.setMm mm {} with
    procs := k.procs.modify newprocess fun _ ↦
      { initKern := top, kstack := top, cr3 := cr3, mm := mm, pid := cur.pid, ppid := cur.ppid,
        processName := name } }

/-- The new process is linked in behind `first->next` and becomes the current one. -/
def execSwitch (k : Kernel) (newprocess : Nat) : Kernel :=
  let procs := k.procs.setNext (k.procs.nextOf k.procs.first) newprocess
  let procs := procs.setNext newprocess (procs.nextOf procs.current)
  let procs := { procs with current := newprocess }.modify newprocess fun p ↦
    { p with curDir := cstr "/rootfs/bin", waitOnChildpid := noPid, processState := .running }
  { k with toMachine := k.loadCR3 (procs.pcbs newprocess).cr3, procs := procs }

end Kernel

/-- `loadElf` for the new process, with the header at `ehdr`. -/
def execProgram (fuel newprocess ehdr : Nat) : KernelM Unit := do
  let found ← isElf fuel ehdr
  if found then attempt fun k ↦ k.loadProgram newprocess ehdr else pure ()

/-- The program and its arguments, under the tables of the new process.  What `loadElf` returns is
not looked at. -/
def execLoad (tarfs fuel newprocess stackindex : Nat) (u : UserStack) :
    KernelM (Nat × List (Nat × CString)) := do
  let pcb ← read fun k ↦ k.procs.pcbs newprocess
  modify fun k ↦ k.onMachine (k.loadCR3 pcb.cr3)
  let ehdr ← ask fun k ↦ k.getFile pcb.processName fuel tarfs
  execProgram fuel newprocess ehdr
  -- the caller is still current: the break that moves is its own
  let ans ← call fun k ↦ k.mallocSyscall 800
  let args ← placeArgs fuel ans u stackindex 0
  modify fun k ↦ k.onMachine (k.loadCR3 pcb.cr3)
  let ptr ← read fun k ↦ (k.procs.pcbs newprocess).rsp
  storeBytes fuel (sub64 ptr 8) stackindex 8
  storeBytes fuel (sub64 ptr 16) ans 8
  modify fun k ↦ k.setRsp newprocess (sub64 ptr 16)
  pure (ans, args)

/-- `execveSyscall(file, argv, env)`, with the archive at `tarfs`; the environment is not used. -/
def execveSyscall (tarfs fuel file argv : Nat) : KernelM ExecEnd := do
  let newprocess ← call fun k ↦ (k.kmalloc.1, k.onMachine k.kmalloc.2)
  let kernelstack ← call fun k ↦ (k.kmalloc.1, k.onMachine k.kmalloc.2)
  let mm ← call fun k ↦ (k.kmalloc.1, k.onMachine k.kmalloc.2)
  let cr3 ← call fun k ↦ (k.setUserSpace.1, k.onMachine k.setUserSpace.2)
  let name ← loadString fuel file fuel
  modify fun k ↦ k.execPcb newprocess kernelstack cr3 mm name
  -- the name is read a second time, for row 0
  let s ← loadString fuel file fuel
  let u ← ask fun _ ↦ UserStack.copyRow (fun _ ↦ 0) 0 s
  let (stackindex, u) ← execArgs fuel argv u
  let currCR3 ← read fun k ↦ k.cr3
  let (ans, args) ← execLoad tarfs fuel newprocess stackindex u
  modify fun k ↦ k.onMachine (k.loadCR3 currCR3)
  modify fun k ↦ k.execSwitch newprocess
  -- the `return -1` behind the `iretq` is never reached
  pure (.entered ans args)

end Sbunix
