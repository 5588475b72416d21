import Sbunix.Reasoning.ByteMemory

/-!
# The heap of a process (`libc/malloc.c`)

`malloc` takes a block and a `mallocinfo` for it from `sb_malloc`, which moves the end of the heap.
The records are a list from `start` on; `free` marks the one of its address, and `malloc` hands its
block out again for a request that is smaller.
-/

namespace Sbunix

open Reasoning

/-- The memory of the process, the pointer `start`, and `brk` of its heap. -/
structure Heap where
  mem : Memory
  start : Nat
  brk : Nat

namespace Heap

/-! ## `struct mallocinfo` -/

/-- `sizeof(struct mallocinfo)`. -/
def infoSize : Nat := 32

def sizeAt (mem : Memory) (p : Nat) : Nat := mem.load64 p

def addressAt (mem : Memory) (p : Nat) : Nat := mem.load64 (p + 8)

/-- `alloc1dealloc0`. -/
def allocAt (mem : Memory) (p : Nat) : Nat := mem.load32 (p + 16)

def nextAt (mem : Memory) (p : Nat) : Nat := mem.load64 (p + 24)

def setAlloc (mem : Memory) (p v : Nat) : Memory := mem.store32 (p + 16) v

def setNext (mem : Memory) (p v : Nat) : Memory := mem.store64 (p + 24) v

/-- The record of a new block. -/
def newInfo (mem : Memory) (p size address : Nat) : Memory :=
  setNext (setAlloc ((mem.store64 p size).store64 (p + 8) address) p 1) p 0

/-! ## The calls -/

/-- An `int` as a 64-bit argument. -/
def intArg (size : Nat) : Nat :=
  if size % 2 ^ 32 < 2 ^ 31 then size % 2 ^ 32 else size % 2 ^ 32 + (2 ^ 64 - 2 ^ 32)

/-- `sb_malloc(size)`, which is `mallocSyscall`. -/
def sbMalloc (h : Heap) (size : Nat) : Nat × Heap :=
  (h.brk, { h with brk := (h.brk + intArg size) % 2 ^ 64 })

/-- `memset(ptr, size)`, whose `size` is an `int`. -/
def memset (mem : Memory) (ptr size : Nat) : Memory :=
  -- a negative size ends the loop at once
  if size % 2 ^ 32 < 2 ^ 31 then mem.fill ptr (size % 2 ^ 32) 0 else mem

/-- The loop of `free` from the record `temp` on; `none` when `fuel` does not suffice. -/
def freeLoop (mem : Memory) (add : Nat) : Nat → Nat → Option Memory
  | 0, _ => none
  | fuel + 1, temp =>
      if temp = 0 then some mem
      else if add = addressAt mem temp then
        let mem := setAlloc mem temp 0
        some (memset mem (addressAt mem temp) (sizeAt mem temp))
      else freeLoop mem add fuel (nextAt mem temp)

/-- `free(add)`. -/
def free (h : Heap) (fuel add : Nat) : Option Heap :=
  (freeLoop h.mem add fuel h.start).map fun mem ↦ { h with mem := mem }

/-- The loop `while (temp->next)` of `malloc`: the last record, and `mintemp` if there is one. -/
def scan (mem : Memory) (size : Nat) : Nat → Nat → Nat → Option Nat → Option (Nat × Option Nat)
  | 0, _, _, _ => none
  | fuel + 1, temp, min, mintemp =>
      if nextAt mem temp = 0 then some (temp, mintemp)
      else if allocAt mem temp = 0 ∧ sizeAt mem temp > size ∧ min > sizeAt mem temp then
        -- the source sets `min` to the size asked for, so nothing that fits comes after it
        scan mem size fuel (nextAt mem temp) size (some temp)
      else scan mem size fuel (nextAt mem temp) min mintemp

/-- `malloc(size)`. -/
def malloc (h : Heap) (fuel size : Nat) : Option (Nat × Heap) :=
  -- the first call makes the list
  if h.start = 0 then
    let (mallocadd, h) := h.sbMalloc size
    let (start, h) := h.sbMalloc infoSize
    some (mallocadd, { h with mem := newInfo h.mem start size mallocadd, start := start })
  else
    (scan h.mem size fuel h.start 10000 none).map fun
      | (_, some mintemp) =>
          let mem := setAlloc h.mem mintemp 1
          (addressAt mem mintemp, { h with mem := mem })
      | (temp, none) =>
          let (mallocadd, h) := h.sbMalloc size
          let (temp1, h) := h.sbMalloc infoSize
          (mallocadd, { h with mem := setNext (newInfo h.mem temp1 size mallocadd) temp temp1 })

end Heap

end Sbunix
