import Sbunix.Sys.Kernel

/-!
# Program files (`sys/tarfs.c`, `sys/elf64.c`)

The archive lies in the kernel's image, where `getFile` looks a file up by its name.  `loadElf` maps
pages for the segments of the file it finds, copies the segments there, and adds a stack and a heap.
-/

namespace Sbunix

open Reasoning

/-! ## Strings -/

/-- The loop of `strcmp`: how far two strings agree. -/
def strcmpLoop : CString → CString → Nat
  | a :: l, b :: m => if a = b then strcmpLoop l m + 1 else 0
  | _, _ => 0

/-- `strcmp(a, b, 0)`: 0, or -1 for strings that differ. -/
def strcmp (a b : CString) : Int :=
  if a.length = b.length ∧ strcmpLoop a b = a.length then 0 else -1

/-- On strings of one length the loop gets to the end exactly if they agree. -/
theorem strcmpLoop_eq_length {a b : CString} (h : a.length = b.length) :
    strcmpLoop a b = a.length ↔ a = b := by
  induction a generalizing b with
  | nil =>
      rw [List.length_eq_zero_iff.mp h.symm]
      exact iff_of_true rfl rfl
  | cons x a ih =>
      cases b with
      | nil => cases h
      | cons y b =>
          rw [strcmpLoop]
          by_cases hxy : x = y
          · rw [if_pos hxy, List.length_cons, hxy, List.cons_inj_right, Nat.succ_inj,
              ih (Nat.succ.inj h)]
          · rw [if_neg hxy, List.length_cons]
            exact iff_of_false (Nat.succ_ne_zero _).symm fun he ↦ hxy (List.cons.inj he).1

theorem strcmp_eq_zero_iff {a b : CString} : strcmp a b = 0 ↔ a = b := by
  rw [strcmp]
  split
  · next h => exact iff_of_true rfl ((strcmpLoop_eq_length h.1).mp h.2)
  · next h =>
      refine iff_of_false (by decide) fun he ↦ h ?_
      subst he
      exact ⟨rfl, (strcmpLoop_eq_length rfl).mpr rfl⟩

namespace Machine

/-- The string at `a`; `none` when a read faults or its NUL is not among the first `fuel` bytes. -/
def readString (s : Machine) : Nat → Nat → Option CString
  | 0, _ => none
  | fuel + 1, a => (s.readByte a).bind fun b ↦
      if b = 0 then some [] else (s.readString fuel (a + 1)).map (b :: ·)

/-- The little-endian number in the `n` bytes at `a`. -/
def readBytes (s : Machine) (a : Nat) : Nat → Option Nat
  | 0 => some 0
  | n + 1 => (s.readByte a).bind fun b ↦ (s.readBytes (a + 1) n).map fun r ↦ b.toNat + 256 * r

/-! ## The archive -/

/-- The loop of `oct2bin` over the digits up to `size[j]`, whose value is `k`; a `char` is signed. -/
def oct2binLoop (s : Machine) (size k : Nat) : Nat → Option Int
  | 0 => some 0
  | j + 1 => (s.readByte (size + j)).bind fun b ↦
      (s.oct2binLoop size (k * 8) j).map fun x ↦ ((b.toNat : Int).bmod 256 - 48) * k + x

/-- `oct2bin(size)` for the eleven digits of a size.  The sums of `int` wrap, so that it is enough to
wrap the last one. -/
def oct2bin (s : Machine) (size : Nat) : Option Int :=
  (s.oct2binLoop size 1 11).map fun x ↦ x.bmod (2 ^ 32)

/-- A size rounded up to blocks of 512 bytes, as an `int`. -/
def blocks (size : Int) : Int :=
  if size.tmod 512 ≠ 0 then (size.tdiv 512 * 512 + 512).bmod (2 ^ 32) else size

/-- `getFile(filename)` from the header at `start` on: the address behind the header of that name,
or NULL; `none` when a read faults or `fuel` does not suffice. -/
def getFile (s : Machine) (filename : CString) : Nat → Nat → Option Nat
  | 0, _ => none
  | fuel + 1, start =>
      (s.readString fuel (start + 257)).bind fun magic ↦
        if strcmp magic (cstr "ustar") = 0 then
          (s.oct2bin (start + 124)).bind fun size ↦
            (s.readString fuel start).bind fun name ↦
              if strcmp name filename = 0 then some ((start + 512) % 2 ^ 64)
              else s.getFile filename fuel ((start + 512 + blocks size) % 2 ^ 64).toNat
        else some 0

end Machine

/-! ## The loader -/

/-- The fields of `Elf64_Phdr` that `loadElf` reads. -/
structure Phdr where
  type : Nat
  flags : Nat
  offset : Nat
  vaddr : Nat
  filesz : Nat
  memsz : Nat
deriving DecidableEq, Inhabited

namespace Phdr

/-- `vma->end`. -/
def vmEnd (ph : Phdr) : Nat := (ph.vaddr + ph.memsz) % 2 ^ 64

/-- `size`, the number of pages that `loadElf` maps for a segment. -/
def pages (ph : Phdr) : Nat :=
  sub64 ((ph.vmEnd / 4096 * 4096 + 4096) % 2 ^ 64) (ph.vaddr / 4096 * 4096) / 4096

/-- The segments that are copied from the file. -/
def IsCopied (ph : Phdr) : Prop := ph.flags = 6 ∨ ph.flags = 5

instance (ph : Phdr) : Decidable ph.IsCopied := inferInstanceAs (Decidable (_ ∨ _))

end Phdr

namespace Machine

def readPhdr (s : Machine) (a : Nat) : Option Phdr :=
  (s.readBytes a 4).bind fun type ↦ (s.readBytes (a + 4) 4).bind fun flags ↦
  (s.readBytes (a + 8) 8).bind fun offset ↦ (s.readBytes (a + 16) 8).bind fun vaddr ↦
  (s.readBytes (a + 32) 8).bind fun filesz ↦ (s.readBytes (a + 40) 8).map fun memsz ↦
    ⟨type, flags, offset, vaddr, filesz, memsz⟩

/-- `while (size > 0)`: a new page for each page of a segment. -/
def mapPages : Nat → Nat → Machine → Machine
  | 0, _, s => s
  | size + 1, start, s => mapPages size ((start + 4096) % 2 ^ 64) (s.mapNew start)

end Machine

namespace Kernel

def setRip (k : Kernel) (task rip : Nat) : Kernel :=
  { k with procs := k.procs.modify task fun p ↦ { p with rip := rip } }

def setRsp (k : Kernel) (task rsp : Nat) : Kernel :=
  { k with procs := k.procs.modify task fun p ↦ { p with rsp := rsp } }

/-- `mm->current->next = vma`. -/
def linkCurrent (k : Kernel) (mm vma : Nat) : Kernel :=
  let cur := (k.mms mm).current
  k.setVma cur { k.vmas cur with next := vma }

/-- `mm->current = vma; mm->vma_count++`. -/
def setCurrent (k : Kernel) (mm vma : Nat) : Kernel :=
  k.setMm mm { k.mms mm with current := vma, vmaCount := ((k.mms mm).vmaCount + 1) % 2 ^ 64 }

/-- The VMA of a segment, at the end of the list. -/
def segmentVma (k : Kernel) (mm vma : Nat) (ph : Phdr) : Kernel :=
  let k := k.setVma vma { start := ph.vaddr, vmEnd := ph.vmEnd, flag := ph.flags }
  let k := if (k.mms mm).mmap = 0 then k.setMm mm { k.mms mm with mmap := vma }
    else k.linkCurrent mm vma
  (k.setVma vma { k.vmas vma with mm := mm }).setCurrent mm vma

/-- The copy of a segment; `none` when it faults. -/
def copySegment (k : Kernel) (ehdr mm : Nat) (ph : Phdr) : Option Kernel :=
  if ph.IsCopied then
    let k := k.setMm mm { k.mms mm with startCode := ph.vaddr, endCode := ph.vmEnd }
    (k.memcpy ph.vaddr ((ehdr + ph.offset) % 2 ^ 64) ph.filesz).map k.onMachine
  else some k

/-- The `file` record of a segment and the type of its VMA. -/
def segmentFile (k : Kernel) (ehdr vma : Nat) (ph : Phdr) : Kernel :=
  let (file, s) := k.kmalloc
  let bssSize := if ph.flags = 6 then sub64 ph.memsz ph.filesz else 0
  let type : VmaType := if ph.flags = 5 then .text else if ph.flags = 6 then .data else .noType
  ((k.onMachine s).setFile file
    { start := ehdr, pgoff := ph.offset, size := ph.filesz, bssSize := bssSize }).setVma vma
    { k.vmas vma with file := file, type := type }

/-- The body of the loop over the program headers. -/
def loadSegment (k : Kernel) (ehdr mm : Nat) (ph : Phdr) : Option Kernel :=
  if ph.type = 1 then
    let (vma, s) := k.kmalloc
    let k := (k.onMachine s).segmentVma mm vma ph
    let k := k.onMachine (k.mapPages ph.pages (ph.vaddr / 4096 * 4096))
    (k.copySegment ehdr mm ph).map fun k ↦ k.segmentFile ehdr vma ph
  else some k

def loadSegments (ehdr mm : Nat) : Nat → Nat → Kernel → Option Kernel
  | 0, _, k => some k
  | n + 1, phdr, k => (k.readPhdr phdr).bind fun ph ↦
      (k.loadSegment ehdr mm ph).bind (loadSegments ehdr mm n ((phdr + 56) % 2 ^ 64))

/-- The stack.  Without a segment the write through `mm->current`, which is NULL, ends in a
segmentation fault: `none`. -/
def loadStack (k : Kernel) (task mm : Nat) : Option Kernel :=
  let (stack, s) := k.kmalloc
  let k := k.onMachine s
  let k := k.setVma stack {}
  let k := if (k.mms mm).mmap = 0 then k.setMm mm { k.mms mm with mmap := stack }
    else k.linkCurrent mm stack
  -- without a VMA before it nothing has set `mm->current`
  if (k.mms mm).current = 0 then none
  else
    let k := (k.linkCurrent mm stack).setCurrent mm stack
    let k := k.onMachine (k.mapNew userStackTop)
    let k := k.setVma stack { k.vmas stack with
      start := userStackTop + 4096, vmEnd := userStackTop, flag := 5, type := .stack, file := 0,
      next := 0 }
    some (k.setRsp task (userStackTop + 4096 - 16))

def loadHeap (k : Kernel) (mm : Nat) : Kernel :=
  let (heap, s) := k.kmalloc
  let k := ((k.onMachine s).linkCurrent mm heap).setCurrent mm heap
  let k := k.setMm mm { k.mms mm with brk := heapStart }
  let k := k.setVma heap
    { mm := mm, start := heapStart, vmEnd := heapStart + 4096, flag := 5, type := .heap }
  k.onMachine (k.mapNew heapStart)

/-- `loadElf` behind the test of the magic number of the file at `ehdr`. -/
def loadProgram (k : Kernel) (task ehdr : Nat) : Option Kernel :=
  (k.readBytes (ehdr + 32) 8).bind fun phoff ↦ (k.readBytes (ehdr + 24) 8).bind fun entry ↦
  (k.readBytes (ehdr + 56) 2).bind fun phnum ↦
    let mm := (k.procs.pcbs task).mm
    let k := (k.setRip task entry).setMm mm { k.mms mm with mmap := 0 }
    (loadSegments ehdr mm phnum ((ehdr + phoff) % 2 ^ 64) k).bind fun k ↦
      (k.loadStack task mm).map fun k ↦ k.loadHeap mm

/-- `loadElf` for the file whose header is at `ehdr`. -/
def loadFile (k : Kernel) (task ehdr : Nat) : Option Kernel :=
  (k.readBytes (ehdr + 1) 1).bind fun c₁ ↦ (k.readBytes (ehdr + 2) 1).bind fun c₂ ↦
  (k.readBytes (ehdr + 3) 1).bind fun c₃ ↦
    if c₁ = 0x45 ∧ c₂ = 0x4c ∧ c₃ = 0x46 then k.loadProgram task ehdr else some k

/-- `loadElf(filename, task)`, with the archive at `tarfs`; it returns NULL in any case. -/
def loadElf (k : Kernel) (tarfs fuel : Nat) (filename : CString) (task : Nat) : Option Kernel :=
  (k.getFile filename fuel tarfs).bind fun ehdr ↦ k.loadFile task ehdr

end Kernel

end Sbunix
