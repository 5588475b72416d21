import Sbunix.Sys.Process
import Sbunix.Sys.VirtualMemory

/-!
# The kernel: `forkSyscall` and `pageFault`

The machine, the processes, and the `mm_struct`, `vma_struct` and `file` records that `kmalloc`
gives a page of their own each: maps from addresses to records, with NULL at 0.
-/

namespace Sbunix

open Reasoning

/-- `enum vma_types`; a cleared record has the first. -/
inductive VmaType where
  | text | data | stack | heap | noType
deriving DecidableEq, Repr, Inhabited

/-- `struct file`. -/
structure File where
  start : Nat := 0
  pgoff : Nat := 0
  size : Nat := 0
  bssSize : Nat := 0
deriving DecidableEq, Inhabited

/-- `vma_struct`; `vmEnd` is its field `end`. -/
structure Vma where
  mm : Nat := 0
  start : Nat := 0
  vmEnd : Nat := 0
  flag : Nat := 0
  type : VmaType := .text
  next : Nat := 0
  file : Nat := 0
deriving DecidableEq, Inhabited

/-- `mm_struct`. -/
structure Mm where
  mmap : Nat := 0
  current : Nat := 0
  startStack : Nat := 0
  mmapBase : Nat := 0
  brk : Nat := 0
  startBrk : Nat := 0
  endData : Nat := 0
  startDate : Nat := 0
  endCode : Nat := 0
  startCode : Nat := 0
  vmaCount : Nat := 0
deriving DecidableEq, Inhabited

def userStackTop : Nat := 0x22222000000
def heapStart : Nat := 0x08000000
def stackLimit : Nat := 0x20000
def heapEnd : Nat := 0x10000000

structure Kernel extends Machine where
  procs : Procs
  mms : Nat → Mm
  vmas : Nat → Vma
  files : Nat → File

/-- Subtraction of `uint64_t`. -/
def sub64 (a b : Nat) : Nat := (a + 2 ^ 64 - b) % 2 ^ 64

/-! ## The copy of the page tables -/

namespace Machine

/-- `for (i = 0; i < n; i++)` over the entries of a table. -/
def forEntries (body : Fin 512 → Machine → Machine) : (n : Nat) → n ≤ 512 → Machine → Machine
  | 0, _, s => s
  | n + 1, h, s => body ⟨n, h⟩ (forEntries body n (Nat.le_of_succ_le h) s)

/-- The body of the innermost loop: a present page is shared, read-only and marked, by both. -/
def copyPageEntry (pPte cPte : Nat) (i : Fin 512) (s : Machine) : Machine :=
  let e := s.readEntry pPte i
  if e &&& pBit ≠ 0 then
    let e := frame e ||| (pBit ||| uBit ||| cowBit)
    (s.writeEntry cPte i e).writeEntry pPte i e
  else s

def copyPte (pPte cPte : Nat) (s : Machine) : Machine :=
  forEntries (copyPageEntry pPte cPte) 512 (Nat.le_refl 512) s

/-- The body of the outer loops: a present table gets a table of the child, filled by the next
loop. -/
def copyTableEntry (alloc : Machine → Nat → Fin 512 → Char → Nat × Machine)
    (inner : Nat → Nat → Machine → Machine) (pTable cTable : Nat) (i : Fin 512) (s : Machine) :
    Machine :=
  let e := s.readEntry pTable i
  if e &&& pBit ≠ 0 then
    let (c, s) := alloc s cTable i 'V'
    inner (kptr (frame e)) c s
  else s

def copyPde (pPde cPde : Nat) (s : Machine) : Machine :=
  forEntries (copyTableEntry pteAlloc copyPte pPde cPde) 512 (Nat.le_refl 512) s

def copyPdpe (pPdpe cPdpe : Nat) (s : Machine) : Machine :=
  forEntries (copyTableEntry pdeAlloc copyPde pPdpe cPdpe) 512 (Nat.le_refl 512) s

def copyPml4e (pPml4e cPml4e : Nat) (s : Machine) : Machine :=
  forEntries (copyTableEntry pdpeAlloc copyPdpe pPml4e cPml4e) 510 (by decide) s

/-- Lines 286 to 332 of `forkSyscall`: the tables of the child. -/
def forkTables (s : Machine) (childCR3 : Nat) : Machine :=
  let pPml4e := kptr s.cr3
  let cPml4e := kptr childCR3
  let s := s.copyPml4e pPml4e cPml4e
  -- the kernel's two entries are copied as they are
  let s := s.writeEntry cPml4e 511 (s.readEntry pPml4e 511)
  s.writeEntry cPml4e 510 (s.readEntry pPml4e 510)

end Machine

namespace Kernel

def onMachine (k : Kernel) (s : Machine) : Kernel := { k with toMachine := s }

def setMm (k : Kernel) (a : Nat) (mm : Mm) : Kernel :=
  { k with mms := Function.update k.mms a mm }

def setVma (k : Kernel) (a : Nat) (vma : Vma) : Kernel :=
  { k with vmas := Function.update k.vmas a vma }

def setFile (k : Kernel) (a : Nat) (file : File) : Kernel :=
  { k with files := Function.update k.files a file }

section
variable (k : Kernel) (s : Machine) (a : Nat) (mm : Mm) (vma : Vma) (file : File)

@[simp] theorem onMachine_toMachine : (k.onMachine s).toMachine = s := rfl
@[simp] theorem onMachine_procs : (k.onMachine s).procs = k.procs := rfl
@[simp] theorem onMachine_mms : (k.onMachine s).mms = k.mms := rfl
@[simp] theorem onMachine_vmas : (k.onMachine s).vmas = k.vmas := rfl
@[simp] theorem onMachine_files : (k.onMachine s).files = k.files := rfl
@[simp] theorem setMm_toMachine : (k.setMm a mm).toMachine = k.toMachine := rfl
@[simp] theorem setMm_procs : (k.setMm a mm).procs = k.procs := rfl
@[simp] theorem setMm_mms : (k.setMm a mm).mms = Function.update k.mms a mm := rfl
@[simp] theorem setMm_vmas : (k.setMm a mm).vmas = k.vmas := rfl
@[simp] theorem setMm_files : (k.setMm a mm).files = k.files := rfl
@[simp] theorem setVma_toMachine : (k.setVma a vma).toMachine = k.toMachine := rfl
@[simp] theorem setVma_procs : (k.setVma a vma).procs = k.procs := rfl
@[simp] theorem setVma_mms : (k.setVma a vma).mms = k.mms := rfl
@[simp] theorem setVma_vmas : (k.setVma a vma).vmas = Function.update k.vmas a vma := rfl
@[simp] theorem setVma_files : (k.setVma a vma).files = k.files := rfl
@[simp] theorem setFile_toMachine : (k.setFile a file).toMachine = k.toMachine := rfl
@[simp] theorem setFile_procs : (k.setFile a file).procs = k.procs := rfl
@[simp] theorem setFile_mms : (k.setFile a file).mms = k.mms := rfl
@[simp] theorem setFile_vmas : (k.setFile a file).vmas = k.vmas := rfl
@[simp] theorem setFile_files : (k.setFile a file).files = Function.update k.files a file := rfl

end

/-! ## Fork -/

/-- `if (p_vma->file != NULL)`: the copy gets a `file` record of its own. -/
def forkFile (k : Kernel) (pVma cVma : Nat) : Kernel :=
  if (k.vmas pVma).file ≠ 0 then
    let (file, s) := k.kmalloc
    let k := (k.onMachine s).setVma cVma { k.vmas cVma with file := file }
    k.setFile file (k.files (k.vmas pVma).file)
  else k

/-- The page of the next copy, hung under `mm` when it is the first. -/
def forkNode (k : Kernel) (mm cVma : Nat) (flag : Bool) : Nat × Kernel :=
  let flag := if cVma = 0 then true else flag
  let (cVma, s) := k.kmalloc
  let k := k.onMachine s
  (cVma, if flag then k.setMm mm { k.mms mm with mmap := cVma } else k)

/-- The body of the loop over the parent's VMAs. -/
def forkVma (k : Kernel) (mm pVma cVma : Nat) (flag : Bool) : Nat × Kernel :=
  let (cVma, k) := k.forkNode mm cVma flag
  (cVma, (k.setVma cVma (k.vmas pVma)).forkFile pVma cVma)

/-- `while (p_vma != NULL)`; after its body `flag` is 0 again. -/
def forkVmas (mm : Nat) : Nat → Nat → Nat → Kernel → Option (Nat × Kernel)
  | 0, _, _, _ => none
  | fuel + 1, pVma, cVma, k =>
      if pVma = 0 then some (cVma, k)
      else
        let (cVma, k) := k.forkVma mm pVma cVma false
        forkVmas mm fuel (k.vmas pVma).next cVma k

/-- What the registers hold in `forkSyscall`: the result of `read_rip` and the stack pointer. -/
structure ForkRegs where
  rip : Nat
  pos : Nat

/-- Lines 262 to 342 of `forkSyscall`: the PCB, the tables and the `mm_struct` of the child. -/
def forkSpace (k : Kernel) : Nat × Nat × Nat × Kernel :=
  let parent := k.procs.current
  let (child, s) := k.kmalloc
  let (cr3, s) := s.allocatePage
  let k := { k.onMachine s with procs := k.procs.forkLink ⟨child, cr3, 0, 0, 0, 0⟩ }
  let k := k.onMachine (k.forkTables cr3)
  let k := k.onMachine (k.loadCR3 cr3)
  let (mm, s) := k.kmalloc
  let k := k.onMachine s
  (child, cr3, mm, k.setMm mm (k.mms (k.procs.pcbs parent).mm))

/-- Lines 364 to 378 of `forkSyscall`: the link of the last copy, the kernel stack, and the rest of
the child's PCB. -/
def forkStack (k : Kernel) (child cr3 mm cVma : Nat) (regs : ForkRegs) : Option Kernel :=
  let parent := k.procs.pcbs k.procs.current
  -- the copies before it still have the links of the parent's VMAs
  let k := if cVma ≠ 0 then k.setVma cVma { k.vmas cVma with next := 0 } else k
  let (kstack, s) := k.kmalloc
  (s.memcpy kstack (sub64 parent.kstack (0x1000 - 16)) (0x1000 - 16)).map fun s ↦
    { k with
      toMachine := s.loadCR3 parent.cr3
      procs := k.procs.forkChild ⟨child, cr3, mm, kstack, regs.rip, regs.pos⟩ }

/-- `forkSyscall()` as the parent sees it; `fuel` bounds the walk over its VMAs. -/
def forkSyscall (k : Kernel) (fuel : Nat) (regs : ForkRegs) : Option Kernel :=
  let parent := k.procs.current
  let (child, cr3, mm, k) := k.forkSpace
  let pVma := (k.mms (k.procs.pcbs parent).mm).mmap
  let k := k.setMm mm { k.mms mm with mmap := 0 }
  (forkVmas mm fuel pVma 0 k).bind fun (cVma, k) ↦ k.forkStack child cr3 mm cVma regs

/-! ## Page faults -/

/-- The copy-on-write branch of `pageFault`. -/
def copyOnWrite (s : Machine) (faultAddr cr3 : Nat) : Option Machine :=
  let (virAddr, s) := s.kmalloc
  (s.physicalAddress (frame virAddr)).bind fun pAddr ↦
    let v := frame faultAddr
    (s.memcpy virAddr v 4096).map fun s ↦ (s.mapVP2 v pAddr).loadCR3 cr3

/-- `while (fault_addr < end) end = end - PAGE_SIZE`. -/
def heapPage (faultAddr : Nat) : Nat → Nat → Option Nat
  | 0, _ => none
  | fuel + 1, vmEnd =>
      if faultAddr < vmEnd then heapPage faultAddr fuel (sub64 vmEnd 4096) else some vmEnd

def setVmEnd (k : Kernel) (vma vmEnd : Nat) : Kernel :=
  k.setVma vma { k.vmas vma with vmEnd := vmEnd }

/-- The test of the stack branch. -/
def stackFault (vma : Vma) (faultAddr : Nat) : Prop :=
  vma.type = .stack ∧ faultAddr ≤ vma.vmEnd ∧
    sub64 (sub64 vma.start vma.vmEnd) 4096 ≤ stackLimit ∧
    sub64 (sub64 faultAddr vma.vmEnd) 4096 ≤ stackLimit

instance (vma : Vma) (a : Nat) : Decidable (stackFault vma a) :=
  inferInstanceAs (Decidable (_ ∧ _ ∧ _ ∧ _))

/-- The loop over the VMAs; the second component tells whether one has taken the fault. -/
def faultVmas (faultAddr : Nat) : Nat → Nat → Kernel → Option (Kernel × Bool)
  | 0, _, _ => none
  | fuel + 1, vma, k =>
      if vma = 0 then some (k, false)
      else
        let a := k.vmas vma
        if a.type = .heap ∧ a.start ≤ faultAddr ∧ faultAddr ≤ heapEnd then
          -- at the end of the VMA, or the page of the address below it
          (heapPage faultAddr fuel a.vmEnd).map fun vmEnd ↦
            let (p, s) := k.allocatePage
            ((k.onMachine (s.mapVP2 vmEnd p)).setVmEnd vma ((vmEnd + 4096) % 2 ^ 64), true)
        else if stackFault a faultAddr then
          let stack := sub64 a.vmEnd 4096
          let (p, s) := k.allocatePage
          some ((k.onMachine (s.mapVP2 a.vmEnd p)).setVmEnd vma stack, true)
        else faultVmas faultAddr fuel a.next k

/-- `pageFault` returns to the process, or it stops the machine after a segmentation fault. -/
inductive FaultResult where
  | resume (k : Kernel)
  | halt (k : Kernel)

/-- `pageFault(regs)` with CR2 = `faultAddr`; `none` when it faults itself or has not come to an end
after `fuel` steps of its loops. -/
def pageFault (k : Kernel) (fuel errCode faultAddr : Nat) : Option FaultResult :=
  let errCode := errCode &&& 0xF
  let pcb := k.procs.pcbs k.procs.current
  let search (fault : Bool) : Option FaultResult :=
    if pcb.mm = 0 then none
    else
      (faultVmas faultAddr fuel (k.mms pcb.mm).mmap k).map fun (k, found) ↦
        if fault && !found then .halt k else .resume k
  -- a write to a page that is present
  if errCode &&& pBit ≠ 0 ∧ errCode &&& wBit ≠ 0 then
    (k.physicalAddress faultAddr).bind fun pFault ↦
      if pFault &&& cowBit ≠ 0 then
        (copyOnWrite k.toMachine faultAddr pcb.cr3).map fun s ↦ .resume (k.onMachine s)
      else search false
  else search (errCode &&& pBit = 0)

/-- A fault changes the machine only, or it is the search through the VMAs that has an effect. -/
theorem pageFault_cases {k : Kernel} {fuel errCode faultAddr : Nat} {r : FaultResult}
    (h : k.pageFault fuel errCode faultAddr = some r) :
    (∃ s, r = .resume (k.onMachine s)) ∨ ∃ k' found,
      faultVmas faultAddr fuel (k.mms (k.procs.pcbs k.procs.current).mm).mmap k =
        some (k', found) ∧ (r = .resume k' ∨ r = .halt k') := by
  have hsearch : ∀ fault : Bool,
      (if (k.procs.pcbs k.procs.current).mm = 0 then none
        else (faultVmas faultAddr fuel (k.mms (k.procs.pcbs k.procs.current).mm).mmap k).map
          fun p ↦ if fault && !p.2 then FaultResult.halt p.1 else .resume p.1) = some r →
        ∃ k' found, faultVmas faultAddr fuel (k.mms (k.procs.pcbs k.procs.current).mm).mmap k =
          some (k', found) ∧ (r = .resume k' ∨ r = .halt k') := by
    intro fault h
    split at h
    · cases h
    · rw [Option.map_eq_some_iff] at h
      obtain ⟨⟨k', found⟩, hk', rfl⟩ := h
      refine ⟨k', found, hk', ?_⟩
      dsimp only
      split
      · exact Or.inr rfl
      · exact Or.inl rfl
  unfold pageFault at h
  dsimp only at h
  split at h
  · rw [Option.bind_eq_some_iff] at h
    obtain ⟨e, -, h⟩ := h
    split at h
    · -- a copy-on-write fault changes the machine only
      rw [Option.map_eq_some_iff] at h
      obtain ⟨s, -, rfl⟩ := h
      exact Or.inl ⟨s, rfl⟩
    · exact Or.inr (hsearch _ h)
  · exact Or.inr (hsearch _ h)

end Kernel

end Sbunix
