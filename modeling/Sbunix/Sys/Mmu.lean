import Sbunix.Reasoning.ByteMemory
import Sbunix.Sys.Page
import Mathlib.Data.Fin.Basic
import Mathlib.Algebra.Order.Group.Nat

/-!
# Page tables (`sys/mmu.c`)

Physical memory is byte-addressed, and a table is a page of 512 little-endian words.  The kernel
reaches physical memory through the window at `0xffffffff80000000` that `phy2vir` maps; before that
table is loaded its pointers are physical addresses.  User addresses go through the tables.
-/

namespace Sbunix

open Reasoning

/-- The physical memory, the register CR3 and the globals of `page.c`. -/
structure Machine where
  mem : Memory
  cr3 : Nat
  alloc : PageAlloc

def pBit : Nat := 0x1
def wBit : Nat := 0x2
def uBit : Nat := 0x4
def cowBit : Nat := 0x100

/-- The mask `0xFFFFFFFFFFFFF000` of the frame in a table entry. -/
def frameMask : Nat := 0xFFFFFFFFFFFFF000

/-- The start of the kernel's window on physical memory. -/
def kernBase : Nat := 0xffffffff80000000

/-- `(uint64_t)p | 0xffffffff80000000UL`. -/
def kptr (p : Nat) : Nat := p ||| kernBase

/-- The physical address behind a pointer of the kernel. -/
def phys (q : Nat) : Nat := if kernBase ≤ q then q - kernBase else q

def frame (e : Nat) : Nat := e &&& frameMask

abbrev Present (e : Nat) : Prop := e &&& pBit ≠ 0

/-- The numerals among the indices of a table. -/
instance neZero_entries : NeZero 512 := ⟨by decide⟩

/-- `(address >> shift) & 0x1FF`. -/
def getIndex (address shift : Nat) : Fin 512 :=
  ⟨(address >>> shift) &&& 0x1FF, Nat.lt_of_le_of_lt Nat.and_le_right (by omega)⟩

/-- Entry `i` of the table in the page at physical address `t`. -/
def entry (mem : Memory) (t : Nat) (i : Fin 512) : Nat := mem.load64 (t + 8 * i)

namespace Machine

/-- `table->entries[i]`, of a table that the window leads to. -/
def readEntry (s : Machine) (table : Nat) (i : Fin 512) : Nat := entry s.mem (phys table) i

/-- `table->entries[i] = e`, of a table that the window leads to. -/
def writeEntry (s : Machine) (table : Nat) (i : Fin 512) (e : Nat) : Machine :=
  { s with mem := s.mem.store64 (phys table + 8 * i) e }

/-- `memset(ptr, val, size)`. -/
def memset (s : Machine) (ptr : Nat) (val : UInt8) (size : Nat) : Machine :=
  { s with mem := s.mem.fill (phys ptr) size val }

def loadCR3 (s : Machine) (cr3 : Nat) : Machine := { s with cr3 := cr3 }

def allocatePage (s : Machine) : Nat × Machine :=
  let (a, alloc) := s.alloc.allocatePage
  (a, { s with alloc := alloc })

/-- The common body of `pdpeAlloc`, `pdeAlloc` and `pteAlloc`: a cleared table is hung on entry `i`
of the table above. -/
def tableAlloc (s : Machine) (above : Nat) (i : Fin 512) (mode : Char) : Nat × Machine :=
  let (p, s) := s.allocatePage
  let table := if mode = 'V' then kptr p else p
  let s := s.memset table 0 4096
  let e := if mode = 'V' then p ||| uBit else p
  (table, s.writeEntry above i (e ||| (pBit ||| wBit)))

def pdpeAlloc (s : Machine) (pml4e : Nat) (pml4eI : Fin 512) (mode : Char) : Nat × Machine :=
  s.tableAlloc pml4e pml4eI mode

def pdeAlloc (s : Machine) (pdpe : Nat) (pdpeI : Fin 512) (mode : Char) : Nat × Machine :=
  s.tableAlloc pdpe pdpeI mode

def pteAlloc (s : Machine) (pde : Nat) (pdeI : Fin 512) (mode : Char) : Nat × Machine :=
  s.tableAlloc pde pdeI mode

/-- One level of `map_v_p2`: the table that entry `i` leads to, allocated when it is missing. -/
def nextTable (alloc : Machine → Nat → Fin 512 → Char → Nat × Machine) (s : Machine) (table : Nat)
    (i : Fin 512) : Nat × Machine :=
  let e := s.readEntry table i
  if e &&& pBit ≠ 0 then (kptr (frame e), s) else alloc s table i 'V'

def mapVP2 (s : Machine) (virtualAddress physicalAddress : Nat) : Machine :=
  let pml4e := kptr s.cr3
  let (pdpe, s) := nextTable pdpeAlloc s pml4e (getIndex virtualAddress 39)
  let (pde, s) := nextTable pdeAlloc s pdpe (getIndex virtualAddress 30)
  let (pte, s) := nextTable pteAlloc s pde (getIndex virtualAddress 21)
  s.writeEntry pte (getIndex virtualAddress 12) (physicalAddress ||| (pBit ||| uBit ||| wBit))

/-- `map_v_p2(v, (uint64_t)allocatePage())`. -/
def mapNew (s : Machine) (v : Nat) : Machine :=
  let (p, s) := s.allocatePage
  s.mapVP2 v p

/-- `physicalAddress(virtual_address)`.  The function goes on from a NULL table above the last
level, which is no state of the model: `none`. -/
def physicalAddress (s : Machine) (virtualAddress : Nat) : Option Nat :=
  let pml4eEntry := s.readEntry (kptr s.cr3) (getIndex virtualAddress 39)
  if pml4eEntry &&& pBit = 0 then none
  else
    let pdpeEntry := s.readEntry (kptr (frame pml4eEntry)) (getIndex virtualAddress 30)
    if pdpeEntry &&& pBit = 0 then none
    else
      let pdeEntry := s.readEntry (kptr (frame pdpeEntry)) (getIndex virtualAddress 21)
      if pdeEntry &&& pBit = 0 then some 0
      else some (s.readEntry (kptr (frame pdeEntry)) (getIndex virtualAddress 12))

/-- `setUserSpace()`: the physical address of a top-level table that shares the kernel's entry. -/
def setUserSpace (s : Machine) : Nat × Machine :=
  let (newPML4E, s) := s.allocatePage
  -- the other entries are what the page held
  (newPML4E, s.writeEntry (kptr newPML4E) 511 (s.readEntry (kptr s.cr3) 511))

/-- `kmalloc()`: the address of a cleared page in the window. -/
def kmalloc (s : Machine) : Nat × Machine :=
  let (p, s) := s.allocatePage
  let v := kptr p
  (v, (s.mapVP2 v p).memset v 0 4096)

end Machine

/-! ## Entries and pointers -/

variable {p e t : Nat} {i j : Fin 512} {mem mem' : Memory}

theorem kptr_eq (h : p < 2 ^ 31) : kptr p = kernBase + p := by
  rw [kptr, Nat.or_comm, kernBase]
  exact or_low (n := 31) (by decide) h

@[simp] theorem phys_kptr (h : p < 2 ^ 31) : phys (kptr p) = p := by
  rw [kptr_eq h, phys, if_pos (Nat.le_add_right _ _), Nat.add_sub_cancel_left]

theorem kptr_ne_zero (p : Nat) : kptr p ≠ 0 :=
  Nat.ne_of_gt (Nat.lt_of_lt_of_le (show 0 < kernBase by decide) Nat.right_le_or)

theorem frame_eq (h : e < 2 ^ 64) : frame e = e / 4096 * 4096 := and_high (n := 12) (k := 52) h

theorem frame_dvd (h : e < 2 ^ 64) : 4096 ∣ frame e := frame_eq h ▸ Nat.dvd_mul_left _ _

theorem entry_lt (mem : Memory) (t : Nat) (i : Fin 512) : entry mem t i < 2 ^ 64 :=
  Memory.load64_lt mem _

theorem getIndex_val (v n : Nat) : (getIndex v n).val = v / 2 ^ n % 512 := by
  change (v >>> n) &&& 0x1FF = _
  rw [Nat.shiftRight_eq_div_pow]
  exact and_low _ 9

/-- A page-aligned frame with flags. -/
theorem frame_or {b : Nat} (hp : 4096 ∣ p) (h : p < 2 ^ 64) (hb : b < 4096) : frame (p ||| b) = p := by
  rw [or_low (n := 12) hp hb, frame_eq (by omega)]
  omega

theorem or_and_flag {b c : Nat} (hp : 4096 ∣ p) (hc : c < 4096) : (p ||| b) &&& c = b &&& c :=
  or_low_and (n := 12) hp hc

/-! ## Writing entries and pages -/

theorem entry_congr (h : ∀ x, t ≤ x → x < t + 4096 → mem' x = mem x) (i : Fin 512) :
    entry mem' t i = entry mem t i :=
  Memory.load64_congr fun x _ _ ↦ h x (by omega) (by omega)

theorem entry_store64_self (he : e < 2 ^ 64) : entry (mem.store64 (t + 8 * i) e) t i = e :=
  Memory.load64_store64 he

theorem entry_store64_of_ne {u : Nat} (ht : 4096 ∣ t) (hu : 4096 ∣ u) (h : (u, j) ≠ (t, i)) :
    entry (mem.store64 (t + 8 * i) e) u j = entry mem u j := by
  refine Memory.load64_store64_of_disjoint ?_
  by_cases hut : u = t
  · have hji : (j : Nat) ≠ i := fun hji ↦ h (Prod.ext hut (Fin.ext hji))
    omega
  · omega

theorem entry_fill_self : entry (mem.fill t 4096 0) t i = 0 :=
  Memory.load64_fill_zero (by omega) (by omega)

theorem entry_fill_of_ne {u : Nat} {b : UInt8} (ht : 4096 ∣ t) (hu : 4096 ∣ u) (h : u ≠ t) :
    entry (mem.fill t 4096 b) u j = entry mem u j :=
  Memory.load64_fill_of_disjoint (by omega)

end Sbunix
