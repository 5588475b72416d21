import Sbunix.Sys.HeapGrowth

/-!
# What earlier owners of a frame leave to a program

The frames of a new process are not cleared.  Two machines that differ in the free frames alone load
the same file, and the process can tell them apart at every byte that was not copied from the file.
-/

namespace Sbunix

open Reasoning Kernel

variable {k k' k₁ k₂ : Kernel} {w v ehdr tarfs fuel task len : Nat} {free : List Nat}
  {img : Nat → Option UInt8} {file file' : Nat → UInt8} {ph : Phdr} {phs : List Phdr} {f : Elf}
  {filename : CString}

/-! ## Images of the same file -/

theorem Phdr.load_congr (hf : ph.type = 1 → ph.Fits len) (h : ∀ x < len, file' x = file x) :
    ph.load file' img = ph.load file img := by
  rw [Phdr.load, Phdr.load]
  by_cases ht : ph.type = 1
  · rw [if_pos ht, if_pos ht]
    have hfile := (hf ht).file
    dsimp only
    split
    · funext a
      rw [copyBytes, copyBytes]
      split
      · rw [h _ (by omega)]
      · rfl
    · rfl
  · rw [if_neg ht, if_neg ht]

theorem segmentsImage_congr (hf : ∀ ph ∈ phs, ph.type = 1 → ph.Fits len)
    (h : ∀ x < len, file' x = file x) : segmentsImage file' phs img = segmentsImage file phs img := by
  induction phs generalizing img with
  | nil => rfl
  | cons ph phs ih =>
      rw [List.forall_mem_cons] at hf
      change segmentsImage file' phs (ph.load file' img) =
        segmentsImage file phs (ph.load file img)
      rw [Phdr.load_congr hf.1 h, ih hf.2]

theorem programImage_congr (hf : ∀ ph ∈ phs, ph.type = 1 → ph.Fits len)
    (h : ∀ x < len, file' x = file x) : programImage file' phs = programImage file phs := by
  rw [programImage, programImage, segmentsImage_congr hf h]

/-! ## What the process can tell -/

/-- The byte at `v` is the same whatever the free frames held. -/
def SameByte (k : Kernel) (free : List Nat) (tarfs fuel : Nat) (filename : CString)
    (task v : Nat) : Prop :=
  ∀ g g' k₁ k₂, (k.refill free g).loadElf tarfs fuel filename task = some k₁ →
    (k.refill free g').loadElf tarfs fuel filename task = some k₂ →
    k₁.readAs task v = k₂.readAs task v

/-- On its pages the process sees the same exactly where the file has put a byte. -/
theorem Archived.sameByte_iff (h : Archived w k free tarfs fuel filename task ehdr f)
    (hv : v < 2 ^ 47) (hp : ProgramPage f.phdrs (v / 4096)) :
    SameByte k free tarfs fuel filename task v ↔
      programImage (k.fileByte ehdr) f.phdrs v ≠ none := by
  have himg : ∀ g, programImage ((k.refill free g).fileByte ehdr) f.phdrs =
      programImage (k.fileByte ehdr) f.phdrs := fun g ↦
    programImage_congr h.elf.fits fun x hx ↦ h.elf.file.fileByte hx
  have hread : ∀ g k', (k.refill free g).loadElf tarfs fuel filename task = some k' →
      ∃ y, k'.readAs task v =
        some ((programImage (k.fileByte ehdr) f.phdrs v).getD (g y)) := by
    intro g k' hk'
    obtain ⟨k₁, A, free', hk₁, hprog⟩ := h.loadElf g
    obtain rfl : k₁ = k' := Option.some.inj (hk₁.symm.trans hk')
    obtain ⟨n, hn, hr⟩ := hprog.readAs (h.space.refill g).1 h.cr3 hv hp
    refine ⟨n * 4096 + v % 4096, ?_⟩
    rw [hr, himg g]
    exact congrArg (fun b ↦ some (Option.getD _ b)) (refill_of_mem hn (Nat.mod_lt _ (by decide)))
  constructor
  · intro hsame hnone
    -- frames full of zeros, and frames full of ones
    obtain ⟨k₁, A₁, free₁, hk₁, -⟩ := h.loadElf fun _ ↦ 0
    obtain ⟨k₂, A₂, free₂, hk₂, -⟩ := h.loadElf fun _ ↦ 1
    obtain ⟨y₁, hy₁⟩ := hread _ k₁ hk₁
    obtain ⟨y₂, hy₂⟩ := hread _ k₂ hk₂
    have he := hsame _ _ k₁ k₂ hk₁ hk₂
    rw [hy₁, hy₂, hnone] at he
    exact absurd he (by decide)
  · intro hsome g g' k₁ k₂ hk₁ hk₂
    obtain ⟨b, hb⟩ := Option.ne_none_iff_exists'.mp hsome
    obtain ⟨y₁, hy₁⟩ := hread g k₁ hk₁
    obtain ⟨y₂, hy₂⟩ := hread g' k₂ hk₂
    rw [hy₁, hy₂, hb, Option.getD_some, Option.getD_some]

/-- `pageFault` handles the faults `l` one after the other. -/
def heapFaults (fuel : Nat) : List (Nat × Nat) → Kernel → Option Kernel
  | [], k => some k
  | (errCode, a) :: l, k =>
      (k.pageFault fuel errCode a).bind fun
        | .resume k => heapFaults fuel l k
        | .halt _ => none

def Kernel.switchedTo (k : Kernel) (task : Nat) : Kernel :=
  { k with procs := { k.procs with current := task } }

/-- What the process reads does not depend on the free frames, after `loadElf` and after any faults
on its heap, and the bytes of a segment that the file has not are zero. -/
def NoResidue (k : Kernel) (free : List Nat) (tarfs fuel : Nat) (filename : CString)
    (task : Nat) (f : Elf) : Prop :=
  ∀ g g' k₁ k₂, (k.refill free g).loadElf tarfs fuel filename task = some k₁ →
    (k.refill free g').loadElf tarfs fuel filename task = some k₂ →
    (∀ v < 2 ^ 47, k₁.readAs task v = k₂.readAs task v) ∧
    (∀ ph ∈ f.phdrs, ph.type = 1 → ∀ i, ph.filesz ≤ i → i < ph.memsz →
      k₁.readAs task (ph.vaddr + i) = some 0) ∧
    ∀ fuel l k₁' k₂', (∀ x ∈ l, HeapAddress x.2) →
      heapFaults fuel l (k₁.switchedTo task) = some k₁' →
      heapFaults fuel l (k₂.switchedTo task) = some k₂' →
      ∀ v, HeapAddress v → k₁'.readAs task v = k₂'.readAs task v

theorem programImage_stack : programImage file phs userStackTop = none := by
  rw [programImage, clearPage, if_neg (by decide), clearPage, if_pos rfl]

/-- The page of the stack always tells. -/
theorem loadElf_residue (h : Archived w k free tarfs fuel filename task ehdr f) :
    ¬ NoResidue k free tarfs fuel filename task f := by
  intro hno
  have hsame : SameByte k free tarfs fuel filename task userStackTop := fun g g' k₁ k₂ hk₁ hk₂ ↦
    (hno g g' k₁ k₂ hk₁ hk₂).1 userStackTop (by decide)
  exact (h.sameByte_iff (by decide) (.inr (.inl rfl))).mp hsame programImage_stack

/-- A data segment with three bytes that the file has not. -/
theorem loadElf_residue_data :
    ¬ NoResidue (archiveKernel ⟨1, 6, 120, 0x400000, 5, 8⟩) (List.range' 20 44) 0xffffffff80040000
      20 (cstr "a") 0xffffffff8000c000 (archiveElf ⟨1, 6, 120, 0x400000, 5, 8⟩) :=
  loadElf_residue (archiveKernel_archived _ rfl ⟨by decide, by decide, by decide⟩ (by decide)
    (by decide) fun _ ↦ rfl)

/-- Zeros and ones in the free frames are zeros and ones on the stack. -/
theorem loadElf_residue_text :
    ¬ NoResidue (archiveKernel ⟨1, 5, 120, 0x400000, 5, 5⟩) (List.range' 20 44) 0xffffffff80040000
      20 (cstr "a") 0xffffffff8000c000 (archiveElf ⟨1, 5, 120, 0x400000, 5, 5⟩) := by
  have h := archiveKernel_archived ⟨1, 5, 120, 0x400000, 5, 5⟩ rfl
    ⟨by decide, by decide, by decide⟩ (by decide) (by decide) fun _ ↦ rfl
  obtain ⟨k₁, A₁, free₁, hk₁, hp₁⟩ := h.loadElf fun _ ↦ 0
  obtain ⟨k₂, A₂, free₂, hk₂, hp₂⟩ := h.loadElf fun _ ↦ 1
  intro hno
  have he := (hno _ _ k₁ k₂ hk₁ hk₂).1 userStackTop (by decide)
  obtain ⟨n₁, hn₁, hr₁⟩ := hp₁.readAs (h.space.refill _).1 h.cr3 (by decide) (.inr (.inl rfl))
  obtain ⟨n₂, hn₂, hr₂⟩ := hp₂.readAs (h.space.refill _).1 h.cr3 (by decide) (.inr (.inl rfl))
  rw [hr₁, hr₂, programImage_stack, programImage_stack, Option.getD_none, Option.getD_none] at he
  have hz := refill_of_mem (s := (archiveKernel ⟨1, 5, 120, 0x400000, 5, 5⟩).toMachine)
    (g := fun _ ↦ 0) hn₁ (Nat.mod_lt userStackTop (by decide))
  have ho := refill_of_mem (s := (archiveKernel ⟨1, 5, 120, 0x400000, 5, 5⟩).toMachine)
    (g := fun _ ↦ 1) hn₂ (Nat.mod_lt userStackTop (by decide))
  exact absurd (hz.symm.trans ((Option.some.inj he).trans ho)) (by decide)

end Sbunix
