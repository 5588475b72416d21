import Sbunix.Sys.LoadElf

/-!
# Which bytes of a program file reach its process

A byte of a segment is read back if the segment is copied and no page that is mapped later, of
another segment, the stack or the heap, takes the place of its page.  Everything else on the pages
of a new process is what the free frames held before.
-/

namespace Sbunix

open Reasoning Kernel

variable {k k' : Kernel} {s s' : Machine} {w n a i ehdr tarfs fuel task : Nat}
  {free free' : List Nat} {img : Nat → Option UInt8} {file : Nat → UInt8} {ph : Phdr}
  {phs pre post : List Phdr} {f : Elf} {filename : CString}

/-! ## Bytes of an image -/

/-- The ranges of two segments have no address in common. -/
def Phdr.Disjoint (p q : Phdr) : Prop :=
  p.type = 1 → q.type = 1 → ∀ a, p.vaddr ≤ a ∧ a < p.vaddr + p.memsz →
    ¬ (q.vaddr ≤ a ∧ a < q.vaddr + q.memsz)

/-- `a` is not among the bytes that a segment has in the file. -/
def Phdr.Misses (ph : Phdr) (a : Nat) : Prop :=
  ph.type = 1 → ¬ (ph.vaddr ≤ a ∧ a < ph.vaddr + ph.filesz)

theorem Phdr.load_of_misses (h : ph.Misses a) :
    ph.load file img a = if ph.Covers (a / 4096) then none else img a := by
  rw [Phdr.load]
  by_cases ht : ph.type = 1
  · have hclear : clearPages (ph.vaddr / 4096) ph.pages img a =
        if ph.Covers (a / 4096) then none else img a := by
      simp only [clearPages, Phdr.Covers, ht, true_and]
    rw [if_pos ht]
    split
    · rw [copyBytes, if_neg (h ht), hclear]
    · exact hclear
  · rw [if_neg ht, if_neg fun hc ↦ ht hc.1]

theorem segmentsImage_of_misses (h : ∀ ph ∈ phs, ph.Misses a) :
    segmentsImage file phs img a = if ∃ ph ∈ phs, ph.Covers (a / 4096) then none else img a := by
  induction phs generalizing img with
  | nil => simp [segmentsImage]
  | cons ph phs ih =>
      rw [List.forall_mem_cons] at h
      change segmentsImage file phs (ph.load file img) a = _
      rw [ih h.2, Phdr.load_of_misses h.1]
      by_cases hc : ph.Covers (a / 4096) <;> simp [hc]

/-- The byte `i` of a segment that is copied. -/
theorem Phdr.load_self {len : Nat} (ht : ph.type = 1) (hf : ph.Fits len) (hi : i < ph.filesz) :
    ph.load file img (ph.vaddr + i) =
      if ph.IsCopied then some (file (ph.offset + i)) else none := by
  have hz := hf.filesz
  have hc := hf.covers ht (Nat.le_add_right ph.vaddr i) (by omega)
  rw [Phdr.load, if_pos ht]
  split
  · rw [copyBytes, if_pos ⟨Nat.le_add_right _ _, by omega⟩, Nat.add_sub_cancel_left]
  · rw [clearPages, if_pos hc.2]

/-- Page `x` of a segment stays what the segment has made it: the segment is copied, and no page is
mapped in its place, by a segment after it or for the stack or the heap. -/
def Phdr.Kept (ph : Phdr) (later : List Phdr) (x : Nat) : Prop :=
  ph.IsCopied ∧ (∀ q ∈ later, ¬ q.Covers x) ∧ x ≠ userStackTop / 4096 ∧ x ≠ heapStart / 4096

instance (ph : Phdr) (later : List Phdr) (x : Nat) : Decidable (ph.Kept later x) :=
  inferInstanceAs (Decidable (_ ∧ _ ∧ _ ∧ _))

theorem programImage_byte {len : Nat} (ht : ph.type = 1) (hf : ph.Fits len)
    (hfit : ∀ q ∈ post, q.type = 1 → q.Fits len) (hd : ∀ q ∈ post, ph.Disjoint q)
    (hi : i < ph.filesz) :
    programImage file (pre ++ ph :: post) (ph.vaddr + i) =
      if ph.Kept post ((ph.vaddr + i) / 4096) then some (file (ph.offset + i)) else none := by
  have hz := hf.filesz
  have hmiss : ∀ q ∈ post, q.Misses (ph.vaddr + i) := fun q hq hqt hin ↦
    hd q hq ht hqt _ ⟨Nat.le_add_right _ _, by omega⟩
      ⟨hin.1, Nat.lt_of_lt_of_le hin.2 (Nat.add_le_add_left (hfit q hq hqt).filesz _)⟩
  have hsplit : segmentsImage file (pre ++ ph :: post) (fun _ ↦ none) =
      segmentsImage file post (ph.load file (segmentsImage file pre fun _ ↦ none)) := by
    rw [segmentsImage, List.foldl_append, List.foldl_cons]
    rfl
  rw [programImage, hsplit, clearPage, clearPage, segmentsImage_of_misses hmiss,
    Phdr.load_self ht hf hi]
  by_cases hh : (ph.vaddr + i) / 4096 = heapStart / 4096
  · rw [if_pos hh, if_neg fun hk ↦ hk.2.2.2 hh]
  · by_cases hs : (ph.vaddr + i) / 4096 = userStackTop / 4096
    · rw [if_neg hh, if_pos hs, if_neg fun hk ↦ hk.2.2.1 hs]
    · by_cases hp : ∃ q ∈ post, q.Covers ((ph.vaddr + i) / 4096)
      · rw [if_neg hh, if_neg hs, if_pos hp, if_neg]
        intro hk
        obtain ⟨q, hq, hc⟩ := hp
        exact hk.2.1 q hq hc
      · rw [if_neg hh, if_neg hs, if_neg hp]
        exact if_congr ⟨fun hc ↦ ⟨hc, fun q hq hqc ↦ hp ⟨q, hq, hqc⟩, hs, hh⟩, fun hk ↦ hk.1⟩ rfl rfl

/-! ## Other contents of the free frames -/

/-- The machine with the bytes `g` in the free frames. -/
def Machine.refill (s : Machine) (free : List Nat) (g : Nat → UInt8) : Machine :=
  { s with mem := fun y ↦ if y / 4096 ∈ free then g y else s.mem y }

def Kernel.refill (k : Kernel) (free : List Nat) (g : Nat → UInt8) : Kernel :=
  k.onMachine (k.toMachine.refill free g)

variable {g : Nat → UInt8} {y len : Nat}

theorem refill_of_mem (hn : n ∈ free) (hy : y < 4096) :
    (s.refill free g).mem (n * 4096 + y) = g (n * 4096 + y) :=
  if_pos (by rwa [show (n * 4096 + y) / 4096 = n by omega])

theorem refill_of_not_mem (hy : y / 4096 * 4096 ∉ framesOf free) :
    (s.refill free g).mem y = s.mem y :=
  if_neg fun hm ↦ hy (mem_framesOf.mpr hm)

theorem refill_self (k : Kernel) (free : List Nat) : k.refill free k.mem = k := by
  have hm : k.toMachine.refill free k.mem = k.toMachine := by
    simp only [Machine.refill, ite_self]
  rw [Kernel.refill, hm]
  rfl

theorem Space.refill (h : Space w s free) (g : Nat → UInt8) :
    Space w (s.refill free g) free ∧
      windowFrames (s.refill free g).mem w = windowFrames s.mem w ∧
      tableFrames userEntries (s.refill free g).mem s.cr3 = tableFrames userEntries s.mem s.cr3 :=
  h.congr rfl rfl
    (fun _ hx ↦ refill_of_not_mem fun hf ↦ h.ready.window.apart _ hf hx)
    (fun _ hx ↦ refill_of_not_mem (h.user.free _ hx))

theorem FileAt.refill (h : FileAt w s free ehdr len) (hs : Space w s free) :
    FileAt w (s.refill free g) free ehdr len := by
  obtain ⟨-, hw, hu⟩ := hs.refill g
  refine ⟨h.kernel, h.bound, fun i hi ↦ ?_, h.apart.free, fun i hi ↦ ?_⟩
  · rw [hw]
    exact h.apart.window i hi
  · rw [show (s.refill free g).cr3 = s.cr3 from rfl, hu]
    exact h.apart.user i hi

theorem FileAt.fileByte (h : FileAt w s free ehdr len) (hi : i < len) :
    (s.refill free g).fileByte ehdr i = s.fileByte ehdr i :=
  refill_of_not_mem (h.apart.free i hi)

theorem FileAt.readBytes (h : FileAt w s free ehdr len)
    (hb : ∀ i < len, s'.fileByte ehdr i = s.fileByte ehdr i) {o : Nat} (ho : o + n ≤ len) :
    s'.readBytes (ehdr + o) n = s.readBytes (ehdr + o) n := by
  have hk := h.kernel
  refine readBytes_congr (by omega) fun i hi ↦ ?_
  rw [show ehdr + o - kernBase + i = ehdr - kernBase + (o + i) by omega]
  exact hb _ (by omega)

theorem FileAt.readPhdrs (h : FileAt w s free ehdr len)
    (hb : ∀ i < len, s'.fileByte ehdr i = s.fileByte ehdr i) {o : Nat} (ho : o + 56 * n ≤ len) :
    s'.readPhdrs n (ehdr + o) = s.readPhdrs n (ehdr + o) := by
  have hk := h.kernel
  have hlt := h.bound
  induction n generalizing o with
  | zero => rfl
  | succ n ih =>
      have hph : s'.readPhdr (ehdr + o) = s.readPhdr (ehdr + o) := by
        refine readPhdr_congr (by omega) fun i hi ↦ ?_
        rw [show ehdr + o - kernBase + i = ehdr - kernBase + (o + i) by omega]
        exact hb _ (by omega)
      rw [Machine.readPhdrs, Machine.readPhdrs, hph, Nat.mod_eq_of_lt (by omega), Nat.add_assoc,
        ih (by omega)]

/-- The file is where it was, if its bytes are. -/
theorem Elf.At.congr {w' : Nat} (h : f.At w s free ehdr) (hf : FileAt w' s' free' ehdr f.size)
    (hb : ∀ i < f.size, s'.fileByte ehdr i = s.fileByte ehdr i) : f.At w' s' free' ehdr := by
  have hfile := h.file
  have hh := h.header
  obtain ⟨h1, h2, h3⟩ := h.magic
  refine ⟨hf, hh, ⟨?_, ?_, ?_⟩, ?_, ?_, ?_, ?_, h.size, h.fits, h.load⟩
  · rw [hfile.readBytes hb (by omega), h1]
  · rw [hfile.readBytes hb (by omega), h2]
  · rw [hfile.readBytes hb (by omega), h3]
  · rw [hfile.readBytes hb (by omega), h.entry]
  · rw [hfile.readBytes hb (by omega), h.phoff]
  · rw [hfile.readBytes hb (by omega), h.phnum]
  · rw [hfile.readPhdrs hb h.size, h.phdrs]

theorem Elf.At.refill (h : f.At w s free ehdr) (hs : Space w s free) (g : Nat → UInt8) :
    f.At w (s.refill free g) free ehdr :=
  h.congr (h.file.refill hs) fun _ hi ↦ h.file.fileByte hi

/-! ## What the process reads -/

/-- A read of the process `task`, through its own tables. -/
def Kernel.readAs (k : Kernel) (task v : Nat) : Option UInt8 :=
  (k.loadCR3 (k.procs.pcbs task).cr3).readByte v

/-- `loadElf(filename, task)` finds the well-formed file `f` in the archive, whatever the free frames
hold, while the tables of `task` are in use, and the free frames suffice for it. -/
structure Archived (w : Nat) (k : Kernel) (free : List Nat) (tarfs fuel : Nat) (filename : CString)
    (task ehdr : Nat) (f : Elf) : Prop where
  space : Space w k.toMachine free
  cr3 : (k.procs.pcbs task).cr3 = k.cr3
  found : ∀ g, (k.refill free g).getFile filename fuel tarfs = some ehdr
  elf : f.At w k.toMachine free ehdr
  frames : f.frames ≤ free.length

theorem Archived.loadElf (h : Archived w k free tarfs fuel filename task ehdr f)
    (g : Nat → UInt8) :
    ∃ k' A free', (k.refill free g).loadElf tarfs fuel filename task = some k' ∧
      Program w (k.refill free g) free task ehdr f A k' free' := by
  obtain ⟨k', A, free', hk', hp⟩ := loadFile_program (k := k.refill free g) task
    (h.space.refill g).1 (h.elf.refill h.space g) h.frames
  refine ⟨k', A, free', ?_, hp⟩
  rw [Kernel.loadElf, h.found g, Option.bind_some, hk']

theorem Program.cr3 {A : Nat → Option Nat} {free' : List Nat}
    (h : Program w k free task ehdr f A k' free') (q : Nat) :
    (k'.procs.pcbs q).cr3 = (k.procs.pcbs q).cr3 := by
  rw [h.procs]
  by_cases hq : q = task
  · simp [setRsp, setRip, Procs.modify, hq]
  · simp [setRsp, setRip, Procs.modify, hq]

/-- A page of the program has a frame that was free. -/
theorem Program.readAs {A : Nat → Option Nat} {free' : List Nat} {v : Nat}
    (h : Program w k free task ehdr f A k' free') (h₀ : Space w k.toMachine free)
    (hcr3 : (k.procs.pcbs task).cr3 = k.cr3) (hv : v < 2 ^ 47)
    (hp : ProgramPage f.phdrs (v / 4096)) :
    ∃ n ∈ free, k'.readAs task v =
      some ((programImage (k.fileByte ehdr) f.phdrs v).getD (k.mem (n * 4096 + v % 4096))) := by
  obtain ⟨n, hn⟩ := Option.ne_none_iff_exists'.mp ((h.pages _).mpr hp)
  refine ⟨n, (h.machine.owned _ n hn).1, ?_⟩
  rw [Kernel.readAs, h.cr3, hcr3, ← h.machine.cr3]
  exact h.machine.readByte h₀ hv hn

/-- What is read of a segment, in terms of the old contents `g` of the frames. -/
theorem Archived.readSegment {A : Nat → Option Nat} {free' : List Nat}
    (h : Archived w k free tarfs fuel filename task ehdr f) (hd : f.phdrs.Pairwise Phdr.Disjoint)
    (hsplit : f.phdrs = pre ++ ph :: post) (ht : ph.type = 1) (hi : i < ph.filesz)
    (hp : Program w (k.refill free g) free task ehdr f A k' free') :
    ∃ y, k'.readAs task (ph.vaddr + i) = some (if ph.Kept post ((ph.vaddr + i) / 4096)
      then k.fileByte ehdr (ph.offset + i) else g y) := by
  have hmem : ph ∈ f.phdrs := by
    rw [hsplit]
    simp
  have hsub : ∀ q ∈ post, q ∈ f.phdrs := fun q hq ↦ by
    rw [hsplit]
    simp [hq]
  have hfit := h.elf.fits ph hmem ht
  have hu := hfit.user
  have hz := hfit.filesz
  have hdp : ∀ q ∈ post, ph.Disjoint q := by
    rw [hsplit, List.pairwise_append] at hd
    exact (List.pairwise_cons.mp hd.2.1).1
  obtain ⟨n, hn, hr⟩ := hp.readAs (h.space.refill g).1 h.cr3 (v := ph.vaddr + i) (by omega)
    (.inl ⟨ph, hmem, hfit.covers ht (Nat.le_add_right _ i) (by omega)⟩)
  -- the file is not in the frames that are filled anew
  have hbyte : (k.refill free g).fileByte ehdr (ph.offset + i) =
      k.fileByte ehdr (ph.offset + i) :=
    h.elf.file.fileByte (Nat.lt_of_lt_of_le (Nat.add_lt_add_left hi _) hfit.file)
  refine ⟨n * 4096 + (ph.vaddr + i) % 4096, ?_⟩
  rw [hr, hsplit, programImage_byte ht hfit (fun q hq hqt ↦ h.elf.fits q (hsub q hq) hqt) hdp hi,
    hbyte]
  split
  · rw [Option.getD_some]
  · rw [Option.getD_none]
    exact congrArg some (refill_of_mem hn (Nat.mod_lt _ (by decide)))

/-! ## An archive in the boot machine -/

/-- A program file with the header `ph` and five bytes at 120. -/
def elfWords (ph : Phdr) (w : Nat) : Nat :=
  if w = 0 then 0x464c457f else if w = 3 then ph.vaddr else if w = 4 then 64 else if w = 7 then 1
  else if w = 8 then ph.type + ph.flags * 2 ^ 32 else if w = 9 then ph.offset
  else if w = 10 then ph.vaddr else if w = 12 then ph.filesz else if w = 13 then ph.memsz
  else if w = 15 then 0x6f6c6c6568 else 0

/-- An archive with the file `a` of 512 bytes. -/
def archiveWords (ph : Phdr) (w : Nat) : Nat :=
  if w = 0 then 0x61 else if w = 15 then 0x3030303000000000 else if w = 16 then 0x30303031303030
  else if w = 32 then 0x726174737500 else if 64 ≤ w then elfWords ph (w - 64) else 0

/-- The boot machine with the archive from page 64 on. -/
def archiveKernel (ph : Phdr) : Kernel :=
  (bootKernel 0 0 0).onMachine { bootSpace 0 0 with
    mem := fun a ↦ if 0x40000 ≤ a then Memory.ofWords (archiveWords ph) (a - 0x40000)
      else (bootSpace 0 0).mem a }

def archiveElf (ph : Phdr) : Elf := ⟨512, ph.vaddr, 64, [ph]⟩

/-- The file is read as it was written. -/
def ReadsBack (ph : Phdr) : Prop :=
  let s := (archiveKernel ph).toMachine
  let ehdr := 0xffffffff80040200
  (s.readBytes (ehdr + 1) 1 = some 0x45 ∧ s.readBytes (ehdr + 2) 1 = some 0x4c ∧
    s.readBytes (ehdr + 3) 1 = some 0x46) ∧ s.readBytes (ehdr + 24) 8 = some ph.vaddr ∧
  s.readBytes (ehdr + 32) 8 = some 64 ∧ s.readBytes (ehdr + 56) 2 = some 1 ∧
  s.readPhdrs 1 (ehdr + 64) = some [ph]

instance (ph : Phdr) : Decidable (ReadsBack ph) := inferInstanceAs (Decidable (_ ∧ _ ∧ _ ∧ _ ∧ _))

theorem archiveKernel_space (ph : Phdr) :
    Space 0x2000 (archiveKernel ph).toMachine (List.range' 20 44) ∧
    windowFrames (archiveKernel ph).mem 0x2000 = {0x2000, 0x3000, 0x4000} ∧
    tableFrames userEntries (archiveKernel ph).mem 0x1000 = {0x1000} := by
  have hw := (bootSpace_window 0 0).1
  have hu : tableFrames userEntries (bootSpace 0 0).mem 0x1000 = {0x1000} :=
    tables_leafless bootSpace_noUser
  have hb : Space 0x2000 (bootSpace 0 0) (List.range' 20 44) :=
    ⟨bootSpace_ready 0 0, bootSpace_userTree⟩
  have hlow : ∀ x, x < 0x40000 → (archiveKernel ph).mem x = (bootSpace 0 0).mem x := fun x hx ↦
    if_neg (Nat.not_le_of_lt hx)
  have hsw : SameOn (windowFrames (bootSpace 0 0).mem 0x2000) (bootSpace 0 0).mem
      (archiveKernel ph).mem := by
    intro x hx
    rw [hw] at hx
    simp only [Set.mem_insert_iff, Set.mem_singleton_iff] at hx
    exact hlow x (by omega)
  have hsu : SameOn (tableFrames userEntries (bootSpace 0 0).mem 0x1000) (bootSpace 0 0).mem
      (archiveKernel ph).mem := by
    intro x hx
    rw [hu, Set.mem_singleton_iff] at hx
    exact hlow x (by omega)
  obtain ⟨hs, hw', hu'⟩ : Space 0x2000 (archiveKernel ph).toMachine (List.range' 20 44) ∧ _ ∧ _ :=
    hb.congr rfl rfl hsw hsu
  exact ⟨hs, hw'.trans hw, hu'.trans hu⟩

theorem archiveKernel_archived (ph : Phdr) (ht : ph.type = 1) (hfit : ph.Fits 512)
    (hr : ReadsBack ph) (hlen : ph.frames ≤ 34)
    (hfound : ∀ g, ((archiveKernel ph).refill (List.range' 20 44) g).getFile (cstr "a") 20
      0xffffffff80040000 = some 0xffffffff80040200) :
    Archived 0x2000 (archiveKernel ph) (List.range' 20 44) 0xffffffff80040000 20 (cstr "a")
      0xffffffff8000c000 0xffffffff80040200 (archiveElf ph) := by
  obtain ⟨hs, hw, hu⟩ := archiveKernel_space ph
  obtain ⟨hm, he, hoff, hnum, hphs⟩ := hr
  have hsub : 0xffffffff80040200 - kernBase = 0x40200 := rfl
  have hfile : 0xffffffff80040200 + 512 < 2 ^ 64 := by decide
  have hhead : 64 ≤ 512 := by decide
  have hsize : 64 + 56 * 1 ≤ 512 := by decide
  refine ⟨hs, rfl, hfound, ⟨⟨by decide, hfile, ?_, ?_, ?_⟩, hhead, hm, he, hoff, hnum, hphs, hsize, ?_,
    ph, List.mem_singleton_self ph, ht⟩, ?_⟩
  · -- the file is apart from the window, from the free frames and from the user's tables
    intro i hi
    rw [hw, hsub]
    simp only [Set.mem_insert_iff, Set.mem_singleton_iff]
    omega
  · rintro i hi ⟨n, hn, he⟩
    rw [hsub] at he
    have := List.mem_range'_1.mp hn
    omega
  · intro i hi
    change _ ∉ tableFrames userEntries (archiveKernel ph).mem 0x1000
    rw [hu, hsub, Set.mem_singleton_iff]
    omega
  · intro q hq _
    rw [List.mem_singleton.mp hq]
    exact hfit
  · simp only [Elf.frames, archiveElf, List.map_cons, List.map_nil, List.sum_cons, List.sum_nil]
    rw [List.length_range']
    omega

/-! ## The image law -/

/-- After `loadElf` the process reads every byte that its file has for a segment, whatever the free
frames held. -/
def ImageLaw (k : Kernel) (free : List Nat) (tarfs fuel : Nat) (filename : CString)
    (task ehdr : Nat) (f : Elf) : Prop :=
  ∀ g, ∃ k', (k.refill free g).loadElf tarfs fuel filename task = some k' ∧
    ∀ ph ∈ f.phdrs, ph.type = 1 → ∀ i < ph.filesz,
      k'.readAs task (ph.vaddr + i) = some (k.fileByte ehdr (ph.offset + i))

theorem exists_byte_ne (b : UInt8) : ∃ c, c ≠ b := by
  by_cases h : b = 0
  · exact ⟨1, by rw [h]; decide⟩
  · exact ⟨0, Ne.symm h⟩

theorem loadElf_imageLaw_iff (h : Archived w k free tarfs fuel filename task ehdr f)
    (hd : f.phdrs.Pairwise Phdr.Disjoint) :
    ImageLaw k free tarfs fuel filename task ehdr f ↔
      ∀ pre ph post, f.phdrs = pre ++ ph :: post → ph.type = 1 →
        ∀ i < ph.filesz, ph.Kept post ((ph.vaddr + i) / 4096) := by
  constructor
  · intro hlaw pre ph post hsplit ht i hi
    by_contra hk
    -- frames full of another byte than the one that is missing
    obtain ⟨b, hb⟩ := exists_byte_ne (k.fileByte ehdr (ph.offset + i))
    obtain ⟨k₁, A, free', hk₁, hp⟩ := h.loadElf fun _ ↦ b
    obtain ⟨k', hk', hall⟩ := hlaw fun _ ↦ b
    obtain rfl : k₁ = k' := Option.some.inj (hk₁.symm.trans hk')
    obtain ⟨y, hy⟩ := h.readSegment hd hsplit ht hi hp
    rw [if_neg hk, hall ph (by rw [hsplit]; simp) ht i hi] at hy
    exact hb (Option.some.inj hy).symm
  · intro hkept g
    obtain ⟨k', A, free', hk', hp⟩ := h.loadElf g
    refine ⟨k', hk', fun ph hph ht i hi ↦ ?_⟩
    obtain ⟨pre, post, hsplit⟩ := List.append_of_mem hph
    obtain ⟨y, hy⟩ := h.readSegment hd hsplit ht hi hp
    rw [hy, if_pos (hkept pre ph post hsplit ht i hi)]

/-- A text segment of five bytes is read back. -/
theorem loadElf_imageLaw_text :
    ImageLaw (archiveKernel ⟨1, 5, 120, 0x400000, 5, 5⟩) (List.range' 20 44) 0xffffffff80040000 20
      (cstr "a") 0xffffffff8000c000 0xffffffff80040200
      (archiveElf ⟨1, 5, 120, 0x400000, 5, 5⟩) := by
  refine (loadElf_imageLaw_iff (w := 0x2000) (archiveKernel_archived _ rfl ⟨by decide, by decide, by
    decide⟩ (by decide) (by decide) fun g ↦ rfl) (List.pairwise_singleton _ _)).mpr ?_
  intro pre ph post hsplit _ i hi
  obtain ⟨rfl, rfl, rfl⟩ : pre = [] ∧ ph = ⟨1, 5, 120, 0x400000, 5, 5⟩ ∧ post = [] := by
    cases pre with
    | nil => simpa [archiveElf, eq_comm] using hsplit
    | cons p pre => simp [archiveElf] at hsplit
  have hpage : (0x400000 + i) / 4096 = 0x400 := by
    change i < 5 at hi
    omega
  change Phdr.Kept _ [] ((0x400000 + i) / 4096)
  rw [hpage]
  decide

/-- A segment that is read-only is not copied. -/
theorem loadElf_imageLaw_readOnly :
    ¬ ImageLaw (archiveKernel ⟨1, 4, 120, 0x400000, 5, 5⟩) (List.range' 20 44) 0xffffffff80040000 20
      (cstr "a") 0xffffffff8000c000 0xffffffff80040200
      (archiveElf ⟨1, 4, 120, 0x400000, 5, 5⟩) := by
  have h := archiveKernel_archived ⟨1, 4, 120, 0x400000, 5, 5⟩ rfl
    ⟨by decide, by decide, by decide⟩ (by decide) (by decide) fun g ↦ rfl
  intro hlaw
  obtain ⟨k₁, A, free', hk₁, hp⟩ := h.loadElf fun _ ↦ 0
  obtain ⟨k', hk', hall⟩ := hlaw fun _ ↦ 0
  obtain rfl : k₁ = k' := Option.some.inj (hk₁.symm.trans hk')
  obtain ⟨y, hy⟩ := h.readSegment (i := 0) (List.pairwise_singleton _ _)
    (show (archiveElf ⟨1, 4, 120, 0x400000, 5, 5⟩).phdrs = [] ++ _ :: [] from rfl) rfl (by decide) hp
  rw [if_neg (by decide), hall _ (List.mem_singleton_self _) rfl 0 (by decide)] at hy
  exact absurd hy (by decide)

end Sbunix
