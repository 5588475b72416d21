import Sbunix.Sys.Elf
import Sbunix.Sys.LoadSpace

/-!
# What `loadElf` leaves in the address space

The abstract loader works on images, maps from addresses to the bytes that are known: each segment
clears the pages it covers and is copied there or not, and the stack and the heap clear a page each.
`loadElf` leaves the image of its file, and one VMA for each segment, the stack and the heap.
-/

namespace Sbunix

open Reasoning Kernel

variable {k k' k₀ : Kernel} {s s' s₀ : Machine} {w n x ehdr mm : Nat} {free free' free₀ l : List Nat}
  {A : Nat → Option Nat} {img : Nat → Option UInt8} {file : Nat → UInt8} {ph : Phdr}
  {phs : List Phdr}

/-! ## Images -/

/-- `img` without the `size` pages from page `x` on. -/
def clearPages (x size : Nat) (img : Nat → Option UInt8) : Nat → Option UInt8 := fun a ↦
  if x ≤ a / 4096 ∧ a / 4096 < x + size then none else img a

/-- What a segment of the file does to an image. -/
def Phdr.load (ph : Phdr) (file : Nat → UInt8) (img : Nat → Option UInt8) : Nat → Option UInt8 :=
  if ph.type = 1 then
    let img := clearPages (ph.vaddr / 4096) ph.pages img
    if ph.IsCopied then copyBytes ph.vaddr ph.filesz (fun i ↦ file (ph.offset + i)) img else img
  else img

/-- The segments one after the other. -/
def segmentsImage (file : Nat → UInt8) (phs : List Phdr) (img : Nat → Option UInt8) :
    Nat → Option UInt8 := phs.foldl (fun img ph ↦ ph.load file img) img

/-- The image of a program: its segments, a stack and a heap. -/
def programImage (file : Nat → UInt8) (phs : List Phdr) : Nat → Option UInt8 :=
  clearPage (heapStart / 4096) (clearPage (userStackTop / 4096)
    (segmentsImage file phs fun _ ↦ none))

/-- The segment has page `x` mapped. -/
def Phdr.Covers (ph : Phdr) (x : Nat) : Prop :=
  ph.type = 1 ∧ ph.vaddr / 4096 ≤ x ∧ x < ph.vaddr / 4096 + ph.pages

instance (ph : Phdr) (x : Nat) : Decidable (ph.Covers x) :=
  inferInstanceAs (Decidable (_ ∧ _ ∧ _))

/-- The pages that a program has when it starts. -/
def ProgramPage (phs : List Phdr) (x : Nat) : Prop :=
  (∃ ph ∈ phs, ph.Covers x) ∨ x = userStackTop / 4096 ∨ x = heapStart / 4096

theorem clearPages_succ (x size : Nat) (img : Nat → Option UInt8) :
    clearPages (x + 1) size (clearPage x img) = clearPages x (size + 1) img := by
  funext a
  rw [clearPages, clearPages, clearPage]
  by_cases h : a / 4096 = x
  · rw [if_neg (by omega), if_pos h, if_pos (by omega)]
  · by_cases h' : x + 1 ≤ a / 4096 ∧ a / 4096 < x + 1 + size
    · rw [if_pos h', if_pos (by omega)]
    · rw [if_neg h', if_neg h, if_neg (by omega)]

/-! ## The pages of a segment -/

theorem Loaded.mapPages (size : Nat) (h : Loaded w s₀ free₀ A img s free)
    (hx : x + size ≤ 2 ^ 35) (hlen : 4 * size ≤ free.length) :
    ∃ A' free', free.length ≤ free'.length + 4 * size ∧ free' <:+ free ∧
      Loaded w s₀ free₀ A' (clearPages x size img) (Machine.mapPages size (x * 4096) s) free' ∧
      ∀ y, A' y ≠ none ↔ (x ≤ y ∧ y < x + size) ∨ A y ≠ none := by
  induction size generalizing x A img s free with
  | zero =>
      refine ⟨A, free, Nat.le_refl _, List.suffix_rfl, ?_, fun y ↦ ?_⟩
      · have hc : clearPages x 0 img = img := by
          funext a
          rw [clearPages, if_neg (by omega)]
        rw [hc]
        exact h
      · rw [or_iff_right]
        omega
  | succ size ih =>
      obtain ⟨m, free₁, hlen₁, hsuf₁, h₁⟩ := h.mapNew (v := x * 4096) (by omega) (by omega)
      rw [Nat.mul_div_cancel x (by decide)] at h₁
      obtain ⟨A', free', hlen', hsuf', h', hA'⟩ := ih (x := x + 1) h₁ (by omega) (by omega)
      rw [clearPages_succ] at h'
      refine ⟨A', free', by omega, hsuf'.trans hsuf₁, ?_, fun y ↦ ?_⟩
      · rw [Machine.mapPages, show (x * 4096 + 4096) % 2 ^ 64 = (x + 1) * 4096 by omega]
        exact h'
      · rw [hA']
        by_cases hy : y = x
        · rw [hy, Function.update_self]
          exact iff_of_true (.inr (Option.some_ne_none m)) (.inl ⟨Nat.le_refl x, by omega⟩)
        · rw [Function.update_of_ne hy]
          refine or_congr_left ?_
          omega

/-- The segment lies in the user's half, and its bytes in the file. -/
structure Phdr.Fits (ph : Phdr) (len : Nat) : Prop where
  user : ph.vaddr + ph.memsz < 2 ^ 47
  filesz : ph.filesz ≤ ph.memsz
  file : ph.offset + ph.filesz ≤ len

theorem Phdr.Fits.pages_eq {len : Nat} (h : ph.Fits len) :
    ph.pages = (ph.vaddr + ph.memsz) / 4096 + 1 - ph.vaddr / 4096 := by
  have hu := h.user
  rw [Phdr.pages, Phdr.vmEnd, sub64]
  omega

/-- Every byte of a segment is on one of its pages. -/
theorem Phdr.Fits.covers {len a : Nat} (h : ph.Fits len) (ht : ph.type = 1) (ha : ph.vaddr ≤ a)
    (ha' : a ≤ ph.vaddr + ph.memsz) : ph.Covers (a / 4096) := by
  have hp := h.pages_eq
  exact ⟨ht, Nat.div_le_div_right ha, by omega⟩

/-! ## Reading the file -/

theorem readByte_kernel {a : Nat} (ha : kernBase ≤ a) (s : Machine) :
    s.readByte a = some (s.mem (a - kernBase)) := by
  rw [Machine.readByte, Machine.translate, if_pos ha, Option.map_some]

theorem readBytes_congr {a len : Nat} (ha : kernBase ≤ a)
    (h : ∀ i < len, s'.mem (a - kernBase + i) = s.mem (a - kernBase + i)) :
    s'.readBytes a len = s.readBytes a len := by
  induction len generalizing a with
  | zero => rfl
  | succ len ih =>
      have h0 := h 0 (Nat.succ_pos len)
      rw [Nat.add_zero] at h0
      rw [Machine.readBytes, Machine.readBytes, readByte_kernel ha, readByte_kernel ha,
        Option.bind_some, Option.bind_some, h0, ih (by omega) fun i hi ↦ ?_]
      · have := h (i + 1) (by omega)
        rwa [show a + 1 - kernBase + i = a - kernBase + (i + 1) by omega]

theorem readPhdr_congr {a : Nat} (ha : kernBase ≤ a)
    (h : ∀ i < 48, s'.mem (a - kernBase + i) = s.mem (a - kernBase + i)) :
    s'.readPhdr a = s.readPhdr a := by
  have hread : ∀ o len, o + len ≤ 48 → s'.readBytes (a + o) len = s.readBytes (a + o) len := by
    intro o len ho
    refine readBytes_congr (by omega) fun i hi ↦ ?_
    rw [show a + o - kernBase + i = a - kernBase + (o + i) by omega]
    exact h (o + i) (by omega)
  have h0 := hread 0 4 (by decide)
  rw [Nat.add_zero] at h0
  unfold Machine.readPhdr
  rw [h0, hread 4 4 (by decide), hread 8 8 (by decide), hread 16 8 (by decide),
    hread 32 8 (by decide), hread 40 8 (by decide)]

/-- The program headers from `a` on. -/
def Machine.readPhdrs (s : Machine) : Nat → Nat → Option (List Phdr)
  | 0, _ => some []
  | n + 1, a => (s.readPhdr a).bind fun ph ↦ (s.readPhdrs n ((a + 56) % 2 ^ 64)).map (ph :: ·)

/-! ## The list of VMAs -/

/-- The VMAs of `mm`, in the order of their list; `current` is the last. -/
structure MmList (k : Kernel) (mm : Nat) (l : List Nat) : Prop
    extends VmaList k (k.mms mm).mmap l where
  last : ∀ a ∈ l.getLast?, (k.mms mm).current = a
  nodup : l.Nodup

/-- The VMAs after `vma` is linked in behind the last one. -/
def linkedVmas (k : Kernel) (mm vma : Nat) : Nat → Vma :=
  if (k.mms mm).mmap = 0 then k.vmas
  else Function.update k.vmas (k.mms mm).current
    { k.vmas (k.mms mm).current with next := vma }

theorem MmList.mmap_eq_zero (h : MmList k mm l) : (k.mms mm).mmap = 0 ↔ l = [] := by
  cases l with
  | nil => exact iff_of_true h.chain rfl
  | cons a l =>
      refine iff_of_false (fun h0 ↦ h.ne_zero a List.mem_cons_self ?_) (List.cons_ne_nil a l)
      exact h.chain.1.symm.trans h0

theorem MmList.append {vma : Nat} (h : MmList k mm l) (hv : vma ∉ l) (h0 : vma ≠ 0)
    (hvmas : ∀ a, a ≠ vma → k'.vmas a = linkedVmas k mm vma a) (hnext : (k'.vmas vma).next = 0)
    (hmmap : (k'.mms mm).mmap = if (k.mms mm).mmap = 0 then vma else (k.mms mm).mmap)
    (hcur : (k'.mms mm).current = vma) : MmList k' mm (l ++ [vma]) := by
  refine ⟨⟨?_, fun a ha ↦ ?_⟩, fun a ha ↦ ?_, ?_⟩
  · rcases List.eq_nil_or_concat' l with rfl | ⟨t, p, rfl⟩
    · rw [if_pos (h.mmap_eq_zero.mpr rfl)] at hmmap
      exact ⟨hmmap, hnext⟩
    · -- the list has a last node `p`, which gets the new one as its successor
      have hne : (k.mms mm).mmap ≠ 0 := by
        rw [Ne, h.mmap_eq_zero]
        simp
      have hp : (k.mms mm).current = p := h.last p (by simp)
      rw [if_neg hne] at hmmap
      obtain ⟨m, ht, hm, -⟩ := chain_append.mp h.chain
      obtain rfl : m = p := hm
      have hpt : m ∉ t := fun hmt ↦ by
        have hd := h.nodup
        rw [List.nodup_append] at hd
        exact hd.2.2 m hmt m (List.mem_singleton_self m) rfl
      rw [List.mem_append, List.mem_singleton, not_or] at hv
      have hnextm : (k'.vmas m).next = vma := by
        rw [hvmas m (Ne.symm hv.2), linkedVmas, if_neg hne, hp, Function.update_self]
      rw [hmmap, List.append_assoc]
      refine chain_append.mpr ⟨m, ht.congr fun a ha ↦ ?_, rfl, ?_⟩
      · have hav : a ≠ vma := fun he ↦ hv.1 (he ▸ ha)
        have ham : a ≠ m := fun he ↦ hpt (he ▸ ha)
        rw [hvmas a hav, linkedVmas, if_neg hne, hp, Function.update_of_ne ham]
      · exact ⟨hnextm, hnext⟩
  · rw [List.mem_append, List.mem_singleton] at ha
    rcases ha with ha | rfl
    · exact h.ne_zero a ha
    · exact h0
  · rw [List.getLast?_concat, Option.mem_some_iff] at ha
    exact hcur.trans ha
  · rw [List.nodup_append]
    refine ⟨h.nodup, List.nodup_singleton vma, fun a ha b hb he ↦ ?_⟩
    rw [List.mem_singleton] at hb
    exact hv (hb ▸ he ▸ ha)

/-! ## One segment -/

theorem segmentVma_spec {vma : Nat} (k : Kernel) (mm : Nat) (ph : Phdr)
    (hc : (k.mms mm).mmap ≠ 0 → (k.mms mm).current ≠ vma) :
    (k.segmentVma mm vma ph).toMachine = k.toMachine ∧
    (k.segmentVma mm vma ph).procs = k.procs ∧
    (∀ a, a ≠ vma → (k.segmentVma mm vma ph).vmas a = linkedVmas k mm vma a) ∧
    (k.segmentVma mm vma ph).vmas vma =
      { mm := mm, start := ph.vaddr, vmEnd := ph.vmEnd, flag := ph.flags } ∧
    (k.segmentVma mm vma ph).mms mm = { k.mms mm with
      mmap := if (k.mms mm).mmap = 0 then vma else (k.mms mm).mmap, current := vma,
      vmaCount := ((k.mms mm).vmaCount + 1) % 2 ^ 64 } ∧
    ∀ m, m ≠ mm → (k.segmentVma mm vma ph).mms m = k.mms m := by
  unfold Kernel.segmentVma
  dsimp only
  by_cases h0 : (k.mms mm).mmap = 0
  · -- the first VMA of the `mm`
    have h1 : ((k.setVma vma { start := ph.vaddr, vmEnd := ph.vmEnd, flag := ph.flags }).mms
        mm).mmap = 0 := h0
    rw [if_pos h1, if_pos h0]
    refine ⟨rfl, rfl, fun a ha ↦ ?_, ?_, ?_, fun m hm ↦ ?_⟩
    · simp [setCurrent, linkedVmas, h0, ha]
    · simp [setCurrent]
    · simp [setCurrent]
    · simp [setCurrent, hm]
  · -- a later one is linked behind the current one
    have h1 : ¬ ((k.setVma vma { start := ph.vaddr, vmEnd := ph.vmEnd, flag := ph.flags }).mms
        mm).mmap = 0 := h0
    have hcv := hc h0
    rw [if_neg h1, if_neg h0]
    refine ⟨rfl, rfl, fun a ha ↦ ?_, ?_, ?_, fun m hm ↦ ?_⟩
    · by_cases hac : a = (k.mms mm).current
      · simp [setCurrent, linkCurrent, linkedVmas, h0, hac, hcv]
      · simp [setCurrent, linkCurrent, linkedVmas, h0, ha, hac]
    · simp [setCurrent, linkCurrent, Function.update_of_ne hcv.symm]
    · simp [setCurrent, linkCurrent]
    · simp [setCurrent, linkCurrent, hm]

/-- The bytes of a file, which lies in the kernel's image at `ehdr`. -/
structure FileAt (w : Nat) (s₀ : Machine) (free₀ : List Nat) (ehdr len : Nat) : Prop where
  kernel : kernBase ≤ ehdr
  bound : ehdr + len < 2 ^ 64
  apart : Apart w s₀ free₀ (ehdr - kernBase) len

/-- Byte `x` of the file at `ehdr`. -/
def Machine.fileByte (s : Machine) (ehdr x : Nat) : UInt8 := s.mem (ehdr - kernBase + x)

theorem Loaded.copySegment {len : Nat} (mm : Nat) (h : Loaded w s₀ free₀ A img k.toMachine free)
    (h₀ : Space w s₀ free₀) (hf : FileAt w s₀ free₀ ehdr len) (ht : ph.type = 1)
    (hfit : ph.Fits len) (hA : ∀ y, ph.Covers y → A y ≠ none) :
    ∃ k', k.copySegment ehdr mm ph = some k' ∧
      Loaded w s₀ free₀ A (if ph.IsCopied then copyBytes ph.vaddr ph.filesz
        (fun i ↦ s₀.fileByte ehdr (ph.offset + i)) img else img) k'.toMachine free ∧
      k'.procs = k.procs ∧ k'.vmas = k.vmas ∧ (k'.mms mm).mmap = (k.mms mm).mmap ∧
      (k'.mms mm).current = (k.mms mm).current ∧ ∀ m, m ≠ mm → k'.mms m = k.mms m := by
  have hu := hfit.user
  have hz := hfit.filesz
  have hfl := hfit.file
  have hk := hf.kernel
  have hb := hf.bound
  unfold Kernel.copySegment
  by_cases hc : ph.IsCopied
  · rw [if_pos hc, if_pos hc]
    have hsrc : (ehdr + ph.offset) % 2 ^ 64 = ehdr + ph.offset := Nat.mod_eq_of_lt (by omega)
    have hsub : ehdr + ph.offset - kernBase = ehdr - kernBase + ph.offset := by omega
    -- the bytes that are copied lie in the file, which is apart from the pages written
    have hap : Apart w s₀ free₀ (ehdr + ph.offset - kernBase) ph.filesz := by
      constructor
      all_goals
        intro i hi
        rw [hsub, Nat.add_assoc]
      · exact hf.apart.window _ (by omega)
      · exact hf.apart.free _ (by omega)
      · exact hf.apart.user _ (by omega)
    obtain ⟨s', hs', hl⟩ := h.memcpy h₀ (show ph.vaddr + ph.filesz ≤ 2 ^ 47 by omega)
      (fun i hi ↦ hA _ (hfit.covers ht (Nat.le_add_right _ i) (by omega)))
      (show kernBase ≤ ehdr + ph.offset by omega) hap
    simp only [hsub, Nat.add_assoc] at hl
    dsimp only
    rw [hsrc, setMm_toMachine, hs', Option.map_some]
    refine ⟨_, rfl, hl, rfl, rfl, ?_, ?_, fun m hm ↦ ?_⟩
    · simp
    · simp
    · simp [hm]
  · -- nothing is copied for a segment without bytes in the file
    rw [if_neg hc, if_neg hc]
    exact ⟨k, rfl, h, rfl, rfl, rfl, rfl, fun m _ ↦ rfl⟩

/-- The `file` record is a page of its own; what it says does not matter to the pages. -/
theorem Loaded.segmentFile (h : Loaded w s₀ free₀ A img k.toMachine (n :: free))
    (h₀ : Space w s₀ free₀) (ehdr vma : Nat) (ph : Phdr) :
    Loaded w s₀ free₀ A img (k.segmentFile ehdr vma ph).toMachine free ∧
    (k.segmentFile ehdr vma ph).procs = k.procs ∧ (k.segmentFile ehdr vma ph).mms = k.mms ∧
    (∀ a, a ≠ vma → (k.segmentFile ehdr vma ph).vmas a = k.vmas a) ∧
    ((k.segmentFile ehdr vma ph).vmas vma).next = (k.vmas vma).next ∧
    ((k.segmentFile ehdr vma ph).vmas vma).type ≠ .stack ∧
    ((k.segmentFile ehdr vma ph).vmas vma).type ≠ .heap := by
  obtain ⟨-, hl⟩ := h.kmalloc h₀
  unfold Kernel.segmentFile
  dsimp only
  refine ⟨hl, rfl, rfl, fun a ha ↦ ?_, ?_, ?_, ?_⟩
  · rw [setVma_vmas, Function.update_of_ne ha]
    rfl
  · rw [setVma_vmas, Function.update_self]
  all_goals
    rw [setVma_vmas, Function.update_self]
    dsimp only
    split_ifs
    all_goals exact fun he ↦ by cases he

/-! ## The loop over the segments -/

/-- `loadSegments`, with the headers that it reads. -/
def readSegments (ehdr mm : Nat) : Nat → Nat → Kernel → Option (List Phdr × Kernel)
  | 0, _, k => some ([], k)
  | n + 1, phdr, k => (k.readPhdr phdr).bind fun ph ↦ (k.loadSegment ehdr mm ph).bind fun k ↦
      (readSegments ehdr mm n ((phdr + 56) % 2 ^ 64) k).map fun r ↦ (ph :: r.1, r.2)

theorem loadSegments_eq (ehdr mm n a : Nat) (k : Kernel) :
    loadSegments ehdr mm n a k = (readSegments ehdr mm n a k).map Prod.snd := by
  induction n generalizing a k with
  | zero => rfl
  | succ n ih =>
      have hrest : loadSegments ehdr mm n ((a + 56) % 2 ^ 64) = fun k ↦
          (readSegments ehdr mm n ((a + 56) % 2 ^ 64) k).map Prod.snd := funext fun k ↦ ih _ k
      rw [loadSegments, readSegments, hrest]
      simp only [Option.map_bind, Option.map_map, Function.comp_def]

/-- The VMAs of `mm` have become `l`, in pages taken from `free₀`. -/
structure Linked (k₀ : Kernel) (free₀ : List Nat) (mm : Nat) (l : List Nat) (k : Kernel)
    (free : List Nat) : Prop where
  list : MmList k mm l
  fresh : ∀ a ∈ l, a ∈ windowOf free₀ ∧ a ∉ windowOf free
  mms : ∀ m, m ≠ mm → k.mms m = k₀.mms m
  vmas : ∀ a, a ∉ windowOf free₀ → k.vmas a = k₀.vmas a

theorem MmList.current_mem (h : MmList k mm l) (hne : (k.mms mm).mmap ≠ 0) :
    (k.mms mm).current ∈ l := by
  rw [Ne, h.mmap_eq_zero] at hne
  rw [h.last _ (List.getLast?_eq_some_getLast hne)]
  exact List.getLast_mem hne

theorem linkedVmas_type (k : Kernel) (mm vma a : Nat) :
    (linkedVmas k mm vma a).type = (k.vmas a).type := by
  rw [linkedVmas]
  split
  · rfl
  · by_cases ha : a = (k.mms mm).current
    · rw [ha, Function.update_self]
    · rw [Function.update_of_ne ha]

theorem Linked.current_ne (h : Linked k₀ free₀ mm l k (n :: free)) (hne : (k.mms mm).mmap ≠ 0) :
    (k.mms mm).current ≠ kptr (n * 4096) := fun he ↦
  (h.fresh _ (h.list.current_mem hne)).2 ⟨n, List.mem_cons_self, he⟩

theorem Linked.append (h : Linked k₀ free₀ mm l k (n :: free)) (hn : n ∈ free₀)
    (hlt : ∀ x ∈ n :: free, x < 2 ^ 19) (hnf : n ∉ free) (hsub : free' ⊆ free)
    (hvmas : ∀ a, a ≠ kptr (n * 4096) → k'.vmas a = linkedVmas k mm (kptr (n * 4096)) a)
    (hnext : (k'.vmas (kptr (n * 4096))).next = 0)
    (hmmap : (k'.mms mm).mmap = if (k.mms mm).mmap = 0 then kptr (n * 4096) else (k.mms mm).mmap)
    (hcur : (k'.mms mm).current = kptr (n * 4096)) (hmms : ∀ m, m ≠ mm → k'.mms m = k.mms m) :
    Linked k₀ free₀ mm (l ++ [kptr (n * 4096)]) k' free' := by
  have hnew : kptr (n * 4096) ∉ l := fun hm ↦ (h.fresh _ hm).2 ⟨n, List.mem_cons_self, rfl⟩
  have hw : kptr (n * 4096) ∈ windowOf free₀ := ⟨n, hn, rfl⟩
  refine ⟨h.list.append hnew (kptr_ne_zero _) hvmas hnext hmmap hcur, fun a ha ↦ ?_,
    fun m hm ↦ (hmms m hm).trans (h.mms m hm), fun a ha ↦ ?_⟩
  · rw [List.mem_append, List.mem_singleton] at ha
    rcases ha with ha | rfl
    · have hfr := h.fresh a ha
      exact ⟨hfr.1, fun hm ↦ hfr.2 (windowOf_mono (fun x hx ↦ List.mem_cons_of_mem n (hsub hx)) hm)⟩
    · exact ⟨hw, fun hm ↦ not_mem_windowOf hlt hnf (windowOf_mono hsub hm)⟩
  · rw [hvmas a fun he ↦ ha (he ▸ hw), linkedVmas, ← h.vmas a ha]
    split
    · rfl
    · rename_i hne
      have hc := (h.fresh _ (h.list.current_mem hne)).1
      exact Function.update_of_ne (fun he ↦ ha (by rw [he]; exact hc)) _ _

/-- `loadElf` has come from `k₀` to `k`: the pages `A` hold `img`, and the VMAs so far are `l`. -/
structure Loading (w : Nat) (k₀ : Kernel) (free₀ : List Nat) (mm : Nat) (A : Nat → Option Nat)
    (img : Nat → Option UInt8) (l : List Nat) (k : Kernel) (free : List Nat) : Prop where
  machine : Loaded w k₀.toMachine free₀ A img k.toMachine free
  linked : Linked k₀ free₀ mm l k free
  type : ∀ a ∈ l, (k.vmas a).type ≠ .stack ∧ (k.vmas a).type ≠ .heap
  procs : k.procs = k₀.procs

/-- The number of frames that a segment takes, at most. -/
def Phdr.frames (ph : Phdr) : Nat := if ph.type = 1 then 2 + 4 * ph.pages else 0

theorem Loading.loadSegment {len : Nat} (h : Loading w k₀ free₀ mm A img l k free)
    (h₀ : Space w k₀.toMachine free₀) (hf : FileAt w k₀.toMachine free₀ ehdr len)
    (hfit : ph.type = 1 → ph.Fits len) (hlen : ph.frames ≤ free.length) :
    ∃ k' A' l' free', k.loadSegment ehdr mm ph = some k' ∧
      free.length ≤ free'.length + ph.frames ∧
      Loading w k₀ free₀ mm A' (ph.load (k₀.fileByte ehdr) img) l' k' free' ∧
      (∀ y, A' y ≠ none ↔ ph.Covers y ∨ A y ≠ none) ∧ (l' = [] ↔ l = [] ∧ ph.type ≠ 1) := by
  unfold Kernel.loadSegment Phdr.load Phdr.frames
  unfold Phdr.frames at hlen
  by_cases ht : ph.type = 1
  · simp only [if_pos ht] at hlen ⊢
    have hfit := hfit ht
    have hpages := hfit.pages_eq
    have hu := hfit.user
    cases free with
    | nil => exact absurd hlen (by simp)
    | cons n free =>
        rw [List.length_cons] at hlen
        obtain ⟨hvma, hl₁⟩ := h.machine.kmalloc h₀
        have hcur := h.linked.current_ne
        have hlt := h.machine.space.ready.free_lt
        have hnf := h.machine.space.ready.freeList.nodup_cons
        have hn : n ∈ free₀ := h.machine.suffix.subset List.mem_cons_self
        rw [hvma]
        -- the VMA, the pages, the copy and the `file` record
        have hspec := segmentVma_spec (k.onMachine k.kmalloc.2) mm ph hcur
        generalize (k.onMachine k.kmalloc.2).segmentVma mm (kptr (n * 4096)) ph = k₁ at hspec ⊢
        obtain ⟨hm₁, hp₁, hv₁, hvma₁, hmm₁, hmms₁⟩ := hspec
        rw [onMachine_toMachine] at hm₁
        rw [← hm₁] at hl₁
        obtain ⟨A', free₂, hlen₂, hsuf, hl₂, hA'⟩ := hl₁.mapPages (x := ph.vaddr / 4096) ph.pages
          (by omega) (by omega)
        have hcov : ∀ y, ph.Covers y → A' y ≠ none := fun y hy ↦ (hA' y).mpr (.inl hy.2)
        obtain ⟨k₂, hk₂, hl₃, hp₂, hv₂, hmmap₂, hcur₂, hmms₂⟩ :=
          Loaded.copySegment (k := k₁.onMachine (k₁.mapPages ph.pages (ph.vaddr / 4096 * 4096)))
            mm hl₂ h₀ hf ht hfit hcov
        cases free₂ with
        | nil => simp only [List.length_nil] at hlen₂; omega
        | cons m free₃ =>
            rw [List.length_cons] at hlen₂
            obtain ⟨hl₄, hp₃, hmm₃, hv₃, hnext₃, hstack, hheap⟩ :=
              hl₃.segmentFile h₀ ehdr (kptr (n * 4096)) ph
            have hsub : free₃ ⊆ free := ((List.suffix_cons m free₃).trans hsuf).subset
            refine ⟨k₂.segmentFile ehdr (kptr (n * 4096)) ph, A', l ++ [kptr (n * 4096)], free₃,
              by rw [hk₂, Option.map_some], by rw [List.length_cons]; omega,
              ⟨hl₄, h.linked.append hn hlt hnf hsub (fun a ha ↦ ?_) ?_ ?_ ?_ fun x hx ↦ ?_,
                fun a ha ↦ ?_, ?_⟩, fun y ↦ ?_, ?_⟩
            · rw [hv₃ a ha, hv₂]
              exact hv₁ a ha
            · rw [hnext₃, hv₂, onMachine_vmas, hvma₁]
            · rw [hmm₃, hmmap₂, onMachine_mms, hmm₁]
              rfl
            · rw [hmm₃, hcur₂, onMachine_mms, hmm₁]
            · rw [hmm₃, hmms₂ x hx]
              exact hmms₁ x hx
            · rw [List.mem_append, List.mem_singleton] at ha
              by_cases hav : a = kptr (n * 4096)
              · rw [hav]
                exact ⟨hstack, hheap⟩
              · rw [hv₃ a hav, hv₂, onMachine_vmas, hv₁ a hav, linkedVmas_type]
                exact h.type a (ha.resolve_right hav)
            · exact hp₃.trans (hp₂.trans (hp₁.trans h.procs))
            · rw [hA' y]
              exact or_congr_left ⟨fun hy ↦ ⟨ht, hy⟩, fun hy ↦ hy.2⟩
            · simp [ht]
  · simp only [if_neg ht] at hlen ⊢
    refine ⟨k, A, l, free, rfl, Nat.le_refl _, h, fun y ↦ ?_, ?_⟩
    · exact (or_iff_right fun hc ↦ ht hc.1).symm
    · exact (and_iff_left ht).symm

/-- The file is the same all along. -/
theorem Loading.readPhdr {len a : Nat} (h : Loading w k₀ free₀ mm A img l k free)
    (hf : FileAt w k₀.toMachine free₀ ehdr len) (ha : ehdr ≤ a) (ha' : a + 56 ≤ ehdr + len) :
    k.readPhdr a = k₀.readPhdr a := by
  have hk := hf.kernel
  refine readPhdr_congr (by omega) fun i hi ↦ ?_
  rw [show a - kernBase + i = ehdr - kernBase + (a - ehdr + i) by omega]
  exact h.machine.apart hf.apart (by omega)

theorem Loading.loadSegments {len a : Nat} (h : Loading w k₀ free₀ mm A img l k free)
    (h₀ : Space w k₀.toMachine free₀) (hf : FileAt w k₀.toMachine free₀ ehdr len)
    (hread : k₀.readPhdrs n a = some phs) (ha : ehdr ≤ a) (ha' : a + 56 * n ≤ ehdr + len)
    (hfit : ∀ ph ∈ phs, ph.type = 1 → ph.Fits len)
    (hlen : (phs.map Phdr.frames).sum ≤ free.length) :
    ∃ k' A' l' free', readSegments ehdr mm n a k = some (phs, k') ∧
      free.length ≤ free'.length + (phs.map Phdr.frames).sum ∧
      Loading w k₀ free₀ mm A' (segmentsImage (k₀.fileByte ehdr) phs img) l' k' free' ∧
      (∀ y, A' y ≠ none ↔ (∃ ph ∈ phs, ph.Covers y) ∨ A y ≠ none) ∧
      (l' = [] ↔ l = [] ∧ ∀ ph ∈ phs, ph.type ≠ 1) := by
  induction n generalizing a phs A img l k free with
  | zero =>
      obtain rfl : [] = phs := Option.some.inj hread
      exact ⟨k, A, l, free, rfl, Nat.le_refl _, h, fun y ↦ by simp, by simp⟩
  | succ n ih =>
      have hb := hf.bound
      rw [Machine.readPhdrs, ← h.readPhdr hf ha (by omega)] at hread
      obtain ⟨ph, hph, hrest⟩ := Option.bind_eq_some_iff.mp hread
      obtain ⟨phs, hphs, rfl⟩ := Option.map_eq_some_iff.mp hrest
      rw [Nat.mod_eq_of_lt (by omega)] at hphs
      rw [List.map_cons, List.sum_cons] at hlen
      -- the segment of the first header, then those of the others
      obtain ⟨k₁, A₁, l₁, free₁, hk₁, hlen₁, h₁, hA₁, hl₁⟩ :=
        h.loadSegment h₀ hf (hfit ph List.mem_cons_self) (by omega)
      obtain ⟨k', A', l', free', hk', hlen', h', hA', hl'⟩ :=
        ih h₁ hphs (by omega) (by omega) (fun p hp ↦ hfit p (List.mem_cons_of_mem ph hp)) (by omega)
      refine ⟨k', A', l', free', ?_, ?_, h', fun y ↦ ?_, ?_⟩
      · rw [readSegments, hph, Option.bind_some, hk₁, Option.bind_some,
          Nat.mod_eq_of_lt (by omega), hk', Option.map_some]
      · rw [List.map_cons, List.sum_cons]
        omega
      · rw [hA', hA₁, or_left_comm, ← or_assoc]
        simp only [List.mem_cons, exists_eq_or_imp]
      · rw [hl', hl₁, List.forall_mem_cons, and_assoc]

/-! ## The stack and the heap -/

/-- The VMA of the stack, whose `start` lies above its `end`. -/
def stackVma : Vma :=
  { start := userStackTop + 4096, vmEnd := userStackTop, flag := 5, type := .stack }

/-- The VMA of the heap with its first page. -/
def heapVma (mm : Nat) : Vma :=
  { mm := mm, start := heapStart, vmEnd := heapStart + 4096, flag := 5, type := .heap }

theorem loadStack_spec {stack : Nat} (task : Nat) (hst : k.kmalloc.1 = stack)
    (hmmap : (k.mms mm).mmap ≠ 0) (hc : (k.mms mm).current ≠ stack)
    (hc₀ : (k.mms mm).current ≠ 0) :
    ∃ k', k.loadStack task mm = some k' ∧ k'.toMachine = k.kmalloc.2.mapNew userStackTop ∧
      k'.procs = (k.setRsp task (userStackTop + 4096 - 16)).procs ∧
      (∀ a, a ≠ stack → k'.vmas a = linkedVmas k mm stack a) ∧ k'.vmas stack = stackVma ∧
      k'.mms mm = { k.mms mm with
        current := stack, vmaCount := ((k.mms mm).vmaCount + 1) % 2 ^ 64 } ∧
      ∀ m, m ≠ mm → k'.mms m = k.mms m := by
  unfold Kernel.loadStack
  dsimp only
  rw [hst, if_neg (show ¬ (((k.onMachine k.kmalloc.2).setVma stack {}).mms mm).mmap = 0 from hmmap),
    if_neg (show ¬ ((((k.onMachine k.kmalloc.2).setVma stack {}).linkCurrent mm stack).mms
      mm).current = 0 from hc₀)]
  refine ⟨_, rfl, rfl, rfl, fun a ha ↦ ?_, ?_, ?_, fun m hm ↦ ?_⟩
  · by_cases hac : a = (k.mms mm).current
    · simp [setRsp, setCurrent, linkCurrent, linkedVmas, hmmap, hac, hc]
    · simp [setRsp, setCurrent, linkCurrent, linkedVmas, hmmap, ha, hac]
  · simp [setRsp, setCurrent, linkCurrent, stackVma, Function.update_of_ne hc.symm]
  · simp [setRsp, setCurrent, linkCurrent]
  · simp [setRsp, setCurrent, linkCurrent, hm]

theorem loadHeap_spec {heap : Nat} (hh : k.kmalloc.1 = heap) (hmmap : (k.mms mm).mmap ≠ 0)
    (hc : (k.mms mm).current ≠ heap) :
    (k.loadHeap mm).toMachine = k.kmalloc.2.mapNew heapStart ∧ (k.loadHeap mm).procs = k.procs ∧
    (∀ a, a ≠ heap → (k.loadHeap mm).vmas a = linkedVmas k mm heap a) ∧
    (k.loadHeap mm).vmas heap = heapVma mm ∧
    (k.loadHeap mm).mms mm = { k.mms mm with
      current := heap, vmaCount := ((k.mms mm).vmaCount + 1) % 2 ^ 64, brk := heapStart } ∧
    ∀ m, m ≠ mm → (k.loadHeap mm).mms m = k.mms m := by
  unfold Kernel.loadHeap
  dsimp only
  rw [hh]
  refine ⟨rfl, rfl, fun a ha ↦ ?_, ?_, ?_, fun m hm ↦ ?_⟩
  · by_cases hac : a = (k.mms mm).current
    · simp [setCurrent, linkCurrent, linkedVmas, hmmap, hac, hc]
    · simp [setCurrent, linkCurrent, linkedVmas, hmmap, ha, hac]
  · simp [heapVma]
  · simp [setCurrent, linkCurrent]
  · simp [setCurrent, linkCurrent, hm]

/-! ## The whole file -/

/-- What `loadElf` reads of a file. -/
structure Elf where
  size : Nat
  entry : Nat
  phoff : Nat
  phdrs : List Phdr

/-- The frames that `loadElf` takes, at most. -/
def Elf.frames (f : Elf) : Nat := (f.phdrs.map Phdr.frames).sum + 10

/-- The well-formed file `f` lies at `ehdr`. -/
structure Elf.At (f : Elf) (w : Nat) (s : Machine) (free : List Nat) (ehdr : Nat) : Prop where
  file : FileAt w s free ehdr f.size
  header : 64 ≤ f.size
  magic : s.readBytes (ehdr + 1) 1 = some 0x45 ∧ s.readBytes (ehdr + 2) 1 = some 0x4c ∧
    s.readBytes (ehdr + 3) 1 = some 0x46
  entry : s.readBytes (ehdr + 24) 8 = some f.entry
  phoff : s.readBytes (ehdr + 32) 8 = some f.phoff
  phnum : s.readBytes (ehdr + 56) 2 = some f.phdrs.length
  phdrs : s.readPhdrs f.phdrs.length (ehdr + f.phoff) = some f.phdrs
  size : f.phoff + 56 * f.phdrs.length ≤ f.size
  fits : ∀ ph ∈ f.phdrs, ph.type = 1 → ph.Fits f.size
  load : ∃ ph ∈ f.phdrs, ph.type = 1

/-- `loadElf` has come from `k` to `k'` with the program `f` for `task`. -/
structure Program (w : Nat) (k : Kernel) (free : List Nat) (task ehdr : Nat) (f : Elf)
    (A : Nat → Option Nat) (k' : Kernel) (free' : List Nat) : Prop where
  machine : Loaded w k.toMachine free A (programImage (k.fileByte ehdr) f.phdrs) k'.toMachine free'
  pages : ∀ y, A y ≠ none ↔ ProgramPage f.phdrs y
  vmas : ∃ l stack heap, Linked k free (k.procs.pcbs task).mm (l ++ [stack, heap]) k' free' ∧
    (∀ a ∈ l, (k'.vmas a).type ≠ .stack ∧ (k'.vmas a).type ≠ .heap) ∧
    k'.vmas stack = { stackVma with next := heap } ∧
    k'.vmas heap = heapVma (k.procs.pcbs task).mm
  brk : (k'.mms (k.procs.pcbs task).mm).brk = heapStart
  procs : k'.procs = ((k.setRip task f.entry).setRsp task (userStackTop + 4096 - 16)).procs

theorem update_ne_none {x m y : Nat} :
    Function.update A x (some m) y ≠ none ↔ y = x ∨ A y ≠ none := by
  by_cases hy : y = x
  · rw [hy, Function.update_self]
    exact iff_of_true (Option.some_ne_none m) (.inl rfl)
  · rw [Function.update_of_ne hy, or_iff_right hy]

/-- A page for a VMA, and a page of the user. -/
theorem Loaded.newVma {v : Nat} (h : Loaded w s₀ free₀ A img s free) (h₀ : Space w s₀ free₀)
    (hlen : 5 ≤ free.length) (hv : v < 2 ^ 47) :
    ∃ n free₁ A' free', free = n :: free₁ ∧ s.kmalloc.1 = kptr (n * 4096) ∧ free' ⊆ free₁ ∧
      free.length ≤ free'.length + 5 ∧
      Loaded w s₀ free₀ A' (clearPage (v / 4096) img) (s.kmalloc.2.mapNew v) free' ∧
      ∀ y, A' y ≠ none ↔ y = v / 4096 ∨ A y ≠ none := by
  cases free with
  | nil => exact absurd hlen (by decide)
  | cons n free =>
      rw [List.length_cons] at hlen
      obtain ⟨hvma, hl⟩ := h.kmalloc h₀
      obtain ⟨m, free', hlen', hsuf, hl'⟩ := hl.mapNew hv (by omega)
      refine ⟨n, free, _, free', rfl, hvma, hsuf.subset, ?_, hl', fun y ↦ update_ne_none⟩
      rw [List.length_cons]
      omega

theorem Loading.loadStack (h : Loading w k₀ free₀ mm A img l k free) (task : Nat)
    (h₀ : Space w k₀.toMachine free₀) (hl : l ≠ []) (hlen : 5 ≤ free.length) :
    ∃ k' A' stack free', k.loadStack task mm = some k' ∧ free.length ≤ free'.length + 5 ∧
      Loaded w k₀.toMachine free₀ A' (clearPage (userStackTop / 4096) img) k'.toMachine free' ∧
      (∀ y, A' y ≠ none ↔ y = userStackTop / 4096 ∨ A y ≠ none) ∧
      Linked k₀ free₀ mm (l ++ [stack]) k' free' ∧
      (∀ a ∈ l, (k'.vmas a).type ≠ .stack ∧ (k'.vmas a).type ≠ .heap) ∧
      k'.vmas stack = stackVma ∧
      k'.procs = (k.setRsp task (userStackTop + 4096 - 16)).procs := by
  obtain ⟨n, free₁, A', free', rfl, hvma, hsub, hlen', hl', hA'⟩ :=
    h.machine.newVma h₀ (v := userStackTop) hlen (by decide)
  have hmmap : (k.mms mm).mmap ≠ 0 := by
    rw [Ne, h.linked.list.mmap_eq_zero]
    exact hl
  have hmem := h.linked.list.current_mem hmmap
  obtain ⟨k', hk', hm', hp', hv', hst, hmm', hmms'⟩ := loadStack_spec task hvma
    hmmap (h.linked.current_ne hmmap) (h.linked.list.ne_zero _ hmem)
  refine ⟨k', A', kptr (n * 4096), free', hk', hlen', by rw [hm']; exact hl', hA', ?_, ?_, hst, hp'⟩
  · refine h.linked.append (h.machine.suffix.subset List.mem_cons_self)
      h.machine.space.ready.free_lt h.machine.space.ready.freeList.nodup_cons hsub hv' ?_ ?_ ?_
      hmms'
    · rw [hst]
      rfl
    · rw [hmm', if_neg hmmap]
    · rw [hmm']
  · intro a ha
    have hne : a ≠ kptr (n * 4096) := fun he ↦
      (h.linked.fresh a ha).2 ⟨n, List.mem_cons_self, he⟩
    rw [hv' a hne, linkedVmas_type]
    exact h.type a ha

theorem linkedVmas_current (h : (k.mms mm).mmap ≠ 0) (vma : Nat) :
    linkedVmas k mm vma (k.mms mm).current =
      { k.vmas (k.mms mm).current with next := vma } := by
  rw [linkedVmas, if_neg h, Function.update_self]

theorem Linked.start (h : (k.mms mm).mmap = 0) : Linked k free mm [] k free where
  list := ⟨⟨h, List.forall_mem_nil _⟩, fun a ha ↦ absurd ha (Option.not_mem_none a),
    List.nodup_nil⟩
  fresh := List.forall_mem_nil _
  mms _ _ := rfl
  vmas _ _ := rfl

/-- The loop over the headers of a well-formed file reads them all, and comes to its end. -/
theorem Elf.At.readSegments {f : Elf} (hf : f.At w k.toMachine free ehdr)
    (h₀ : Space w k.toMachine free) (hmmap : (k.mms mm).mmap = 0)
    (hlen : (f.phdrs.map Phdr.frames).sum ≤ free.length) :
    ∃ k₁ A l free₁, Sbunix.readSegments ehdr mm f.phdrs.length ((ehdr + f.phoff) % 2 ^ 64) k =
        some (f.phdrs, k₁) ∧ free.length ≤ free₁.length + (f.phdrs.map Phdr.frames).sum ∧
      Loading w k free mm A (segmentsImage (k.fileByte ehdr) f.phdrs fun _ ↦ none) l k₁ free₁ ∧
      (∀ y, A y ≠ none ↔ ∃ ph ∈ f.phdrs, ph.Covers y) ∧ l ≠ [] := by
  have hsz := hf.size
  have hb := hf.file.bound
  have hstart : Loading w k free mm (fun _ ↦ none) (fun _ ↦ none) [] k free :=
    ⟨Loaded.start h₀, .start hmmap, List.forall_mem_nil _, rfl⟩
  obtain ⟨k₁, A, l, free₁, hk₁, hlen₁, h₁, hA, hl⟩ := hstart.loadSegments h₀ hf.file hf.phdrs
    (Nat.le_add_right _ _) (by omega) hf.fits hlen
  rw [Nat.mod_eq_of_lt (by omega)]
  refine ⟨k₁, A, l, free₁, hk₁, hlen₁, h₁, fun y ↦ ?_, fun he ↦ ?_⟩
  · rw [hA, or_iff_left (not_not.mpr rfl)]
  · obtain ⟨ph, hph, ht⟩ := hf.load
    exact (hl.mp he).2 ph hph ht

/-- Behind the magic number `loadElf` loads the program, from the frames that it is said to take. -/
theorem loadProgram_program {f : Elf} (task : Nat) (h₀ : Space w k.toMachine free)
    (hf : f.At w k.toMachine free ehdr) (hlen : f.frames ≤ free.length) :
    ∃ k' A free', k.loadProgram task ehdr = some k' ∧ free.length ≤ free'.length + f.frames ∧
      Program w k free task ehdr f A k' free' := by
  rw [Elf.frames] at hlen ⊢
  obtain ⟨mm, hmm⟩ : ∃ mm, (k.procs.pcbs task).mm = mm := ⟨_, rfl⟩
  obtain ⟨k₀, hk₀, hm₀, hv₀, hmmap₀, hmms₀⟩ : ∃ k₀, (k.setRip task f.entry).setMm mm
      { (k.setRip task f.entry).mms mm with mmap := 0 } = k₀ ∧ k₀.toMachine = k.toMachine ∧
      k₀.vmas = k.vmas ∧
      (k₀.mms mm).mmap = 0 ∧ ∀ m, m ≠ mm → k₀.mms m = k.mms m :=
    ⟨_, rfl, rfl, rfl, by simp, fun m hm ↦ by simp [hm, setRip]⟩
  have hp₀ : k₀.procs = (k.setRip task f.entry).procs := by rw [← hk₀, setMm_procs]
  have h₀' := hm₀ ▸ h₀
  -- the segments, the stack and the heap
  obtain ⟨k₁, A₁, l, free₁, hk₁, hlen₁, h₁, hA₁, hne⟩ :=
    (show f.At w k₀.toMachine free ehdr from hm₀ ▸ hf).readSegments h₀' hmmap₀ (by omega)
  obtain ⟨k₂, A₂, stack, free₂, hk₂, hlen₂, h₂, hA₂, hlink₂, htype₂, hst₂, hp₂⟩ :=
    h₁.loadStack task h₀' hne (by omega)
  obtain ⟨n, free₃, A₃, free', rfl, hvma, hsub, hlen', h₃, hA₃⟩ :=
    h₂.newVma h₀' (v := heapStart) (by omega) (by decide)
  have hmmap : (k₂.mms mm).mmap ≠ 0 := by
    rw [Ne, hlink₂.list.mmap_eq_zero]
    simp
  obtain ⟨hm₃, hp₃, hv₃, hheap, hmm₃, hmms₃⟩ :=
    loadHeap_spec hvma hmmap (hlink₂.current_ne hmmap)
  have hcur₂ : (k₂.mms mm).current = stack := hlink₂.list.last stack (by simp)
  have hlink₃ := hlink₂.append (h₂.suffix.subset List.mem_cons_self) h₂.space.ready.free_lt
    h₂.space.ready.freeList.nodup_cons hsub hv₃ (by rw [hheap]; rfl)
    (by rw [hmm₃, if_neg hmmap]) (by rw [hmm₃]) hmms₃
  have hnew : ∀ a ∈ l ++ [stack], a ≠ kptr (n * 4096) := fun a ha he ↦
    (hlink₂.fresh a ha).2 ⟨n, List.mem_cons_self, he⟩
  refine ⟨k₂.loadHeap mm, A₃, free', ?_, by omega, ?_, fun y ↦ ?_,
    ⟨l, stack, kptr (n * 4096), ?_, ?_, ?_, ?_⟩, ?_, ?_⟩
  · unfold Kernel.loadProgram
    rw [hf.phoff, hf.entry, hf.phnum, Option.bind_some, Option.bind_some, Option.bind_some, hmm]
    change (Kernel.loadSegments ehdr mm f.phdrs.length ((ehdr + f.phoff) % 2 ^ 64)
      ((k.setRip task f.entry).setMm mm { (k.setRip task f.entry).mms mm with mmap := 0 })).bind _ = _
    rw [hk₀, loadSegments_eq, hk₁, Option.map_some, Option.bind_some, hk₂, Option.map_some]
  · rw [hm₃, ← hm₀]
    exact h₃
  · rw [hA₃, hA₂, hA₁, ProgramPage]
    constructor
    · rintro (h | h | h)
      · exact .inr (.inr h)
      · exact .inr (.inl h)
      · exact .inl h
    · rintro (h | h | h)
      · exact .inr (.inr h)
      · exact .inr (.inl h)
      · exact .inl h
  · rw [hmm]
    refine ⟨?_, ?_, fun m hm ↦ (hlink₃.mms m hm).trans (hmms₀ m hm), fun a ha ↦ ?_⟩
    · rw [List.append_cons]
      exact hlink₃.list
    · rw [List.append_cons]
      exact hlink₃.fresh
    · rw [hlink₃.vmas a ha, hv₀]
  · intro a ha
    rw [hv₃ a (hnew a (List.mem_append_left _ ha)), linkedVmas_type]
    exact htype₂ a ha
  · have hc := linkedVmas_current hmmap (kptr (n * 4096))
    rw [hcur₂, hst₂] at hc
    rw [hv₃ stack (hnew stack (List.mem_append_right l (List.mem_singleton_self stack)))]
    exact hc
  · rw [hmm]
    exact hheap
  · rw [hmm, hmm₃]
  · rw [hp₃, hp₂, setRsp, setRsp, h₁.procs, hp₀]

/-- `loadElf` returns with the program loaded. -/
theorem loadFile_program {f : Elf} (task : Nat) (h₀ : Space w k.toMachine free)
    (hf : f.At w k.toMachine free ehdr) (hlen : f.frames ≤ free.length) :
    ∃ k' A free', k.loadFile task ehdr = some k' ∧ Program w k free task ehdr f A k' free' := by
  obtain ⟨h1, h2, h3⟩ := hf.magic
  obtain ⟨k', A, free', hk', -, hp⟩ := loadProgram_program task h₀ hf hlen
  refine ⟨k', A, free', ?_, hp⟩
  rw [Kernel.loadFile, h1, h2, h3, Option.bind_some, Option.bind_some, Option.bind_some,
    if_pos ⟨rfl, rfl, rfl⟩, hk']

end Sbunix
