import Sbunix.Sys.ElfImage

/-!
# The VMAs that `loadElf` links

Every VMA is linked in behind `mm->current`, the stack's even when there is none before it.  What
the segments do to the memory plays no part here: each VMA is in a page of its own as long as the
frames suffice.
-/

namespace Sbunix

open Reasoning Kernel

variable {k k' k₀ k₁ : Kernel} {n a ehdr mm task new : Nat} {free free' free₀ l : List Nat}
  {ph : Phdr} {phs phs' : List Phdr}

/-! ## The list that is claimed -/

def Phdr.isLoad (ph : Phdr) : Bool := ph.type = 1

/-- The addresses that the VMA of a segment is to cover. -/
def Phdr.span (ph : Phdr) : Nat × Nat := (ph.vaddr, (ph.vaddr + ph.memsz) % 2 ^ 64)

def Kernel.span (k : Kernel) (a : Nat) : Nat × Nat := ((k.vmas a).start, (k.vmas a).vmEnd)

/-- The VMA `new` has been linked in at the end of the list. -/
structure Appends (k : Kernel) (mm new : Nat) (k' : Kernel) : Prop where
  vmas : ∀ a, a ≠ new → k'.vmas a = linkedVmas k mm new a
  next : (k'.vmas new).next = 0
  mmap : (k'.mms mm).mmap = if (k.mms mm).mmap = 0 then new else (k.mms mm).mmap
  current : (k'.mms mm).current = new
  count : (k'.mms mm).vmaCount = ((k.mms mm).vmaCount + 1) % 2 ^ 64
  mms : ∀ m, m ≠ mm → k'.mms m = k.mms m

/-- Relinking changes the `next` fields only. -/
theorem linkedVmas_fields (k : Kernel) (mm new a : Nat) :
    { linkedVmas k mm new a with next := 0 } = { k.vmas a with next := 0 } := by
  rw [linkedVmas]
  split
  · rfl
  · by_cases ha : a = (k.mms mm).current
    · rw [ha, Function.update_self]
    · rw [Function.update_of_ne ha]

theorem Appends.span (h : Appends k mm new k') (ha : a ≠ new) : k'.span a = k.span a := by
  have he := linkedVmas_fields k mm new a
  rw [← h.vmas a ha] at he
  have hs := congrArg Vma.start he
  have hv := congrArg Vma.vmEnd he
  exact Prod.ext hs hv

/-- The loader has linked the VMAs `l` of `mm`, in pages taken from `free₀`, and counted them. -/
structure Listed (k₀ : Kernel) (free₀ : List Nat) (mm : Nat) (l : List Nat) (k : Kernel)
    (free : List Nat) : Prop where
  freeList : FreeList k.alloc free
  suffix : free <:+ free₀
  linked : Linked k₀ free₀ mm l k free
  count : (k.mms mm).vmaCount = l.length

theorem FreeList.length_le {s : PageAlloc} (h : FreeList s free) : free.length ≤ s.lastPage := by
  have hsub : free ⊆ List.range s.lastPage := fun x hx ↦
    List.mem_range.mpr (h.ascending.lt_end hx)
  have hlen := h.nodup.length_le_of_subset hsub
  rwa [List.length_range] at hlen

/-- The pages of the VMAs were free, which bounds their number. -/
theorem Linked.length_lt (h : Linked k₀ free₀ mm l k free) (hf : FreeList k₀.alloc free₀) :
    l.length < 2 ^ 52 := by
  have hsub : l ⊆ free₀.map fun n ↦ kptr (n * 4096) := by
    intro a ha
    obtain ⟨n, hn, rfl⟩ := (h.fresh a ha).1
    exact List.mem_map_of_mem hn
  have hlen := h.list.nodup.length_le_of_subset hsub
  rw [List.length_map] at hlen
  exact (hlen.trans hf.length_le).trans_lt hf.bound

section
variable (h₀ : FreeList k₀.alloc free₀) (hlt : ∀ x ∈ free₀, x < 2 ^ 19)
include h₀ hlt

theorem Listed.append (h : Listed k₀ free₀ mm l k (n :: free))
    (ha : Appends k mm (kptr (n * 4096)) k') {j : Nat} (hf : FreeList k'.alloc (free.drop j)) :
    Listed k₀ free₀ mm (l ++ [kptr (n * 4096)]) k' (free.drop j) := by
  have hsuf : free.drop j <:+ free := List.drop_suffix j free
  have hlinked := h.linked.append (h.suffix.subset List.mem_cons_self)
    (fun x hx ↦ hlt x (h.suffix.subset hx)) h.freeList.nodup_cons hsuf.subset ha.vmas ha.next
    ha.mmap ha.current ha.mms
  refine ⟨hf, (hsuf.trans (List.suffix_cons n free)).trans h.suffix, hlinked, ?_⟩
  have hlen := hlinked.length_lt h₀
  rw [List.length_append, List.length_singleton] at hlen ⊢
  rw [ha.count, h.count]
  exact Nat.mod_eq_of_lt (by omega)

end

/-- The new VMA is none of those before it. -/
theorem Listed.ne_new (h : Listed k₀ free₀ mm l k (n :: free)) (ha : a ∈ l) :
    a ≠ kptr (n * 4096) := fun he ↦ (h.linked.fresh a ha).2 ⟨n, List.mem_cons_self, he⟩

/-! ## The segments -/

theorem pops_mapNew (s : Machine) (v : Nat) : Pops 4 s (s.mapNew v) :=
  (pops_allocatePage s).trans (pops_mapVP2 s.allocatePage.2 v s.allocatePage.1)

theorem pops_mapPages (size start : Nat) (s : Machine) :
    Pops (4 * size) s (Machine.mapPages size start s) := by
  induction size generalizing start s with
  | zero => exact .refl s
  | succ size ih =>
      exact ((pops_mapNew s start).trans (ih _ _)).mono (by omega)

theorem copySegment_keeps (h : k.copySegment ehdr mm ph = some k') :
    k'.alloc = k.alloc ∧ k'.vmas = k.vmas ∧ (k'.mms mm).mmap = (k.mms mm).mmap ∧
      (k'.mms mm).current = (k.mms mm).current ∧ (k'.mms mm).vmaCount = (k.mms mm).vmaCount ∧
      ∀ m, m ≠ mm → k'.mms m = k.mms m := by
  unfold Kernel.copySegment at h
  split at h
  · obtain ⟨s, hs, rfl⟩ := Option.map_eq_some_iff.mp h
    refine ⟨memcpy_alloc hs, rfl, ?_, ?_, ?_, fun m hm ↦ ?_⟩
    · simp
    · simp
    · simp
    · simp [hm]
  · obtain rfl := Option.some.inj h
    exact ⟨rfl, rfl, rfl, rfl, rfl, fun m _ ↦ rfl⟩

theorem segmentFile_keeps (k : Kernel) (ehdr vma : Nat) (ph : Phdr) :
    Pops 4 k.toMachine (k.segmentFile ehdr vma ph).toMachine ∧
      (k.segmentFile ehdr vma ph).mms = k.mms ∧
      (∀ a, a ≠ vma → (k.segmentFile ehdr vma ph).vmas a = k.vmas a) ∧
      ((k.segmentFile ehdr vma ph).vmas vma).next = (k.vmas vma).next ∧
      (k.segmentFile ehdr vma ph).span vma = k.span vma := by
  unfold Kernel.segmentFile Kernel.span
  dsimp only
  refine ⟨pops_kmalloc k.toMachine, rfl, fun a ha ↦ ?_, ?_, ?_⟩
  · rw [setVma_vmas, Function.update_of_ne ha]
    rfl
  · rw [setVma_vmas, Function.update_self]
  · rw [setVma_vmas, Function.update_self]

/-- The frames that a segment takes at most when the window's own tables are missing too. -/
def Phdr.mostFrames (ph : Phdr) : Nat := if ph.isLoad then 8 + 4 * ph.pages else 0

theorem loadSegment_appends (h : k.loadSegment ehdr mm ph = some k') (ht : ph.type = 1)
    (hf : FreeList k.alloc (n :: free))
    (hc : (k.mms mm).mmap ≠ 0 → (k.mms mm).current ≠ kptr (n * 4096)) :
    Appends k mm (kptr (n * 4096)) k' ∧ k'.span (kptr (n * 4096)) = ph.span ∧
      ∃ j ≤ 7 + 4 * ph.pages, FreeList k'.alloc (free.drop j) := by
  obtain ⟨hvma, i, hi, hfi⟩ := kmalloc_spec hf
  unfold Kernel.loadSegment at h
  rw [if_pos ht] at h
  dsimp only at h
  rw [hvma] at h
  have hspec := segmentVma_spec (k.onMachine k.kmalloc.2) mm ph hc
  generalize (k.onMachine k.kmalloc.2).segmentVma mm (kptr (n * 4096)) ph = k₁ at h hspec
  obtain ⟨hm₁, -, hv₁, hvma₁, hmm₁, hmms₁⟩ := hspec
  obtain ⟨k₂, hk₂, rfl⟩ := Option.map_eq_some_iff.mp h
  obtain ⟨ha₂, hv₂, hmmap₂, hcur₂, hcount₂, hmms₂⟩ := copySegment_keeps hk₂
  obtain ⟨hpops, hmm₃, hv₃, hnext₃, hspan₃⟩ := segmentFile_keeps k₂ ehdr (kptr (n * 4096)) ph
  refine ⟨⟨fun a ha ↦ ?_, ?_, ?_, ?_, ?_, fun m hm ↦ ?_⟩, ?_, ?_⟩
  · rw [hv₃ a ha, hv₂]
    exact hv₁ a ha
  · rw [hnext₃, hv₂, onMachine_vmas, hvma₁]
  · rw [hmm₃, hmmap₂, onMachine_mms, hmm₁]
    rfl
  · rw [hmm₃, hcur₂, onMachine_mms, hmm₁]
  · rw [hmm₃, hcount₂, onMachine_mms, hmm₁]
    rfl
  · rw [hmm₃, hmms₂ m hm]
    exact hmms₁ m hm
  · rw [hspan₃, Kernel.span, hv₂, onMachine_vmas, hvma₁]
    rfl
  · -- the tables of the window, the pages of the segment, and the `file` record
    have hp : Pops (0 + 4 * ph.pages + 0 + 4) k.kmalloc.2
        (k₂.segmentFile ehdr (kptr (n * 4096)) ph).toMachine :=
      (((Pops.of_alloc (congrArg Machine.alloc hm₁)).trans
        (pops_mapPages ph.pages (ph.vaddr / 4096 * 4096) k₁.toMachine)).trans
        (.of_alloc ha₂)).trans hpops
    obtain ⟨j, hj, hfj⟩ := hp _ hfi
    rw [List.drop_drop] at hfj
    exact ⟨i + j, by omega, hfj⟩

/-- The VMAs `l` are those of the segments among the headers `phs`. -/
structure SegmentList (k₀ : Kernel) (free₀ : List Nat) (mm : Nat) (phs : List Phdr) (l : List Nat)
    (k : Kernel) (free : List Nat) : Prop extends Listed k₀ free₀ mm l k free where
  spans : l.map k.span = (phs.filter Phdr.isLoad).map Phdr.span
  current : l = [] → (k.mms mm).current = 0

section
variable (h₀ : FreeList k₀.alloc free₀) (hlt : ∀ x ∈ free₀, x < 2 ^ 19)
include h₀ hlt

theorem SegmentList.loadSegment (h : SegmentList k₀ free₀ mm phs l k free)
    (hk : k.loadSegment ehdr mm ph = some k') (hlen : ph.mostFrames ≤ free.length) :
    ∃ l' free', SegmentList k₀ free₀ mm (phs ++ [ph]) l' k' free' ∧
      free.length ≤ free'.length + ph.mostFrames := by
  by_cases ht : ph.type = 1
  · have hload : ph.isLoad = true := by simp [Phdr.isLoad, ht]
    rw [Phdr.mostFrames, if_pos hload] at hlen ⊢
    cases free with
    | nil => simp at hlen
    | cons n free =>
        obtain ⟨ha, hspan, j, hj, hfj⟩ :=
          loadSegment_appends hk ht h.freeList h.linked.current_ne
        refine ⟨_, _, ⟨h.toListed.append h₀ hlt ha hfj, ?_, fun he ↦ by simp at he⟩, ?_⟩
        · have hold : l.map k'.span = l.map k.span :=
            List.map_congr_left fun a hal ↦ ha.span (h.toListed.ne_new hal)
          rw [List.map_append, hold, h.spans, List.filter_append, List.map_append,
            List.filter_singleton, hload, List.map_singleton, hspan]
          rfl
        · rw [List.length_cons] at hlen ⊢
          rw [List.length_drop]
          omega
  · -- other headers are skipped
    have hload : ph.isLoad = false := by simp [Phdr.isLoad, ht]
    rw [Kernel.loadSegment, if_neg ht] at hk
    obtain rfl := Option.some.inj hk
    refine ⟨l, free, ⟨h.toListed, ?_, h.current⟩, Nat.le_add_right _ _⟩
    rw [h.spans, List.filter_append, List.filter_singleton, hload]
    simp

theorem SegmentList.readSegments (h : SegmentList k₀ free₀ mm phs l k free)
    (hk : readSegments ehdr mm n a k = some (phs', k'))
    (hlen : (phs'.map Phdr.mostFrames).sum ≤ free.length) :
    ∃ l' free', SegmentList k₀ free₀ mm (phs ++ phs') l' k' free' ∧
      free.length ≤ free'.length + (phs'.map Phdr.mostFrames).sum := by
  induction n generalizing a phs phs' l k free with
  | zero =>
      obtain ⟨rfl, rfl⟩ := Prod.mk.inj (Option.some.inj hk)
      exact ⟨l, free, by rwa [List.append_nil], Nat.le_add_right _ _⟩
  | succ n ih =>
      rw [Sbunix.readSegments] at hk
      obtain ⟨ph, -, hk⟩ := Option.bind_eq_some_iff.mp hk
      obtain ⟨k₁, hk₁, hk⟩ := Option.bind_eq_some_iff.mp hk
      obtain ⟨r, hr, he⟩ := Option.map_eq_some_iff.mp hk
      obtain ⟨rfl, rfl⟩ := Prod.mk.inj he
      rw [List.map_cons, List.sum_cons] at hlen
      obtain ⟨l₁, free₁, h₁, hlen₁⟩ := h.loadSegment h₀ hlt hk₁ (by omega)
      obtain ⟨l', free', h', hlen'⟩ := ih h₁ hr (by omega)
      refine ⟨l', free', by rwa [List.append_assoc] at h', ?_⟩
      rw [List.map_cons, List.sum_cons]
      omega

/-! ## The stack and the heap -/

theorem Listed.loadStack (task : Nat) (h : Listed k₀ free₀ mm l k free) (hl : l ≠ [])
    (hlen : 8 ≤ free.length) :
    ∃ k' stack free', k.loadStack task mm = some k' ∧ Listed k₀ free₀ mm (l ++ [stack]) k' free' ∧
      k'.vmas stack = stackVma ∧ (∀ a ∈ l, k'.span a = k.span a) ∧
      free.length ≤ free'.length + 8 := by
  cases free with
  | nil => simp at hlen
  | cons n free =>
      obtain ⟨hvma, i, hi, hfi⟩ := kmalloc_spec h.freeList
      have hmmap : (k.mms mm).mmap ≠ 0 := by
        rw [Ne, h.linked.list.mmap_eq_zero]
        exact hl
      have hmem := h.linked.list.current_mem hmmap
      obtain ⟨k', hk', hm', -, hv', hst, hmm', hmms'⟩ := loadStack_spec task hvma hmmap
        (h.linked.current_ne hmmap) (h.linked.list.ne_zero _ hmem)
      obtain ⟨j, hj, hfj⟩ := pops_mapNew k.kmalloc.2 userStackTop _ hfi
      rw [List.drop_drop, ← hm'] at hfj
      have ha : Appends k mm (kptr (n * 4096)) k' := by
        refine ⟨hv', by rw [hst]; rfl, ?_, by rw [hmm'], by rw [hmm'], hmms'⟩
        rw [hmm', if_neg hmmap]
      refine ⟨k', _, _, hk', h.append h₀ hlt ha hfj, hst, fun a hal ↦ ha.span (h.ne_new hal), ?_⟩
      rw [List.length_cons, List.length_drop]
      omega

theorem Listed.loadHeap (h : Listed k₀ free₀ mm l k free) (hl : l ≠ []) (hlen : 8 ≤ free.length) :
    ∃ heap free', Listed k₀ free₀ mm (l ++ [heap]) (k.loadHeap mm) free' ∧
      (k.loadHeap mm).vmas heap = heapVma mm ∧
      ∀ a ∈ l, (k.loadHeap mm).vmas a = linkedVmas k mm heap a ∧
        (k.loadHeap mm).span a = k.span a := by
  cases free with
  | nil => simp at hlen
  | cons n free =>
      obtain ⟨hvma, i, hi, hfi⟩ := kmalloc_spec h.freeList
      have hmmap : (k.mms mm).mmap ≠ 0 := by
        rw [Ne, h.linked.list.mmap_eq_zero]
        exact hl
      obtain ⟨hm', -, hv', hheap, hmm', hmms'⟩ :=
        loadHeap_spec hvma hmmap (h.linked.current_ne hmmap)
      obtain ⟨j, hj, hfj⟩ := pops_mapNew k.kmalloc.2 heapStart _ hfi
      rw [List.drop_drop, ← hm'] at hfj
      have ha : Appends k mm (kptr (n * 4096)) (k.loadHeap mm) := by
        refine ⟨hv', by rw [hheap]; rfl, ?_, by rw [hmm'], by rw [hmm'], hmms'⟩
        rw [hmm', if_neg hmmap]
      exact ⟨_, _, h.append h₀ hlt ha hfj, hheap, fun a hal ↦
        ⟨hv' a (h.ne_new hal), ha.span (h.ne_new hal)⟩⟩

end

end Sbunix
