import Sbunix.Sys.ForkTables
import Sbunix.Sys.KernelFrame

/-!
# The address spaces of parent and child

`forkSyscall` copies the tables while they are loaded, loads the child's, and takes pages for the
records of the child.  Of the memory in use it writes to the parent's tables and the window's only.
-/

namespace Sbunix

open Reasoning Kernel

variable {k k' : Kernel} {s s' : Machine} {mem mem' : Memory} {w r p c n fuel : Nat}
  {free free' l : List Nat} {T : Set Nat}

/-- The user tables under `r` are a tree apart from the window's tables and the free pages. -/
structure UserTree (mem : Memory) (w r : Nat) (free : List Nat) : Prop where
  tree : IsTree (child userEntries mem) 3 r
  aligned : ∀ t ∈ tableFrames userEntries mem r, 4096 ∣ t ∧ t < 2 ^ 31
  window : ∀ t ∈ tableFrames userEntries mem r, t ∉ windowFrames mem w
  free : ∀ t ∈ tableFrames userEntries mem r, t ∉ framesOf free

theorem UserTree.dvd (h : UserTree mem w r free) : ∀ t ∈ tableFrames userEntries mem r, 4096 ∣ t :=
  fun t ht ↦ (h.aligned t ht).1

theorem UserTree.congr (h : UserTree mem w r free)
    (hs : SameOn (tableFrames userEntries mem r) mem mem')
    (hw : windowFrames mem' w = windowFrames mem w) (hl : free' ⊆ free) :
    UserTree mem' w r free' := by
  have ht := tableFrames_congr h.dvd hs
  refine ⟨h.tree.congr fun _ u hu ↦ child_congr (hs.entry (h.dvd u hu) hu) _, ?_, ?_, ?_⟩
  · rw [ht]
    exact h.aligned
  · rw [ht, hw]
    exact h.window
  · rw [ht]
    exact fun t hm hf ↦ h.free t hm (framesOf_mono hl hf)

/-- The kernel's own allocations leave a tree of user tables alone. -/
theorem Kept.sameOn (h : Kept w s free s' free') (hu : UserTree s.mem w r free) :
    SameOn (tableFrames userEntries s.mem r) s.mem s'.mem := by
  obtain ⟨l, hl, hbytes⟩ := h.taken
  intro x hx
  refine hbytes x (hu.window _ hx) fun hf ↦ hu.free _ hx (framesOf_mono ?_ hf)
  rw [hl]
  exact List.subset_append_left l free'

theorem Kept.suffix (h : Kept w s free s' free') : free' ⊆ free := by
  obtain ⟨l, hl, -⟩ := h.taken
  rw [hl]
  exact List.subset_append_right l free'

theorem Kept.userTree (h : Kept w s free s' free') (hu : UserTree s.mem w r free) :
    UserTree s'.mem w r free' :=
  hu.congr (h.sameOn hu) h.frames h.suffix

/-! ## While the tables are copied -/

theorem UserTree.copyReady (hr : Ready w s (n :: free)) (hu : UserTree s.mem w s.cr3 (n :: free)) :
    CopyReady 3 s.cr3 (n * 4096) s.allocatePage.2 free where
  tree := hu.tree
  aligned := hu.aligned
  freeList := (allocatePage_spec hr.freeList).2.1
  free_lt m hm := hr.free_lt m (List.mem_cons_of_mem n hm)
  free_apart f hf ht := hu.free f ht (framesOf_mono (List.subset_cons_self n free) hf)
  dest := by
    have := hr.free_lt n List.mem_cons_self
    exact ⟨Nat.dvd_mul_left _ _, by omega⟩
  dest_apart := by
    refine ⟨fun ht ↦ hu.free _ ht ⟨n, List.mem_cons_self, rfl⟩, fun ⟨m, hm, he⟩ ↦ ?_⟩
    have hmn : n = m := by omega
    exact hr.freeList.nodup_cons (hmn ▸ hm)

/-- The child's table may be loaded: it has the parent's window. -/
theorem ForkedTables.ready (h : ForkedTables s.cr3 (n * 4096) s.allocatePage.2 l s' free')
    (hr : Ready w s (n :: free)) (hu : UserTree s.mem w s.cr3 (n :: free))
    (hl : free = l ++ free') :
    Ready w (s'.loadCR3 (n * 4096)) free' ∧ windowFrames s'.mem w = windowFrames s.mem w := by
  have hn := hr.free_lt n List.mem_cons_self
  have hnf : n * 4096 ∈ framesOf (n :: free) := ⟨n, List.mem_cons_self, rfl⟩
  have hlsub : framesOf l ⊆ framesOf (n :: free) := framesOf_mono fun m hm ↦ by simp [hl, hm]
  have hsub : free' ⊆ n :: free := fun m hm ↦ by simp [hl, hm]
  -- what was written are the parent's tables and pages that were free
  have hsame : SameOn (windowFrames s.mem w) s.mem s'.mem := fun x hx ↦
    h.bytes x (fun ht ↦ hu.window _ ht hx) (fun he ↦ hr.window.apart _ hnf (he ▸ hx))
      fun hm ↦ hr.window.apart _ (hlsub hm) hx
  obtain ⟨hwin, hframes⟩ := hr.window.congr hsame
  refine ⟨⟨h.freeList, fun m hm ↦ hr.free_lt m (hsub hm), ⟨hwin.tree, hwin.aligned, fun m hm ↦
    hwin.direct m (hsub hm), fun f hf ↦ hwin.apart f (framesOf_mono hsub hf)⟩,
    ⟨Nat.dvd_mul_left _ _, by change n * 4096 < 2 ^ 31; omega⟩, ⟨?_, ?_⟩, ?_⟩, hframes⟩
  · change n * 4096 ∉ windowFrames s'.mem w
    rw [hframes]
    exact hr.window.apart _ hnf
  · rintro ⟨m, hm, he⟩
    have hmn : n = m := by
      change n * 4096 = m * 4096 at he
      omega
    refine hr.freeList.nodup_cons ?_
    rw [hl, hmn]
    exact List.mem_append_right l hm
  · change child allEntries s'.mem 2 (n * 4096) 511 = some w
    rw [child, h.kernel]
    exact hr.shared

/-- What `forkSyscall` does to the memory with the tables at `p`: the child's are at `c`, with the
frames of `l` below it, and the frames of `taken` are no longer free. -/
structure ForkedSpace (w p c : Nat) (l taken : List Nat) (mem mem' : Memory) : Prop where
  frames : windowFrames mem' w = windowFrames mem w
  kept : ∀ t ∈ tableFrames userEntries mem p, ∀ m,
    child userEntries mem' m t = child userEntries mem m t
  pages : ∀ q, pageAt userEntries mem' p q = (pageAt userEntries mem p q).map cow
  copied : NoStale mem p c → Copied 3 mem mem' p c (framesOf l)
  parent : ∀ j, entry mem' p j = entry mem p j
  kernel : entry mem' c 511 = entry mem p 511
  stale : ∀ i : Fin 512, i < 510 → ¬ Present (entry mem p i) → entry mem' c i = entry mem c i
  bytes : ∀ x, x / 4096 * 4096 ∉ windowFrames mem w →
    x / 4096 * 4096 ∉ tableFrames userEntries mem p → x / 4096 * 4096 ∉ framesOf taken →
      mem' x = mem x

theorem ForkedTables.space {s₁ s₂ : Machine} {m : Nat} (hr : Ready w s (m :: n :: free))
    (hu : UserTree s.mem w s.cr3 (m :: n :: free)) (h₁ : Kept w s (m :: n :: free) s₁ (n :: free))
    (hs₂ : s₂.mem = s₁.mem) (h : ForkedTables s.cr3 (n * 4096) s₂ l s' free')
    (hframes : windowFrames s'.mem w = windowFrames s₁.mem w) :
    ForkedSpace w s.cr3 (n * 4096) l (m :: n :: l) s.mem s'.mem := by
  have hsame₁ := h₁.sameOn hu
  have htab₁ := tableFrames_congr hu.dvd hsame₁
  obtain ⟨l₁, hl₁, hbytes₁⟩ := h₁.taken
  -- the PCB takes one page, which the copy does not touch
  obtain rfl : l₁ = [m] := List.append_cancel_right hl₁.symm
  have hp : s.cr3 ∈ tableFrames userEntries s.mem s.cr3 := self_mem_tables
  have hp₁ : ∀ i, entry s₁.mem s.cr3 i = entry s.mem s.cr3 i := hsame₁.entry (hu.dvd _ hp) hp
  have hpages₁ : ∀ q, pageAt userEntries s₁.mem s.cr3 q = pageAt userEntries s.mem s.cr3 q :=
    pageAt_congr hu.dvd hsame₁
  have hc₁ : ∀ i, entry s₁.mem (n * 4096) i = entry s.mem (n * 4096) i := by
    refine fun i ↦ entry_page (Nat.dvd_mul_left _ _) (fun x hx ↦ hbytes₁ x ?_ ?_) i
    · rw [hx]
      exact hr.window.apart _ ⟨n, List.mem_cons_of_mem m List.mem_cons_self, rfl⟩
    · rw [hx]
      rintro ⟨y, hy, he⟩
      have hnm : n = m := by
        have := List.mem_singleton.mp hy
        omega
      exact hr.freeList.nodup_cons (hnm ▸ List.mem_cons_self)
  obtain ⟨-, -, hkept, hpages, hcopied, hparent, hkernel, hstale, hbytes⟩ := h
  rw [hs₂] at hkept hpages hcopied hparent hkernel hstale hbytes
  refine ⟨hframes.trans h₁.frames, fun t ht m ↦ ?_, fun q ↦ ?_, fun hns ↦ ?_, fun j ↦ ?_, ?_,
    fun i hi hpi ↦ ?_, fun x hxw hxt hxl ↦ ?_⟩
  · exact (hkept t (by rwa [htab₁]) m).trans (child_congr (hsame₁.entry (hu.dvd t ht) ht) m)
  · rw [hpages, hpages₁]
  · have hcop := hcopied fun i hi hpi ↦ by
      rw [hc₁]
      refine hns i hi ?_
      rwa [← hp₁]
    refine ⟨fun q ↦ ?_, fun q ↦ ?_, hcop.tree, hcop.frames⟩
    · have hq := hpages₁ q
      unfold pageAt at hq
      rw [hcop.shared, hq]
    · have hq := hpages₁ q
      unfold pageAt at hq
      rw [hcop.copy, hq]
  · exact (hparent j).trans (hp₁ j)
  · exact hkernel.trans (hp₁ _)
  · have hpi₁ : ¬ Present (entry s₁.mem s.cr3 i) := by rwa [hp₁]
    exact (hstale i hi hpi₁).trans (hc₁ i)
  · have hxl₁ : ∀ y ∈ m :: n :: l, x / 4096 * 4096 ≠ y * 4096 := fun y hy he ↦ hxl ⟨y, hy, he⟩
    refine (hbytes x (by rwa [htab₁]) (hxl₁ n (by simp)) ?_).trans (hbytes₁ x hxw ?_)
    · exact fun ⟨y, hy, he⟩ ↦ hxl₁ y (List.mem_cons_of_mem m (List.mem_cons_of_mem n hy)) he
    · exact fun ⟨y, hy, he⟩ ↦ hxl₁ m List.mem_cons_self (List.mem_singleton.mp hy ▸ he)

theorem ForkedSpace.then_kept {taken : List Nat} (h : ForkedSpace w p (c * 4096) l taken mem s.mem)
    (hu : UserTree mem w p free) (hc : c ∈ taken) (hl : l ⊆ taken)
    (ht : ∀ x ∈ taken, x * 4096 ∉ windowFrames mem w ∧ x * 4096 ∉ framesOf free')
    (hsub : free' ⊆ free) {l' : List Nat} (hframes : windowFrames s'.mem w = windowFrames s.mem w)
    (hl' : l' ⊆ free') (hbytes : ∀ x, x / 4096 * 4096 ∉ windowFrames s.mem w →
      x / 4096 * 4096 ∉ framesOf l' → s'.mem x = s.mem x) :
    ForkedSpace w p (c * 4096) l (taken ++ l') mem s'.mem := by
  have hpage : ∀ t, 4096 ∣ t → t ∉ windowFrames mem w → t ∉ framesOf free' →
      ∀ i, entry s'.mem t i = entry s.mem t i := by
    refine fun t hd hw hf ↦ entry_page hd fun x hx ↦ hbytes x ?_ fun hm ↦ hf ?_
    · rw [hx, h.frames]
      exact hw
    · rw [hx] at hm
      exact framesOf_mono hl' hm
  -- the parent's tables, and the frames of the child's
  have hold : ∀ t ∈ tableFrames userEntries mem p, ∀ i, entry s'.mem t i = entry s.mem t i :=
    fun t htm ↦ hpage t (hu.dvd t htm) (hu.window t htm) fun hf ↦
      hu.free t htm (framesOf_mono hsub hf)
  have hnew : ∀ x ∈ taken, ∀ i, entry s'.mem (x * 4096) i = entry s.mem (x * 4096) i := fun x hx ↦
    hpage _ (Nat.dvd_mul_left _ _) (ht x hx).1 (ht x hx).2
  have htab : tableFrames userEntries s.mem p = tableFrames userEntries mem p :=
    tables_congr fun m t ht ↦ h.kept t ht m
  refine ⟨hframes.trans h.frames, fun t ht m ↦ ?_, fun q ↦ ?_, fun hns ↦ ?_, fun j ↦ ?_, ?_,
    fun i hi hpi ↦ ?_, fun x hxw hxt hxl ↦ ?_⟩
  · exact (child_congr (hold t ht) m).trans (h.kept t ht m)
  · rw [pageAt, leaf_congr (fun m t ht ↦ child_congr (hold t (htab ▸ ht)) m)
      (fun t ht ↦ pageEntry_congr (hold t (htab ▸ ht))) q]
    exact h.pages q
  · refine (h.copied hns).congr subset_rfl (fun t ht ↦ hold t (by rwa [← htab])) fun t ht ↦ ?_
    rcases (h.copied hns).frames ht with rfl | ⟨x, hx, rfl⟩
    · exact hnew c hc
    · exact hnew x (hl hx)
  · exact (hold p self_mem_tables j).trans (h.parent j)
  · exact (hnew c hc _).trans h.kernel
  · exact (hnew c hc i).trans (h.stale i hi hpi)
  · rw [framesOf_append, Set.mem_union, not_or] at hxl
    rw [hbytes x (by rwa [h.frames]) hxl.2, h.bytes x hxw hxt hxl.1]

theorem Ready.loadCR3 (h : Ready w s free) (hr : 4096 ∣ r ∧ r < 2 ^ 31)
    (hw : r ∉ windowFrames s.mem w) (hf : r ∉ framesOf free)
    (hs : child allEntries s.mem 2 r 511 = some w) : Ready w (s.loadCR3 r) free :=
  ⟨h.freeList, h.free_lt, h.window, hr, ⟨hw, hf⟩, hs⟩

/-- What `forkSyscall` does to the machine, whose first two free pages it takes first. -/
structure ForkedMachine (w : Nat) (s : Machine) (m n : Nat) (l taken : List Nat) (s' : Machine)
    (free' : List Nat) : Prop where
  tables : l ⊆ taken
  root : n ∈ taken ∧ n ∉ l
  ready : Ready w s' free'
  cr3 : s'.cr3 = s.cr3
  space : ForkedSpace w s.cr3 (n * 4096) l taken s.mem s'.mem

theorem forkedMachine_of_keeps {s₁ : Nat × Machine} {s₆ : Machine} (hr : Ready w s free)
    (hu : UserTree s.mem w s.cr3 free) (hs₁ : s.kmalloc.2.allocatePage = s₁)
    (hkeeps : Keeps w ((s₁.2.forkTables s₁.1).loadCR3 s₁.1) s₆) (hfree : s₆.alloc.HasFree) :
    ∃ m n free₁ l taken free', free = m :: n :: free₁ ∧ free = taken ++ free' ∧
      s.kmalloc.1 = kptr (m * 4096) ∧ s₁.1 = n * 4096 ∧
        ForkedMachine w s m n l taken (s₆.loadCR3 s.cr3) free' := by
  obtain ⟨s₂, hs₂⟩ : ∃ s₂, s₁.2.forkTables s₁.1 = s₂ := ⟨_, rfl⟩
  obtain ⟨i, hi⟩ := hkeeps.pops
  obtain ⟨j, hj⟩ := pops_forkTables s₁.2 s₁.1
  rw [hs₂] at hkeeps hi hj
  -- the first two pages
  obtain ⟨m, n, free₁, rfl⟩ : ∃ m n free₁, free = m :: n :: free₁ := by
    have hp : Pops (1 + (j + i)) s.kmalloc.2 s₆ := by
      have hp₁ := pops_allocatePage s.kmalloc.2
      rw [hs₁] at hp₁
      exact hp₁.trans (hj.trans hi)
    obtain ⟨m, free, rfl⟩ :=
      List.exists_cons_of_ne_nil (((pops_kmalloc s).trans hp).ne_nil hr.freeList hfree)
    obtain ⟨n, free, rfl⟩ :=
      List.exists_cons_of_ne_nil (hp.ne_nil (kmalloc_kept hr).2.ready.freeList hfree)
    exact ⟨m, n, free, rfl⟩
  obtain ⟨hm, hkm⟩ := kmalloc_kept hr
  obtain ⟨hn, hf₁, hmem₁, hcr₁⟩ := allocatePage_spec hkm.ready.freeList
  have hu₁ := hkm.userTree hu
  rw [← hkm.cr3] at hu₁
  have hready₁ := UserTree.copyReady hkm.ready hu₁
  have hfree₂ : s₂.alloc.HasFree := by
    obtain ⟨x, -, hx⟩ := hj free₁ (hs₁ ▸ hf₁)
    exact hx.hasFree_iff.mpr (hi.ne_nil hx hfree)
  rw [hs₁] at hn hf₁ hmem₁ hcr₁ hready₁
  rw [hn] at hs₂ hkeeps
  rw [← hs₂] at hfree₂
  obtain ⟨l, free₂, hl, -, hfork⟩ := forkTables_spec (by rw [hcr₁]; exact hready₁) (.inl hfree₂)
  rw [hcr₁, hs₂] at hfork
  obtain ⟨hready, hframes⟩ := ForkedTables.ready (by rw [hs₁]; exact hfork) hkm.ready hu₁ hl
  obtain ⟨free', hkept⟩ := hkeeps.kept free₂ hready hfree
  obtain ⟨l₃, hl₃, hbytes⟩ := hkept.taken
  have hsplit : m :: n :: free₁ = (m :: n :: l) ++ free₂ := by rw [hl]; rfl
  have hnd := hr.freeList.nodup
  rw [hsplit] at hnd
  have hin : ∀ x ∈ m :: n :: l, x * 4096 ∉ windowFrames s.mem w ∧ x * 4096 ∉ framesOf free₂ := by
    intro x hx
    refine ⟨hr.window.apart _ ⟨x, ?_, rfl⟩, fun ⟨y, hy, he⟩ ↦ ?_⟩
    · rw [hsplit]
      exact List.mem_append_left free₂ hx
    · have hxy : x = y := by omega
      exact List.disjoint_of_nodup_append hnd hx (hxy ▸ hy)
  have hsub : ∀ x ∈ free₂, x ∈ m :: n :: free₁ := fun x hx ↦ by
    rw [hsplit]
    exact List.mem_append_right _ hx
  rw [hkm.cr3] at hfork
  have hspace := (hfork.space hr hu hkm hmem₁ hframes).then_kept hu (by simp)
    (fun x hx ↦ by simp [hx]) hin hsub hkept.frames
    (fun x hx ↦ by rw [hl₃]; exact List.mem_append_left _ hx) hbytes
  have hfree' : ∀ x ∈ free', x ∈ m :: n :: free₁ := fun x hx ↦ hsub x (hkept.suffix hx)
  refine ⟨m, n, free₁, l, m :: n :: l ++ l₃, free', rfl, ?_, hm, hn, fun x hx ↦ by simp [hx],
    ⟨by simp, ?_⟩, hkept.ready.loadCR3 hr.root ?_ ?_ ?_, rfl, hspace⟩
  · rw [hsplit, hl₃, List.append_assoc]
  · exact (List.nodup_cons.mp (List.nodup_cons.mp (List.nodup_append.mp hnd).1).2).1
  · rw [hspace.frames]
    exact hr.root_apart.1
  · exact fun hf ↦ hr.root_apart.2 (framesOf_mono hfree' hf)
  · rw [child, hspace.parent]
    exact hr.shared

/-- The machine and the processes after `forkSyscall`, as long as frames are left: the child's PCB
is in the first free page, and its top-level table is the second. -/
theorem forkSyscall_space (hr : Ready w k.toMachine free) (hu : UserTree k.mem w k.cr3 free)
    (hcr3 : (k.procs.pcbs k.procs.current).cr3 = k.cr3) (hcur : k.procs.current ∉ windowOf free)
    {regs : ForkRegs} (hrun : k.forkSyscall fuel regs = some k') (hfree : k'.alloc.HasFree) :
    ∃ m n free₁ l taken free', free = m :: n :: free₁ ∧ free = taken ++ free' ∧
      ForkedMachine w k.toMachine m n l taken k'.toMachine free' ∧
      ∃ a : Procs.ForkArgs, a.child = kptr (m * 4096) ∧ a.cr3 = n * 4096 ∧
        k'.procs = k.procs.forkSyscall a := by
  obtain ⟨s₁, hs₁⟩ : ∃ s₁, k.kmalloc.2.allocatePage = s₁ := ⟨_, rfl⟩
  obtain ⟨s₃, hs₃⟩ : ∃ s₃, (s₁.2.forkTables s₁.1).loadCR3 s₁.1 = s₃ := ⟨_, rfl⟩
  have h₀ := forkSpace_eq hs₁ hs₃
  obtain ⟨c', k₂, h₂, h₃⟩ := forkSyscall_inv h₀ hrun
  obtain ⟨⟨s₆, hk₆, -, hs₆⟩, a, ha, hac, hap⟩ := keeps_forkStack w h₃
  have hkeeps : Keeps w s₃ s₆ := ((keeps_kmalloc w s₃).trans (keeps_forkVmas w h₂)).trans hk₆
  have hp₂ : k₂.procs = k.procs.forkLink ⟨k.kmalloc.1, s₁.1, 0, 0, 0, 0⟩ := forkVmas_procs h₂
  rw [hs₆] at hfree ⊢
  have hfree₆ : s₆.alloc.HasFree := hfree
  obtain ⟨m, n, free₁, l, taken, free', hf, ht, hm, hn, hfork⟩ :=
    forkedMachine_of_keeps hr hu hs₁ (by rw [hs₃]; exact hkeeps) hfree₆
  have hchild : k.kmalloc.1 ≠ k.procs.current := fun he ↦
    hcur ⟨m, by rw [hf]; exact List.mem_cons_self, he ▸ hm⟩
  have hpcr3 : (k₂.procs.pcbs k₂.procs.current).cr3 = k.cr3 := by
    rw [hp₂, Procs.forkLink_current]
    exact (Procs.forkLink_parent (a := ⟨k.kmalloc.1, s₁.1, 0, 0, 0, 0⟩) hchild).2.1.trans hcr3
  rw [hpcr3]
  refine ⟨m, n, free₁, l, taken, free', hf, ht, hfork, a, ha.trans hm, hac.trans hn, ?_⟩
  rw [hap, hp₂, ← ha, ← hac]
  rfl

/-- How many frames are enough for a fork. -/
theorem forkSyscall_hasFree (hr : Ready w k.toMachine free) (hu : UserTree k.mem w k.cr3 free)
    {regs : ForkRegs} (hrun : k.forkSyscall fuel regs = some k')
    (hn : forkCount k.mem k.cr3 + 8 * fuel + 10 < free.length) : k'.alloc.HasFree := by
  obtain ⟨s₁, hs₁⟩ : ∃ s₁, k.kmalloc.2.allocatePage = s₁ := ⟨_, rfl⟩
  obtain ⟨s₂, hs₂⟩ : ∃ s₂, s₁.2.forkTables s₁.1 = s₂ := ⟨_, rfl⟩
  obtain ⟨s₃, hs₃⟩ : ∃ s₃, s₂.loadCR3 s₁.1 = s₃ := ⟨_, rfl⟩
  obtain ⟨c', k₂, h₂, h₃⟩ := forkSyscall_inv (forkSpace_eq hs₁ (by rw [hs₂, hs₃])) hrun
  obtain ⟨⟨s₆, -, hp₆, hs₆⟩, -⟩ := keeps_forkStack w h₃
  have hpops : Pops (4 + 8 * fuel + 4) s₃ s₆ :=
    ((pops_kmalloc s₃).trans (pops_forkVmas h₂)).trans hp₆
  obtain ⟨m, n, free, rfl⟩ : ∃ m n free₁, free = m :: n :: free₁ := by
    obtain ⟨m, free, rfl⟩ := List.exists_cons_of_length_pos (Nat.zero_lt_of_lt hn)
    rw [List.length_cons] at hn
    obtain ⟨n, free, rfl⟩ := List.exists_cons_of_length_pos (show 0 < free.length by omega)
    exact ⟨m, n, free, rfl⟩
  obtain ⟨-, hkm⟩ := kmalloc_kept hr
  obtain ⟨hp, -, hmem₁, hcr₁⟩ := allocatePage_spec hkm.ready.freeList
  have hu₁ := hkm.userTree hu
  -- the first page taken changes none of the tables that are counted
  have hcount : forkCount k.kmalloc.2.mem k.cr3 = forkCount k.mem k.cr3 :=
    forkCount_congr fun m t ht ↦ child_congr ((hkm.sameOn hu).entry (hu.dvd t ht) ht) m
  rw [← hkm.cr3] at hu₁
  have hready₁ := UserTree.copyReady hkm.ready hu₁
  rw [hs₁] at hp hmem₁ hcr₁ hready₁
  obtain ⟨l, free₂, hl, hlen, hfork⟩ := forkTables_spec (by rw [hcr₁]; exact hready₁) (.inr (by
    rw [hmem₁, hcr₁, hkm.cr3, hcount]
    simp only [List.length_cons] at hn
    omega))
  rw [hmem₁, hcr₁, hkm.cr3, hcount] at hlen
  rw [← hp, hs₂] at hfork
  have hf₃ : FreeList s₃.alloc free₂ := by
    rw [← hs₃]
    exact hfork.freeList
  have hfree := hpops.hasFree hf₃ (by
    have := congrArg List.length hl
    simp only [List.length_append, List.length_cons] at this hn
    omega)
  rw [hs₆]
  exact hfree

/-! ## A parent in the boot machine -/

/-- Process 1 is current, with its records in pages 12 to 15 and its kernel stack in page 16. -/
def bootKernel (user stale head : Nat) : Kernel where
  toMachine := bootSpace user stale
  procs :=
    { pcbs := fun _ ↦
        { pid := 1, kstack := 0xffffffff80010ff0, mm := 0xffffffff8000d000, cr3 := 0x1000,
          next := 0xffffffff8000c000 }
      first := 0xffffffff8000c000, current := 0xffffffff8000c000, last := 0, zombie := 0,
      pID := fun i ↦ if i < 2 then 1 else 0 }
  mms := fun _ ↦ { mmap := head, brk := heapStart }
  vmas := fun a ↦
    if a = 0xffffffff8000e000 then
      { start := userStackTop + 4096, vmEnd := userStackTop, flag := 5, type := .stack,
        next := 0xffffffff8000f000 }
    else { start := heapStart, vmEnd := heapStart + 4096, flag := 5, type := .heap }
  files := fun _ ↦ {}

section
variable {user stale head : Nat}

theorem bootSpace_noUser (i : Fin 512) :
    child userEntries (bootSpace 0 stale).mem 2 0x1000 i = none := by
  by_cases hi : i = 511
  · subst hi
    exact child_of_outside (by decide)
  · refine child_of_absent ?_
    have he := bootSpace_entry 0 stale 1 i
    have hi' : i.val ≠ 511 := fun h ↦ hi (Fin.ext h)
    by_cases h0 : i.val = 0
    · have hi0 : i = 0 := Fin.ext h0
      subst hi0
      exact he ▸ not_present_zero
    · rw [bootWords_zero (by simp; omega) (by omega)] at he
      exact he ▸ not_present_zero

theorem bootSpace_userTree : UserTree (bootSpace 0 stale).mem 0x2000 0x1000 (List.range' 20 44) := by
  have ht : tableFrames userEntries (bootSpace 0 stale).mem 0x1000 = {0x1000} :=
    tables_leafless bootSpace_noUser
  refine ⟨.leafless bootSpace_noUser, ?_, ?_, ?_⟩
  · rw [ht]
    rintro t rfl
    decide
  · rw [ht, (bootSpace_window 0 stale).1]
    rintro t rfl
    decide
  · rw [ht]
    rintro t rfl ⟨n, hn, he⟩
    have := List.mem_range'_1.mp hn
    omega

theorem bootKernel_forkReady
    (hl : VmaList (bootKernel user stale head) head l)
    (hmem : ∀ a ∈ l, a = 0xffffffff8000e000 ∨ a = 0xffffffff8000f000) :
    ForkReady (bootKernel user stale head) (List.range' 20 44) l := by
  have hlow : ∀ p < 17, kptr (p * 4096) ∉ windowOf (0 :: List.range' 20 44) ∨ p = 0 := by
    intro p hp
    by_cases h0 : p = 0
    · exact .inr h0
    · refine .inl fun ⟨n, hn, he⟩ ↦ ?_
      have hn' : n = 0 ∨ 20 ≤ n ∧ n < 20 + 44 :=
        (List.mem_cons.mp hn).imp_right fun h ↦ List.mem_range'_1.mp h
      have := kptr_page_inj (by omega) (by omega) he
      omega
  have hvma : ∀ a ∈ l, a ∉ windowOf (0 :: List.range' 20 44) := by
    intro a ha
    rcases hmem a ha with rfl | rfl
    · exact (hlow 14 (by decide)).resolve_right (by decide)
    · exact (hlow 15 (by decide)).resolve_right (by decide)
  have hstack : kernBase ≤ sub64 0xffffffff80010ff0 (0x1000 - 16) := by decide
  have hready : Ready 0x2000 (bootSpace user stale) (List.range' 20 44) := bootSpace_ready user stale
  refine ⟨bootSpace_freeList user stale, hready.free_lt, hl, hstack, ?_, ?_, hvma,
    fun a ha hf ↦ absurd ?_ hf⟩
  · exact (hlow 12 (by decide)).resolve_right (by decide)
  · exact (hlow 13 (by decide)).resolve_right (by decide)
  · rcases hmem a ha with rfl | rfl <;> rfl

theorem bootKernel_hasFree {regs : ForkRegs}
    (hrun : (bootKernel 0 stale head).forkSyscall 3 regs = some k') : k'.alloc.HasFree := by
  have hc : forkCount (bootKernel 0 stale head).mem (bootKernel 0 stale head).cr3 = 0 :=
    forkCount_zero bootSpace_noUser
  refine forkSyscall_hasFree (bootSpace_ready 0 stale) bootSpace_userTree hrun ?_
  rw [hc]
  decide

end

end Sbunix
