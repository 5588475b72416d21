import Sbunix.Sys.ForkVmas
import Sbunix.Sys.Ring

/-!
# The address space description of a forked process

The child's `mm_struct` and its list of VMAs after `forkSyscall`, and what page faults of the two
processes do to each other's VMAs afterwards.
-/

namespace Sbunix

open Reasoning Kernel

variable {k k' k₁ k₂ : Kernel} {free l l' : List Nat} {p c mm fuel : Nat}

/-- The head of the VMAs of process `p`. -/
def Kernel.vmaHead (k : Kernel) (p : Nat) : Nat := (k.mms (k.procs.pcbs p).mm).mmap

/-- The current process has the VMAs `l`, and what it is made of lies in no free page. -/
structure ForkReady (k : Kernel) (free l : List Nat) : Prop where
  freeList : FreeList k.alloc free
  free_lt : ∀ n ∈ free, n < 2 ^ 19
  vmas : VmaList k (k.vmaHead k.procs.current) l
  kstack : kernBase ≤ sub64 (k.procs.pcbs k.procs.current).kstack (0x1000 - 16)
  pcb : k.procs.current ∉ windowOf (0 :: free)
  mm : (k.procs.pcbs k.procs.current).mm ∉ windowOf (0 :: free)
  vma : ∀ a ∈ l, a ∉ windowOf (0 :: free)
  file : ∀ a ∈ l, (k.vmas a).file ≠ 0 → (k.vmas a).file ∉ windowOf (0 :: free)

/-! ## What fork leaves -/

theorem forkSpace_eq {s₁ : Nat × Machine} {s₂ : Machine} (h₁ : k.kmalloc.2.allocatePage = s₁)
    (h₂ : (s₁.2.forkTables s₁.1).loadCR3 s₁.1 = s₂) :
    k.forkSpace = (k.kmalloc.1, s₁.1, s₂.kmalloc.1,
      ({ k.onMachine s₂.kmalloc.2 with
        procs := k.procs.forkLink ⟨k.kmalloc.1, s₁.1, 0, 0, 0, 0⟩ } : Kernel).setMm s₂.kmalloc.1
        (k.mms ((k.procs.forkLink ⟨k.kmalloc.1, s₁.1, 0, 0, 0, 0⟩).pcbs k.procs.current).mm)) := by
  unfold forkSpace
  dsimp only [onMachine]
  rw [h₁, h₂]

/-- `forkSpace` writes the child's PCB and its `mm_struct`, a copy of the parent's. -/
theorem forkSpace_spec {child cr3 mm : Nat} (h : k.forkSpace = (child, cr3, mm, k'))
    (hf : FreeList k.alloc free) (hp : k.procs.current ∉ windowOf (0 :: free)) :
    (∃ j, FreeList k'.alloc (free.drop j)) ∧ k'.vmas = k.vmas ∧ k'.files = k.files ∧
      k'.procs = k.procs.forkLink ⟨child, cr3, 0, 0, 0, 0⟩ ∧ child ∈ windowOf (0 :: free) ∧
      mm ∈ windowOf (0 :: free) ∧
      k'.mms = Function.update k.mms mm (k.mms (k.procs.pcbs k.procs.current).mm) := by
  have hchild : k.kmalloc.1 ∈ windowOf (0 :: free) := kmalloc_mem hf
  have hne : k.kmalloc.1 ≠ k.procs.current := fun he ↦ hp (he ▸ hchild)
  set s₁ := k.kmalloc.2.allocatePage with hs₁
  set s₂ := (s₁.2.forkTables s₁.1).loadCR3 s₁.1 with hs₂
  obtain ⟨n, hn⟩ := pops_forkTables s₁.2 s₁.1
  have hp₂ : Pops (4 + 1 + n + 0) k.toMachine s₂ :=
    (((pops_kmalloc k.toMachine).trans (pops_allocatePage _)).trans hn).trans (.of_alloc rfl)
  obtain ⟨j, -, hj⟩ := hp₂ free hf
  obtain ⟨j', -, hj'⟩ := (hp₂.trans (pops_kmalloc s₂)) free hf
  have hmm : s₂.kmalloc.1 ∈ windowOf (0 :: free) :=
    windowOf_mono (List.cons_subset_cons 0 (List.drop_subset j free))
      (kmalloc_mem (k := k.onMachine s₂) hj)
  have hkeep := (Procs.forkLink_parent (s := k.procs) (a := ⟨k.kmalloc.1, s₁.1, 0, 0, 0, 0⟩) hne).1
  have hk := forkSpace_eq hs₁.symm hs₂.symm
  obtain ⟨h₁, h'⟩ := Prod.mk.inj (hk.symm.trans h)
  obtain ⟨h₂, h'⟩ := Prod.mk.inj h'
  obtain ⟨h₃, h₄⟩ := Prod.mk.inj h'
  rw [← h₁, ← h₂, ← h₃, ← h₄]
  refine ⟨⟨j', hj'⟩, rfl, rfl, rfl, hchild, hmm, ?_⟩
  rw [setMm_mms, hkeep]
  rfl

/-- `forkStack` with its first statement done. -/
theorem forkStack_eq (child cr3 mm c : Nat) (regs : ForkRegs) : ∃ k₁ : Kernel,
    k₁.toMachine = k.toMachine ∧ k₁.procs = k.procs ∧ k₁.mms = k.mms ∧ k₁.files = k.files ∧
      k₁.vmas = (if c ≠ 0 then Function.update k.vmas c { k.vmas c with next := 0 } else k.vmas) ∧
      k.forkStack child cr3 mm c regs =
        (k₁.kmalloc.2.memcpy k₁.kmalloc.1
          (sub64 (k.procs.pcbs k.procs.current).kstack (0x1000 - 16)) (0x1000 - 16)).map fun s ↦
        { k₁ with
          toMachine := s.loadCR3 (k.procs.pcbs k.procs.current).cr3
          procs := k₁.procs.forkChild ⟨child, cr3, mm, k₁.kmalloc.1, regs.rip, regs.pos⟩ } := by
  refine ⟨if c ≠ 0 then k.setVma c { k.vmas c with next := 0 } else k, ?_, ?_, ?_, ?_, ?_, rfl⟩
  all_goals
    split
    · rfl
    · rfl

/-- `forkStack` unlinks the last copy and completes the child's PCB. -/
theorem forkStack_spec (child cr3 mm c : Nat) (regs : ForkRegs)
    (hk : kernBase ≤ sub64 (k.procs.pcbs k.procs.current).kstack (0x1000 - 16)) :
    ∃ k', k.forkStack child cr3 mm c regs = some k' ∧ Pops 4 k.toMachine k'.toMachine ∧
      k'.mms = k.mms ∧ k'.files = k.files ∧
      (∃ a : Procs.ForkArgs, a.child = child ∧ a.cr3 = cr3 ∧ a.mm = mm ∧
        k'.procs = k.procs.forkChild a) ∧
      k'.vmas = if c ≠ 0 then Function.update k.vmas c { k.vmas c with next := 0 } else k.vmas := by
  obtain ⟨k₁, hm₁, hp₁, hmm₁, hf₁, hv₁, he⟩ := forkStack_eq (k := k) child cr3 mm c regs
  -- the copy of the stack stays in the window
  have hdest : kernBase ≤ k₁.kmalloc.1 := Nat.right_le_or
  obtain ⟨s, hs⟩ := memcpy_window k₁.kmalloc.2 hdest hk (0x1000 - 16)
  rw [hs, Option.map_some] at he
  refine ⟨_, he, ?_, hmm₁, hf₁, ⟨⟨child, cr3, mm, k₁.kmalloc.1, regs.rip, regs.pos⟩,
    rfl, rfl, rfl, ?_⟩, hv₁⟩
  · have hp : Pops (4 + 0) k₁.toMachine s :=
      (pops_kmalloc k₁.toMachine).trans (.of_alloc (memcpy_alloc hs))
    rw [hm₁] at hp
    exact hp
  · rw [← hp₁]

theorem forkSyscall_eq {child cr3 c' : Nat} {regs : ForkRegs}
    (h : k.forkSpace = (child, cr3, mm, k₁))
    (h₂ : forkVmas mm fuel (k₁.mms (k₁.procs.pcbs k.procs.current).mm).mmap 0
      (k₁.setMm mm { k₁.mms mm with mmap := 0 }) = some (c', k₂)) :
    k.forkSyscall fuel regs = k₂.forkStack child cr3 mm c' regs := by
  unfold forkSyscall
  rw [h]
  dsimp only
  rw [h₂]
  exact Option.bind_some _ _

theorem forkSyscall_inv {child cr3 : Nat} {regs : ForkRegs}
    (h : k.forkSpace = (child, cr3, mm, k₁)) (hrun : k.forkSyscall fuel regs = some k') :
    ∃ c' k₂, forkVmas mm fuel (k₁.mms (k₁.procs.pcbs k.procs.current).mm).mmap 0
      (k₁.setMm mm { k₁.mms mm with mmap := 0 }) = some (c', k₂) ∧
        k₂.forkStack child cr3 mm c' regs = some k' := by
  unfold forkSyscall at hrun
  rw [h] at hrun
  dsimp only at hrun
  rw [Option.bind_eq_some_iff] at hrun
  obtain ⟨⟨c', k₂⟩, h₂, h₃⟩ := hrun
  exact ⟨c', k₂, h₂, h₃⟩

/-- What `forkSyscall` leaves of the parent's VMAs `l`, and the first VMA of the child. -/
structure Forked (k : Kernel) (free l : List Nat) (k' : Kernel) (child : Nat) : Prop where
  procs : ∃ a : Procs.ForkArgs, a.child = child ∧ k'.procs = k.procs.forkSyscall a
  fresh : child ≠ k.procs.current
  parent : k'.vmaHead k.procs.current = k.vmaHead k.procs.current
  vmas : ∀ a ∉ windowOf free, k'.vmas a = k.vmas a
  files : ∀ a ∉ windowOf free, k'.files a = k.files a
  nil : l = [] → k'.vmaHead child = 0
  cons : ∀ p t, l = p :: t → ∃ k₁ : Kernel, FirstCopy k p (k'.vmaHead child) free k₁ ∧
    k'.files = k₁.files ∧ k'.vmas (k'.vmaHead child) =
      { k₁.vmas (k'.vmaHead child) with
        next := if t = [] then 0 else (k₁.vmas (k'.vmaHead child)).next }

theorem forkSyscall_spec (h : ForkReady k free l) (hfuel : l.length < fuel) (regs : ForkRegs) :
    ∃ k' child, k.forkSyscall fuel regs = some k' ∧
      (k'.alloc.HasFree → Forked k free l k' child) := by
  obtain ⟨child, cr3, mm, k₀, h₀⟩ : ∃ child cr3 mm k₀, k.forkSpace = (child, cr3, mm, k₀) :=
    ⟨_, _, _, _, rfl⟩
  obtain ⟨⟨j, hj⟩, hv₀, hf₀, hp₀, hchild, hmm, hm₀⟩ := forkSpace_spec h₀ h.freeList h.pcb
  have hne : child ≠ k.procs.current := fun he ↦ h.pcb (he ▸ hchild)
  have hmne : (k.procs.pcbs k.procs.current).mm ≠ mm := fun he ↦ h.mm (he ▸ hmm)
  have hsub : windowOf (free.drop j) ⊆ windowOf free := windowOf_mono (List.drop_subset j free)
  have hcons : windowOf free ⊆ windowOf (0 :: free) := windowOf_mono (List.subset_cons_self 0 free)
  obtain ⟨hpmm, hpcr3, hpks⟩ := Procs.forkLink_parent (a := ⟨child, cr3, 0, 0, 0, 0⟩) hne
  have hcur : k₀.procs.current = k.procs.current := by
    rw [hp₀, Procs.forkLink_current]
  -- the child's `mm` starts as the parent's with an empty list
  set k₁ := k₀.setMm mm { k₀.mms mm with mmap := 0 } with hk₁
  have hhead : (k₀.mms (k₀.procs.pcbs k.procs.current).mm).mmap = k.vmaHead k.procs.current := by
    rw [hp₀, hpmm, hm₀, Function.update_of_ne hmne, vmaHead]
  have hl : VmaList k₁ (k.vmaHead k.procs.current) l := h.vmas.congr fun a _ ↦ by
    rw [hk₁, setMm_vmas, hv₀]
  have hold : ∀ a ∈ l, a ∉ windowOf (0 :: free.drop j) := fun a ha hw ↦
    h.vma a ha (windowOf_mono (List.cons_subset_cons 0 (List.drop_subset j free)) hw)
  -- the loop ends, as the pages that it takes are not among the parent's VMAs
  obtain ⟨⟨c', k₂⟩, h₂⟩ := forkVmas_total mm 0 hl hold hj hfuel
  have hp₂ : k₂.procs = k₀.procs := (forkVmas_procs h₂).trans rfl
  have hks : kernBase ≤ sub64 (k₂.procs.pcbs k₂.procs.current).kstack (0x1000 - 16) := by
    rw [hp₂, hcur, hp₀, hpks]
    exact h.kstack
  obtain ⟨k', h', hpops, hm', hf', ⟨a, hac, hacr, ham, hp'⟩, hv'⟩ :=
    forkStack_spec child cr3 mm c' regs hks
  have hrun : k.forkSyscall fuel regs = some k' :=
    (forkSyscall_eq h₀ (by rw [hhead]; exact h₂)).trans h'
  refine ⟨k', child, hrun, fun hfree ↦ ?_⟩
  have hfree₂ : k₂.alloc.HasFree := by
    obtain ⟨i, -, hi⟩ := pops_forkVmas h₂ _ hj
    exact hi.hasFree_iff.mpr (hpops.ne_nil hi hfree)
  -- what the loop leaves is still there behind the kernel stack's page
  obtain ⟨hv₂, hf₂, hm₂, -, hnil, hcopy⟩ := forkVmas_spec h₂ hl
    (fun a ha hw ↦ hold a ha (windowOf_mono (List.subset_cons_self 0 _) hw)) hj
    (fun x hx ↦ h.free_lt x (List.mem_of_mem_drop hx)) hfree₂
  have hprocs : k'.procs = k.procs.forkSyscall a := by
    rw [hp', hp₂, hp₀, ← hac, ← hacr]
    rfl
  obtain ⟨hpm, -, hcm, -⟩ := Procs.forkSyscall_spaces (s := k.procs) (a := a) (hac ▸ hne)
  have hchildHead : k'.vmaHead child = (k₂.mms mm).mmap := by
    rw [vmaHead, hprocs, ← hac, hcm, ham, hm']
  have hv₁ : ∀ x ∉ windowOf free, k₂.vmas x = k.vmas x := fun x hx ↦ by
    rw [hv₂ x fun hw ↦ hx (hsub hw), hk₁, setMm_vmas, hv₀]
  refine ⟨⟨a, hac, hprocs⟩, hne, ?_, fun x hx ↦ ?_, fun x hx ↦ ?_, fun hn ↦ ?_, ?_⟩
  · rw [vmaHead, hprocs, hpm, hm', hm₂ _ hmne, hk₁, setMm_mms, Function.update_of_ne hmne, hm₀,
      Function.update_of_ne hmne, vmaHead]
  · -- the last copy loses its link, and is no VMA of before
    rw [hv']
    split
    · rename_i hc'
      rw [Function.update_of_ne ?_, hv₁ x hx]
      rintro rfl
      by_cases hn : l = []
      · exact hc' (hnil hn).1
      · obtain ⟨-, -, -, hmem, -⟩ := hcopy hn
        exact hx (hsub hmem)
    · exact hv₁ x hx
  · rw [hf', hf₂ x fun hw ↦ hx (hsub hw), hk₁, setMm_files, hf₀]
  · rw [hchildHead, (hnil hn).2, hk₁, setMm_mms, Function.update_self]
  · rintro p t rfl
    obtain ⟨c, hc, hfirst, hmem, htail⟩ := hcopy (List.cons_ne_nil p t)
    obtain ⟨m, -, hm⟩ := hmem
    have hc0 : c' ≠ 0 := by
      rw [hm]
      exact kptr_ne_zero _
    refine ⟨k₂, ?_, hf', ?_⟩
    · have hhd : k.vmaHead k.procs.current = p := h.vmas.chain.1
      have hkv : k₁.vmas = k.vmas := by rw [hk₁, setMm_vmas, hv₀]
      have hkf : k₁.files = k.files := by rw [hk₁, setMm_files, hf₀]
      obtain ⟨hcm, hrec, hfile⟩ := hfirst
      rw [hhd, hkv] at hrec hfile
      rw [hkf] at hfile
      rw [hchildHead, hc]
      exact ⟨hsub hcm, hrec, hfile.imp_right fun ⟨h0, hf, he⟩ ↦ ⟨h0, hsub hf, he⟩⟩
    · rw [hchildHead, hc, hv', if_pos hc0]
      by_cases ht : t = []
      · rw [if_pos ht, htail.mp ht, Function.update_self]
      · rw [if_neg ht, Function.update_of_ne fun he ↦ ht (htail.mpr he.symm)]

end Sbunix
