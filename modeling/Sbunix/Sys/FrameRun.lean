import Sbunix.Sys.KernelCode
import Sbunix.Sys.FreshSpaces

/-!
# The frames over a run of the kernel

No call gives a frame back, exit included, and a new process costs four frames at least: the free list
that a run leaves is what comes in the first one after the frames of all the forks and execs.
-/

namespace Sbunix

open Reasoning Kernel KernelM

variable {k k' k₀ : Kernel} {s s' s'' : Machine} {m n v x fuel ehdr task mm : Nat} {free : List Nat}

/-- At least the first `m` pages of the free list are gone, and none has come back. -/
def Takes (m : Nat) (s s' : Machine) : Prop :=
  ∀ free, FreeList s.alloc free → ∃ n, m ≤ n ∧ FreeList s'.alloc (free.drop n)

theorem Takes.of_alloc (h : s'.alloc = s.alloc) : Takes 0 s s' := fun _ hf ↦
  ⟨0, Nat.le_refl 0, h ▸ hf⟩

theorem Takes.refl (s : Machine) : Takes 0 s s := .of_alloc rfl

theorem Pops.takes (h : Pops n s s') : Takes 0 s s' := fun free hf ↦
  (h free hf).imp fun k hk ↦ ⟨Nat.zero_le k, hk.2⟩

theorem Takes.trans (h : Takes m s s') (h' : Takes n s' s'') : Takes (m + n) s s'' := by
  intro free hf
  obtain ⟨k, hk, hf⟩ := h free hf
  obtain ⟨l, hl, hf⟩ := h' _ hf
  exact ⟨k + l, Nat.add_le_add hk hl, by rwa [List.drop_drop] at hf⟩

theorem Takes.mono (h : Takes m s s') (hnm : n ≤ m) : Takes n s s' := by
  intro free hf
  obtain ⟨k, hk, hf⟩ := h free hf
  exact ⟨k, hnm.trans hk, hf⟩

/-! ## The machine -/

theorem takes_allocatePage (s : Machine) : Takes 1 s s.allocatePage.2 := by
  intro free hf
  cases free with
  | nil =>
      refine ⟨1, Nat.le_refl 1, ?_⟩
      change FreeList s.alloc.allocatePage.2 []
      rw [allocatePage_nil hf]
      exact hf
  | cons n free => exact ⟨1, Nat.le_refl 1, (allocatePage_spec hf).2.1⟩

theorem takes_kmalloc (s : Machine) : Takes 1 s s.kmalloc.2 := by
  have h := (takes_allocatePage s).trans (pops_mapVP2 s.allocatePage.2
    (kptr s.allocatePage.1) s.allocatePage.1).takes
  exact h.trans (.of_alloc rfl)

theorem takes_mapNew (s : Machine) (v : Nat) : Takes 1 s (s.mapNew v) :=
  (takes_allocatePage s).trans (pops_mapVP2 s.allocatePage.2 v s.allocatePage.1).takes

theorem takes_mapPages (size v : Nat) (s : Machine) : Takes 0 s (Machine.mapPages size v s) := by
  induction size generalizing v s with
  | zero => exact .refl s
  | succ size ih => exact ((takes_mapNew s v).trans (ih _ _)).mono (Nat.zero_le _)

theorem takes_memcpy {dest src len : Nat} (h : s.memcpy dest src len = some s') : Takes 0 s s' :=
  .of_alloc (memcpy_alloc h)

/-! ## Fork -/

theorem takes_forkVmas {c : Nat × Kernel} (h : forkVmas mm fuel v x k = some c) :
    Takes 0 k.toMachine c.2.toMachine := by
  induction fuel generalizing v x k with
  | zero => cases h
  | succ fuel ih =>
      rw [forkVmas] at h
      split at h
      · obtain rfl := Option.some.inj h
        exact .refl k.toMachine
      · have hnode : Takes 0 k.toMachine (k.forkVma mm v x false).2.toMachine := by
          have h₁ : Takes 1 k.toMachine (k.forkNode mm x false).2.toMachine := by
            unfold Kernel.forkNode
            dsimp only
            split
            · exact takes_kmalloc k.toMachine
            · exact takes_kmalloc k.toMachine
          refine (h₁.trans (n := 0) ?_).mono (Nat.zero_le _)
          unfold Kernel.forkVma Kernel.forkFile
          dsimp only
          split
          · exact (takes_kmalloc _).mono (Nat.zero_le _)
          · exact .refl _
        exact hnode.trans (ih h)

theorem takes_forkSpace (k : Kernel) : Takes 3 k.toMachine k.forkSpace.2.2.2.toMachine := by
  have hpcb := takes_kmalloc k.toMachine
  have htable := takes_allocatePage k.kmalloc.2
  obtain ⟨n, hn⟩ := pops_forkTables k.kmalloc.2.allocatePage.2 k.kmalloc.2.allocatePage.1
  set t := k.kmalloc.2.allocatePage.2.forkTables k.kmalloc.2.allocatePage.1
  have hload : Takes 0 t (t.loadCR3 k.kmalloc.2.allocatePage.1) := .of_alloc rfl
  have hmm := takes_kmalloc (t.loadCR3 k.kmalloc.2.allocatePage.1)
  have hspace : k.forkSpace.2.2.2.toMachine =
    (t.loadCR3 k.kmalloc.2.allocatePage.1).kmalloc.2 := rfl
  rw [hspace]
  exact (((hpcb.trans htable).trans hn.takes).trans hload).trans hmm

/-- The PCB, the top-level table, the `mm_struct` and the kernel stack of the child. -/
theorem takes_forkSyscall {regs : ForkRegs} (h : k.forkSyscall fuel regs = some k') :
    Takes 4 k.toMachine k'.toMachine := by
  unfold Kernel.forkSyscall at h
  dsimp only at h
  obtain ⟨⟨cVma, k₁⟩, h₁, h₂⟩ := Option.bind_eq_some_iff.mp h
  have hspace : Takes 3 k.toMachine k.forkSpace.2.2.2.toMachine := takes_forkSpace k
  have hvmas := takes_forkVmas h₁
  have hstack : Takes 1 k₁.toMachine k'.toMachine := by
    unfold Kernel.forkStack at h₂
    dsimp only at h₂
    obtain ⟨s, hs, rfl⟩ := Option.map_eq_some_iff.mp h₂
    have hcopy := (takes_memcpy hs).trans (.of_alloc rfl : Takes 0 s (s.loadCR3 _))
    split at hcopy
    · exact (takes_kmalloc k₁.toMachine).trans hcopy
    · exact (takes_kmalloc k₁.toMachine).trans hcopy
  exact (hspace.trans hvmas).trans hstack

/-! ## Page faults -/

theorem takes_faultVmas {found : Bool} (h : faultVmas v fuel x k = some (k', found)) :
    Takes 0 k.toMachine k'.toMachine := by
  induction fuel generalizing x with
  | zero => cases h
  | succ fuel ih =>
      rw [faultVmas] at h
      dsimp only at h
      have hmap (a : Nat) : Takes 0 k.toMachine (k.mapNew a) :=
        (takes_mapNew k.toMachine a).mono (Nat.zero_le 1)
      split at h
      · obtain ⟨rfl, -⟩ := Prod.mk.inj (Option.some.inj h)
        exact .refl k.toMachine
      · split at h
        · obtain ⟨vmEnd, -, he⟩ := Option.map_eq_some_iff.mp h
          obtain ⟨rfl, -⟩ := Prod.mk.inj he
          exact hmap vmEnd
        · split at h
          · obtain ⟨rfl, -⟩ := Prod.mk.inj (Option.some.inj h)
            exact hmap _
          · exact ih h

theorem takes_copyOnWrite {a cr3 : Nat} (h : copyOnWrite s a cr3 = some s') : Takes 0 s s' := by
  unfold copyOnWrite at h
  dsimp only at h
  obtain ⟨p, -, h⟩ := Option.bind_eq_some_iff.mp h
  obtain ⟨s₁, hs₁, rfl⟩ := Option.map_eq_some_iff.mp h
  have hmap := (takes_memcpy hs₁).trans (pops_mapVP2 s₁ (frame a) p).takes
  exact ((takes_kmalloc s).trans (hmap.trans (.of_alloc rfl))).mono (Nat.zero_le _)

theorem takes_pageFault {errCode : Nat} (h : k.pageFault fuel errCode v = some (.resume k')) :
    Takes 0 k.toMachine k'.toMachine := by
  unfold pageFault at h
  dsimp only at h
  have hsearch {fault : Bool} (h : (if (k.procs.pcbs k.procs.current).mm = 0 then none
      else (faultVmas v fuel (k.mms (k.procs.pcbs k.procs.current).mm).mmap k).map
        fun p ↦ if fault && !p.2 then FaultResult.halt p.1 else .resume p.1) =
          some (.resume k')) : Takes 0 k.toMachine k'.toMachine := by
    split at h
    · cases h
    · obtain ⟨⟨k₁, found⟩, hk₁, he⟩ := Option.map_eq_some_iff.mp h
      dsimp only at he
      split at he
      · cases he
      · obtain rfl := FaultResult.resume.inj he
        exact takes_faultVmas hk₁
  split at h
  · obtain ⟨e, -, h⟩ := Option.bind_eq_some_iff.mp h
    split at h
    · obtain ⟨s, hs, he⟩ := Option.map_eq_some_iff.mp h
      obtain rfl := FaultResult.resume.inj he
      exact takes_copyOnWrite hs
    · exact hsearch h
  · exact hsearch h

/-! ## The loader -/

theorem takes_loadSegment {ph : Phdr} (h : k.loadSegment ehdr mm ph = some k') :
    Takes 0 k.toMachine k'.toMachine := by
  unfold Kernel.loadSegment at h
  split at h
  · dsimp only at h
    obtain ⟨k₁, hk₁, rfl⟩ := Option.map_eq_some_iff.mp h
    have hvma : Takes 0 k.toMachine
        ((k.onMachine k.kmalloc.2).segmentVma mm k.kmalloc.1 ph).toMachine := by
      have hk := (takes_kmalloc k.toMachine).mono (Nat.zero_le 1)
      unfold Kernel.segmentVma
      dsimp only
      split
      · exact hk
      · exact hk
    generalize (k.onMachine k.kmalloc.2).segmentVma mm k.kmalloc.1 ph = k₂ at hk₁ hvma
    have hpages := takes_mapPages ph.pages (ph.vaddr / 4096 * 4096) k₂.toMachine
    have hcopy : Takes 0 (Machine.mapPages ph.pages (ph.vaddr / 4096 * 4096) k₂.toMachine)
        k₁.toMachine := by
      unfold Kernel.copySegment at hk₁
      split at hk₁
      · obtain ⟨s, hs, rfl⟩ := Option.map_eq_some_iff.mp hk₁
        exact takes_memcpy hs
      · obtain rfl := Option.some.inj hk₁
        exact .refl _
    have hfile := (takes_kmalloc k₁.toMachine).mono (Nat.zero_le 1)
    exact ((hvma.trans hpages).trans hcopy).trans hfile
  · obtain rfl := Option.some.inj h
    exact .refl k.toMachine

theorem takes_loadSegments {phdr : Nat} (h : loadSegments ehdr mm n phdr k = some k') :
    Takes 0 k.toMachine k'.toMachine := by
  induction n generalizing phdr k with
  | zero =>
      obtain rfl := Option.some.inj h
      exact .refl k.toMachine
  | succ n ih =>
      rw [loadSegments] at h
      obtain ⟨ph, -, h⟩ := Option.bind_eq_some_iff.mp h
      obtain ⟨k₁, hk₁, h⟩ := Option.bind_eq_some_iff.mp h
      exact (takes_loadSegment hk₁).trans (ih h)

theorem takes_loadStack (h : k.loadStack task mm = some k') : Takes 0 k.toMachine k'.toMachine := by
  have hmap : Takes 0 k.toMachine (k.kmalloc.2.mapNew userStackTop) :=
    ((takes_kmalloc k.toMachine).trans (takes_mapNew k.kmalloc.2 userStackTop)).mono (Nat.zero_le _)
  unfold Kernel.loadStack at h
  dsimp only at h
  -- where the list is empty, and where it is not
  by_cases h₀ : (((k.onMachine k.kmalloc.2).setVma k.kmalloc.1 {}).mms mm).mmap = 0
  all_goals
    first
      | rw [if_pos h₀] at h
      | rw [if_neg h₀] at h
    split at h
    · cases h
    · obtain rfl := Option.some.inj h
      exact hmap

theorem takes_loadHeap (k : Kernel) (mm : Nat) : Takes 0 k.toMachine (k.loadHeap mm).toMachine :=
  ((takes_kmalloc k.toMachine).trans (takes_mapNew k.kmalloc.2 heapStart)).mono (Nat.zero_le _)

theorem takes_loadProgram (h : k.loadProgram task ehdr = some k') :
    Takes 0 k.toMachine k'.toMachine := by
  unfold Kernel.loadProgram at h
  obtain ⟨phoff, -, h⟩ := Option.bind_eq_some_iff.mp h
  obtain ⟨entry, -, h⟩ := Option.bind_eq_some_iff.mp h
  obtain ⟨phnum, -, h⟩ := Option.bind_eq_some_iff.mp h
  dsimp only at h
  obtain ⟨k₁, hk₁, h⟩ := Option.bind_eq_some_iff.mp h
  obtain ⟨k₂, hk₂, rfl⟩ := Option.map_eq_some_iff.mp h
  exact ((takes_loadSegments hk₁).trans (takes_loadStack hk₂)).trans (takes_loadHeap k₂ _)

/-! ## Exec -/

/-- Code of the kernel that takes at least `m` frames. -/
def KernelM.Taking {α : Type} (m : Nat) (c : KernelM α) : Prop :=
  ∀ k y k', c k = some (.done y k') → Takes m k.toMachine k'.toMachine

section
variable {α β : Type} {c : KernelM α} {f : α → KernelM β}

theorem KernelM.Taking.bind (hc : Taking m c) (hf : ∀ y, Taking n (f y)) :
    Taking (m + n) (c >>= f) := by
  intro k y k' h
  obtain ⟨z, k₁, h₁, h₂⟩ := bind_done.mp h
  exact (hc k z k₁ h₁).trans (hf z k₁ y k' h₂)

theorem KernelM.taking_call {g : Kernel → α × Kernel}
    (hg : ∀ k, Takes m k.toMachine (g k).2.toMachine) : Taking m (call g) := within_call hg

end

/-- Code that does not take frames on purpose. -/
theorem steady_takes : SteadyLoad fun k k' ↦ Takes 0 k.toMachine k'.toMachine where
  refl k := .refl k.toMachine
  trans h h' := h.trans h'
  fault h := takes_pageFault h
  store h := .of_alloc (writeByte_alloc h)
  loadCR3 _ _ := .of_alloc rfl
  program h := takes_loadProgram h
  malloc _ _ := .of_alloc rfl
  setRsp _ _ _ := .of_alloc rfl

/-- The PCB, the kernel stack, the `mm_struct` and the top-level table of the new process. -/
theorem taking_execve (tarfs fuel file argv : Nat) :
    Taking 4 (execveSyscall tarfs fuel file argv) := by
  have hk : Taking 1 (call fun k ↦ (k.kmalloc.1, k.onMachine k.kmalloc.2)) :=
    taking_call fun k ↦ takes_kmalloc k.toMachine
  have hu : Taking 1 (call fun k ↦ (k.setUserSpace.1, k.onMachine k.setUserSpace.2)) :=
    taking_call fun k ↦ (takes_allocatePage k.toMachine).trans (.of_alloc rfl)
  refine hk.bind (n := 3) fun newprocess ↦ hk.bind (n := 2) fun kernelstack ↦
    hk.bind (n := 1) fun mm ↦ hu.bind (n := 0) fun cr3 ↦ ?_
  have h := steady_takes
  exact h.bind (h.loadString fuel file fuel) fun name ↦
    h.bind (within_modify fun _ ↦ .of_alloc rfl) fun _ ↦
    h.bind (h.loadString fuel file fuel) fun s ↦ h.bind (h.ask _) fun u ↦
    h.bind (h.execArgs fuel argv u) fun (stackindex, u) ↦ h.bind (h.read _) fun currCR3 ↦
    h.bind (h.execLoad tarfs fuel newprocess stackindex u) fun (ans, args) ↦
    h.bind (within_modify fun _ ↦ .of_alloc rfl) fun _ ↦
    h.bind (within_modify fun _ ↦ .of_alloc rfl) fun _ ↦ h.pure _

/-! ## Runs -/

/-- What the kernel is called for. -/
inductive Call where
  | fork | exec | fault | store | malloc | yield | exit | waitpid
deriving DecidableEq, Repr

namespace Kernel

/-- `contextSwitch` has loaded the tables of the process that runs now. -/
def onProcs (k : Kernel) (procs : Procs) : Kernel :=
  { k with toMachine := k.loadCR3 (procs.pcbs procs.current).cr3, procs := procs }

/-- A call of the process that runs, or an access of it to its memory. -/
inductive Serves : Call → Kernel → Kernel → Prop
  | fork {k k' : Kernel} {fuel : Nat} {regs : ForkRegs} (h : k.forkSyscall fuel regs = some k') :
      Serves .fork k k'
  | exec {k k' : Kernel} {tarfs fuel file argv : Nat} {e : ExecEnd}
      (h : execveSyscall tarfs fuel file argv k = some (.done e k')) : Serves .exec k k'
  | fault {k k' : Kernel} {fuel errCode v : Nat}
      (h : k.pageFault fuel errCode v = some (.resume k')) : Serves .fault k k'
  | store {k : Kernel} {s : Machine} {v : Nat} {b : UInt8} (h : k.writeByte v b = some s) :
      Serves .store k (k.onMachine s)
  | malloc (k : Kernel) (size : Nat) : Serves .malloc k (k.mallocSyscall size).2
  | yield (k : Kernel) (sp : SwitchPoint) : Serves .yield k (k.onProcs (k.procs.yieldSyscall sp))
  | exit {k : Kernel} {procs : Procs} {fuel : Nat} {sp : SwitchPoint}
      (h : k.procs.exitSyscall fuel sp = some procs) : Serves .exit k (k.onProcs procs)
  | waitpid (k : Kernel) (pid : Nat) (sp : SwitchPoint) :
      Serves .waitpid k (k.onProcs (k.procs.waitpidSyscall pid sp))

/-- Calls one after the other, the latest first. -/
inductive Served (k₀ : Kernel) : List Call → Kernel → Prop
  | start : Served k₀ [] k₀
  | step {calls : List Call} {k k' : Kernel} {c : Call} (h : Served k₀ calls k)
      (hs : Serves c k k') : Served k₀ (c :: calls) k'

end Kernel

/-- The frames that a call takes at least. -/
def Call.cost : Call → Nat
  | .fork | .exec => 4
  | .fault | .store | .malloc | .yield | .exit | .waitpid => 0

theorem Kernel.Serves.takes {c : Call} (h : Serves c k k') :
    Takes c.cost k.toMachine k'.toMachine := by
  cases h with
  | fork h => exact takes_forkSyscall h
  | exec h => exact taking_execve _ _ _ _ _ _ _ h
  | fault h => exact takes_pageFault h
  | store h => exact .of_alloc (writeByte_alloc h)
  | malloc | yield | exit | waitpid => exact .of_alloc rfl

theorem Kernel.Served.takes {calls : List Call} (h : Served k₀ calls k) :
    Takes (4 * (calls.count .fork + calls.count .exec)) k₀.toMachine k.toMachine := by
  induction h with
  | start => exact .refl _
  | @step calls k k' c h hs ih =>
      have hcost : 4 * ((c :: calls).count .fork + (c :: calls).count .exec) =
          4 * (calls.count .fork + calls.count .exec) + c.cost := by
        cases c with
        | fork =>
            rw [List.count_cons_self, List.count_cons_of_ne (by decide), Call.cost]
            omega
        | exec =>
            rw [List.count_cons_self, List.count_cons_of_ne (by decide), Call.cost]
            omega
        | _ =>
            rw [List.count_cons_of_ne (by decide), List.count_cons_of_ne (by decide), Call.cost]
            omega
      rw [hcost]
      exact ih.trans hs.takes

/-- Whatever the processes do, exit included, the free list is what the first one leaves after four
frames and more for each fork and each exec, and it is empty when they have used it up. -/
theorem frames_taken {calls : List Call} (h : Served k₀ calls k) (hf : FreeList k₀.alloc free) :
    (∃ n, 4 * (calls.count .fork + calls.count .exec) ≤ n ∧ FreeList k.alloc (free.drop n)) ∧
      (free.length ≤ 4 * (calls.count .fork + calls.count .exec) → ¬k.alloc.HasFree) := by
  obtain ⟨n, hn, hfree⟩ := h.takes free hf
  refine ⟨⟨n, hn, hfree⟩, fun hlen ↦ ?_⟩
  rw [hfree.hasFree_iff, not_not, List.drop_eq_nil_iff]
  exact hlen.trans hn

/-- A fork, and a yield of the parent. -/
theorem frames_taken_fork : ∃ k, Served (bootKernel 0 0 0) [.yield, .fork] k ∧
    ∃ n, 4 ≤ n ∧ FreeList k.alloc ((List.range' 20 44).drop n) := by
  obtain ⟨k', hk'⟩ := bootKernel_fork 0
  have hrun := Served.step (.step .start (.fork hk')) (.yield k' ⟨0, 0⟩)
  exact ⟨_, hrun, (frames_taken hrun (bootSpace_freeList 0 0)).1⟩

end Sbunix
