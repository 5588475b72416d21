import Sbunix.Sys.Fairness
import Sbunix.Sys.MapPage

/-!
# The pages of the PCBs

The PCB of a child is the page that `kmalloc` makes of the first free frame.  The allocator hands no
frame out twice, so a fork that finds one below 2 GiB gets a PCB that is not in use.  With no frame left
`allocatePage` returns NULL, and every child gets the first page of the window.
-/

namespace Sbunix

open Reasoning Procs Machine

/-- The allocator after `n` more frames have been asked for. -/
def PageAlloc.after (n : Nat) (p : PageAlloc) : PageAlloc := (fun p ↦ p.allocatePage.2)^[n] p

/-- A fork finds a frame for the PCB, at an address that the window reaches. -/
def Supplied (e : Event) (p : PageAlloc) : Prop :=
  e.forks → p.HasFree ∧ p.firstFreepage < 2 ^ 19

/-- The calls from boot, each with the allocator as it finds it, and as `ok` asks.  A fork takes the
first frame for the PCB; how many it takes after that, and how many are taken by other calls and by
faults, is left open.  None comes back. -/
inductive AllocRun (kern init : Nat) (ok : Event → PageAlloc → Prop) :
    List Event → Procs → PageAlloc → Prop
  | boot {s p free} (h : Booted kern init s) (hf : FreeList p free)
      (hk : ∀ n ∈ free, n < 2 ^ 19 → kptr (n * 4096) ≠ kern ∧ kptr (n * 4096) ≠ init) :
      AllocRun kern init ok [] s p
  | step {evs s e s' p} (n : Nat) (h : AllocRun kern init ok evs s p) (ha : s.current ∉ exited evs)
      (hok : ok e p) (hc : ∀ q c, e = .fork q c → c = kptr p.allocatePage.1 ∧ 0 < n)
      (hs : Step kern s e s') : AllocRun kern init ok (e :: evs) s' (p.after n)

variable {kern init : Nat} {ok : Event → PageAlloc → Prop} {evs evs' : List Event} {s : Procs}
  {p : PageAlloc} {free : List Nat} {a n : Nat}

theorem FreeList.after (h : FreeList p free) (n : Nat) : FreeList (p.after n) (free.drop n) := by
  induction n generalizing p free with
  | zero => exact h
  | succ n ih =>
      rw [PageAlloc.after, Function.iterate_succ_apply]
      cases free with
      | nil =>
          have hnil := ih h
          rw [List.drop_nil] at hnil ⊢
          rwa [allocatePage_nil h]
      | cons m free =>
          rw [allocatePage_snd]
          exact ih h.unsetPage

theorem FreeList.first {m : Nat} (h : FreeList p (m :: free)) : p.firstFreepage = m :=
  h.ascending.chain.1

theorem kptr_page_ne {m : Nat} (hn : n < 2 ^ 19) (hm : m < 2 ^ 19) (h : n ≠ m) :
    kptr (n * 4096) ≠ kptr (m * 4096) := by
  rw [kptr_eq (by omega), kptr_eq (by omega)]
  omega

/-! ## A frame for every fork -/

/-- No frame that is free has been made a PCB. -/
theorem AllocRun.fresh (h : AllocRun kern init Supplied evs s p) : Run kern init evs s ∧
    ∃ free, FreeList p free ∧ ∀ n ∈ free, n < 2 ^ 19 → kptr (n * 4096) ∉ born kern init evs := by
  induction h with
  | boot h hf hk =>
      refine ⟨.boot h, _, hf, fun n hn hlow hm ↦ ?_⟩
      have hne := hk n hn hlow
      simp only [born, List.mem_cons, List.not_mem_nil, or_false] at hm
      exact hm.elim hne.2 hne.1
  | @step evs s e s' p n h ha hok hc hs ih =>
      obtain ⟨hrun, free, hf, hfresh⟩ := ih
      have hdrop : ∀ m ∈ free.drop n, m ∈ free := fun m hm ↦ List.mem_of_mem_drop hm
      cases e with
      | fork q c =>
          obtain ⟨rfl, hpos⟩ := hc q c rfl
          obtain ⟨hfree, hlow⟩ := hok rfl
          obtain ⟨m, free, rfl⟩ := List.exists_cons_of_ne_nil (hf.hasFree_iff.mp hfree)
          rw [(allocatePage_cons hf).1] at hs ⊢
          rw [hf.first] at hlow
          have hm := hfresh m List.mem_cons_self hlow
          refine ⟨hrun.step ha ?_ hs, _, hf.after n, fun k hk hklow hborn ↦ ?_⟩
          · rintro _ _ ⟨rfl, rfl⟩
            exact ⟨kptr_ne_zero _, hm⟩
          · -- what is left of the list lies behind the frame that was taken
            obtain ⟨n, rfl⟩ : ∃ n', n = n' + 1 := ⟨n - 1, by omega⟩
            have hkm : k ≠ m :=
              ne_of_mem_of_not_mem (List.mem_of_mem_drop (List.drop_succ_cons ▸ hk)) hf.nodup_cons
            rcases List.mem_cons.mp hborn with he | hborn
            · exact kptr_page_ne hklow hlow hkm he
            · exact hfresh k (hdrop k hk) hklow hborn
      | yield q | exit q | waitpid q pid =>
          refine ⟨hrun.step ha (fun _ _ he ↦ Event.noConfusion he) hs, _, hf.after n, fun k hk ↦ ?_⟩
          exact hfresh k (hdrop k hk)

theorem AllocRun.run (h : AllocRun kern init Supplied evs s p) : Run kern init evs s := h.fresh.1

theorem AllocRun.append (evs' evs : List Event) (h : AllocRun kern init ok (evs' ++ evs) s p) :
    ∃ t q, AllocRun kern init ok evs t q := by
  induction evs' generalizing s p with
  | nil => exact ⟨s, p, h⟩
  | cons e evs' ih =>
      cases h with
      | step n h => exact ih h

/-! ## Which lists of calls there are -/

/-- The PCBs of the children, the latest first. -/
def children : List Event → List Nat
  | [] => []
  | .fork _ c :: evs => c :: children evs
  | _ :: evs => children evs

/-- The calls that the PCBs allow, with the first free frames for the children. -/
theorem allocRun_of_valid (hf : FreeList p free) (hlow : ∀ n ∈ free, n < 2 ^ 19)
    (hk : ∀ n ∈ free, kptr (n * 4096) ≠ kern ∧ kptr (n * 4096) ≠ init) (hv : Valid kern init evs)
    (hc : (children evs).reverse <+: free.map fun n ↦ kptr (n * 4096)) :
    ∃ s, AllocRun kern init Supplied evs s (p.after (children evs).length) := by
  induction evs with
  | nil =>
      obtain ⟨s, hs⟩ := booted_exists hv.1 hv.2.1 hv.2.2
      exact ⟨s, .boot hs hf fun n hn _ ↦ hk n hn⟩
  | cons e evs ih =>
      obtain ⟨he, hv⟩ := hv
      cases e with
      | fork q c =>
          rw [children, List.reverse_cons] at hc
          obtain ⟨s, hs⟩ := ih hv ((List.prefix_append _ _).trans hc)
          obtain ⟨s', hstep, ha⟩ := hs.run.step_exists he
          -- the child's frame comes right behind those of the forks before
          obtain ⟨rest, hrest⟩ := hc
          have hdrop : (free.drop (children evs).length).map (fun n ↦ kptr (n * 4096)) = c :: rest := by
            rw [List.map_drop, ← hrest, List.append_assoc, ← List.length_reverse,
              List.drop_left]
            rfl
          obtain ⟨m, l, hl, rfl, -⟩ := List.map_eq_cons_iff.mp hdrop
          have hfree := hl ▸ hf.after (children evs).length
          have hm : m ∈ free := List.mem_of_mem_drop (hl ▸ List.mem_cons_self)
          have hafter : p.after (children (.fork q (kptr (m * 4096)) :: evs)).length =
              (p.after (children evs).length).after 1 := by
            rw [children, List.length_cons, Nat.add_comm, PageAlloc.after,
              Function.iterate_add_apply]
            rfl
          rw [hafter]
          refine ⟨s', hs.step 1 ha (fun _ ↦ ⟨?_, ?_⟩) ?_ hstep⟩
          · exact hfree.hasFree_iff.mpr (List.cons_ne_nil m l)
          · exact hfree.first ▸ hlow m hm
          · rintro _ _ ⟨rfl, rfl⟩
            rw [(allocatePage_cons hfree).1]
            exact ⟨rfl, Nat.one_pos⟩
      | yield q | exit q | waitpid q pid =>
          obtain ⟨s, hs⟩ := ih hv hc
          obtain ⟨s', hstep, ha⟩ := hs.run.step_exists he
          exact ⟨s', hs.step 0 ha (fun h ↦ nomatch h) (fun _ _ h ↦ nomatch h) hstep⟩

/-- The PCBs of the kernel process and of init, and the pages behind them free. -/
def kernAt : Nat := kptr 0x10000

def initAt : Nat := kptr 0x12000

/-- The PCB of the first child. -/
def childAt : Nat := kptr 0x14000

theorem allocRun_boot (hv : Valid kernAt initAt evs)
    (hc : (children evs).reverse <+: (List.range' 20 44).map fun n ↦ kptr (n * 4096)) :
    ∃ s p, AllocRun kernAt initAt Supplied evs s p := by
  have hlow : ∀ n ∈ List.range' 20 44, 20 ≤ n ∧ n < 2 ^ 19 := fun n hn ↦ by
    have := List.mem_range'_1.mp hn
    omega
  have hne : ∀ n ∈ List.range' 20 44, kptr (n * 4096) ≠ kernAt ∧ kptr (n * 4096) ≠ initAt :=
    fun n hn ↦ ⟨kptr_page_ne (m := 16) (hlow n hn).2 (by decide) (by have := hlow n hn; omega),
      kptr_page_ne (m := 18) (hlow n hn).2 (by decide) (by have := hlow n hn; omega)⟩
  obtain ⟨s, hs⟩ := allocRun_of_valid (freeMachine_freeList (a := 20) (k := 44) (by decide))
    (fun n hn ↦ (hlow n hn).2) hne hv hc
  exact ⟨s, _, hs⟩

/-! ## The ring -/

/-- While every fork finds a frame, and no call waits, the ring is what it should be. -/
theorem suppliedRun_ring (h : AllocRun kern init Supplied evs s p) (hw : NoWait evs) :
    RingLaw kern init evs s :=
  h.run.ringLaw hw

/-- Init forks a child and exits. -/
theorem suppliedRun_ring_child : ∃ s,
    RingLaw kernAt initAt [.exit initAt, .fork initAt childAt] s := by
  obtain ⟨s, p, hs⟩ := @allocRun_boot [.exit initAt, .fork initAt childAt] (by decide +kernel)
    (by decide +kernel)
  exact ⟨s, suppliedRun_ring hs fun q pid hm ↦ by simp at hm⟩

/-- Two forks with one page for both PCBs: the page leads to itself, and the parent has no predecessor. -/
theorem forkSyscall_twice {s : Procs} {a : ForkArgs} (ha : a.child ≠ s.current) :
    ((s.forkSyscall a).forkSyscall a).nextOf s.current = a.child ∧
      ((s.forkSyscall a).forkSyscall a).nextOf a.child = a.child ∧
      ∀ fuel sp, ((s.forkSyscall a).forkSyscall a).exitSyscall fuel sp = none := by
  have hcur : (s.forkSyscall a).current = s.current := forkSyscall_current a
  have hnext : ((s.forkSyscall a).forkSyscall a).nextOf =
      insertAfter (insertAfter s.nextOf s.current a.child) s.current a.child := by
    rw [forkSyscall_nextOf (hcur ▸ ha), hcur, forkSyscall_nextOf ha]
  have hparent : ((s.forkSyscall a).forkSyscall a).nextOf s.current = a.child := by
    rw [hnext, insertAfter_cur ha.symm]
  have hchild : ((s.forkSyscall a).forkSyscall a).nextOf a.child = a.child := by
    rw [hnext, insertAfter_new, insertAfter_cur ha.symm]
  refine ⟨hparent, hchild, fun fuel sp ↦ ?_⟩
  rw [exitSyscall_eq, forkSyscall_current, hcur, hparent, Option.map_eq_none_iff]
  refine findPred_closed {a.child} (fun x hx ↦ ?_) (fun x hx ↦ ?_) rfl fuel
  · rw [Set.mem_singleton_iff.mp hx]
    exact hchild
  · rw [Set.mem_singleton_iff.mp hx, hchild]
    exact ha

/-- With no frame left init forks twice: both children have their PCB at the first page of the window,
which leads to itself, and init has no predecessor to be found. -/
theorem ringLaw_exhausted : ∃ s p,
    AllocRun kernAt initAt (fun _ _ ↦ True) [.fork initAt (kptr 0), .fork initAt (kptr 0)] s p ∧
      s.nextOf initAt = kptr 0 ∧ s.nextOf (kptr 0) = kptr 0 ∧
      (∀ fuel sp, s.exitSyscall fuel sp = none) ∧
      ¬ RingLaw kernAt initAt [.fork initAt (kptr 0), .fork initAt (kptr 0)] s := by
  have hf : FreeList (freeMachine 20 20).alloc [] := freeMachine_freeList (k := 0) (by decide)
  have hne : kptr 0 ≠ initAt := by decide +kernel
  obtain ⟨s, hs⟩ := @booted_exists kernAt initAt (kptr_ne_zero _) (kptr_ne_zero _)
    (by decide +kernel)
  have hcur : s.current = initAt := hs.state.current
  have hu : s.current ≠ kernAt := hcur ▸ hs.ne.symm
  have hc : kptr 0 = kptr (freeMachine 20 20).alloc.allocatePage.1 := by
    rw [allocatePage_nil hf]
  have hafter : (freeMachine 20 20).alloc.after 1 = (freeMachine 20 20).alloc := by
    rw [PageAlloc.after, Function.iterate_one, allocatePage_nil hf]
  let a : ForkArgs := ⟨kptr 0, 0, 0, 0, 0, 0⟩
  have hcur₁ : (s.forkSyscall a).current = s.current := forkSyscall_current a
  -- both forks get the same page
  have h₀ : AllocRun kernAt initAt (fun _ _ ↦ True) [] s (freeMachine 20 20).alloc :=
    .boot hs hf fun n hn ↦ nomatch hn
  have h₁ := h₀.step 1 (fun hm ↦ nomatch hm) trivial
    (by rintro _ _ ⟨rfl, rfl⟩; exact ⟨hc, Nat.one_pos⟩) (.fork a hu)
  have h₂ := (hafter ▸ h₁).step 1 (fun hm ↦ nomatch hm) trivial
    (by rintro _ _ ⟨rfl, rfl⟩; exact ⟨hc, Nat.one_pos⟩) (.fork a (hcur₁ ▸ hu))
  rw [hcur₁, hcur] at h₂
  obtain ⟨hparent, hchild, hexit⟩ := @forkSyscall_twice s a (hcur ▸ hne)
  refine ⟨_, _, h₂, hcur ▸ hparent, hchild, hexit, fun hlaw ↦ ?_⟩
  obtain ⟨fuel, s', hs'⟩ := hlaw.2.1 ⟨0, 0⟩
  rw [hexit] at hs'
  cases hs'

/-! ## Exits -/

/-- While every fork finds a frame, the search of `exitSyscall` ends exactly for a process on the ring;
it ends all along a run exactly when no `waitpid` of the run had anything to wait for. -/
theorem suppliedRun_exit (h : AllocRun kern init Supplied evs s p) :
    ((∀ sp, ∃ fuel s', s.exitSyscall fuel sp = some s') ↔ (loop kern init evs).tail = []) ∧
    ((∀ evs' s' p', evs' <:+ evs → AllocRun kern init Supplied evs' s' p' →
      ∀ sp, ∃ fuel s'', s'.exitSyscall fuel sp = some s'') ↔ NoWait evs) := by
  have hrun := h.run
  refine ⟨hrun.exit_ends, fun hx ↦ ?_, fun hw evs' s' p' hsuf hs sp ↦ ?_⟩
  · -- the tail is empty all along the run, whatever the state
    refine hrun.noWait_of_exit fun evs' s' hsuf hs' ↦ ?_
    obtain ⟨pre, rfl⟩ := hsuf
    obtain ⟨t, q, ht⟩ := h.append pre evs'
    exact hs'.exit_ends.mpr (ht.run.exit_ends.mp (hx evs' t q (List.suffix_append pre evs') ht))
  · refine hs.run.exit_ends.mpr (hs.run.liveRing ?_).tail sp
    exact fun q pid hm ↦ hw q pid (hsuf.mem hm)

/-- Init has forked a child. -/
theorem suppliedRun_exit_child : ∃ s : Procs,
    ((∀ sp, ∃ fuel s', s.exitSyscall fuel sp = some s') ↔
      (loop kernAt initAt [.fork initAt childAt]).tail = []) ∧
    ((∀ evs' s' p', evs' <:+ [.fork initAt childAt] → AllocRun kernAt initAt Supplied evs' s' p' →
      ∀ sp, ∃ fuel s'', s'.exitSyscall fuel sp = some s'') ↔ NoWait [.fork initAt childAt]) := by
  obtain ⟨s, p, hs⟩ := @allocRun_boot [.fork initAt childAt] (by decide +kernel) (by decide +kernel)
  exact ⟨s, suppliedRun_exit hs⟩

/-! ## The processor -/

/-- In every run without `waitpid` in which the forks find frames, a live process has the processor
within as many switches as there are other live processes, and one more for each fork in the
meantime. -/
theorem suppliedRun_scheduled (h : AllocRun kern init Supplied (evs' ++ evs) s p)
    (hw : NoWait (evs' ++ evs)) (ha : a ∈ alive kern init evs) (hx : a ∉ exited (evs' ++ evs))
    (hn : (alive kern init evs).length + evs'.countP Event.forks ≤
      evs'.countP Event.switches + 1) :
    ∃ pre, pre <:+ evs' ∧ (∃ t q, AllocRun kern init Supplied (pre ++ evs) t q) ∧
      ∀ t q, AllocRun kern init Supplied (pre ++ evs) t q → t.current = a := by
  obtain ⟨pre, ⟨l, rfl⟩, -, hcur⟩ := h.run.scheduled_within hw ha hx hn
  rw [List.append_assoc] at h
  exact ⟨pre, List.suffix_append l pre, h.append l _, fun t q ht ↦ hcur t ht.run⟩

/-- The kernel process, init and a child of it: two switches after the fork it is the child's turn or
the kernel's. -/
theorem suppliedRun_scheduled_three : ∃ pre, pre <:+ [.yield childAt, .yield initAt] ∧
    (∃ t q, AllocRun kernAt initAt Supplied (pre ++ [.fork initAt childAt]) t q) ∧
      ∀ t q, AllocRun kernAt initAt Supplied (pre ++ [.fork initAt childAt]) t q →
        t.current = kernAt := by
  obtain ⟨s, p, hs⟩ := @allocRun_boot ([.yield childAt, .yield initAt] ++
    [.fork initAt childAt]) (by decide +kernel) (by decide +kernel)
  exact suppliedRun_scheduled hs (fun q pid hm ↦ by simp at hm) (by decide +kernel)
    (by decide +kernel) (by decide +kernel)

/-- While the forks find frames, the process that gets the processor from a `waitpid` on the ring never
has it again after it has yielded. -/
theorem suppliedRun_starves {forks : List Event} {q w pid : Nat}
    (h : AllocRun kern init Supplied
      (evs' ++ .yield q :: (forks ++ .waitpid w (pid + 1) :: evs)) s p)
    (hw : NoWait evs) (hf : ∀ ev ∈ forks, ev.forks) : s.current ≠ q :=
  h.run.waitpid_starves hw hf

/-- Init waits for the child that it has forked. -/
theorem suppliedRun_starves_child : ∃ s p,
    AllocRun kernAt initAt Supplied [.yield kernAt, .yield initAt, .yield childAt,
      .waitpid initAt 2, .fork initAt childAt] s p ∧ s.current ≠ childAt := by
  obtain ⟨s, p, hs⟩ := @allocRun_boot [.yield kernAt, .yield initAt, .yield childAt,
    .waitpid initAt 2, .fork initAt childAt] (by decide +kernel) (by decide +kernel)
  exact ⟨s, p, hs, @suppliedRun_starves kernAt initAt [.fork initAt childAt]
    [.yield kernAt, .yield initAt] s p [] childAt initAt 1 hs (fun q pid hm ↦ by simp at hm)
    (by simp)⟩

end Sbunix
