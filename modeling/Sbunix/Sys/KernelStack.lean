import Sbunix.Sys.Interrupt
import Sbunix.Sys.RingRun

/-!
# The kernel stacks over a run

`contextSwitch` saves the stack pointer of the process that it leaves in `kstack`, and gives the `kstack`
of the next process to the TSS: from there the next process's system calls start.  Nothing ever sets it
back to the end of the page, so that each switch takes what was on the stack from the process for good.
-/

namespace Sbunix

open Reasoning Procs

variable {s : Procs} {rsp0 rsp : Nat}

/-! ## The two stack fields of a PCB -/

/-- `kstack` and `init_kern`. -/
def Procs.stackOf (s : Procs) (a : Nat) : Nat × Nat := ((s.pcbs a).kstack, (s.pcbs a).initKern)

namespace Procs

theorem stackOf_modify_keep (s : Procs) (a : Nat) {f : Pcb → Pcb}
    (hf : ∀ p, (f p).kstack = p.kstack ∧ (f p).initKern = p.initKern) :
    (s.modify a f).stackOf = s.stackOf := by
  funext x
  by_cases h : x = a
  · subst h
    simp [stackOf, modify, hf]
  · simp [stackOf, modify, h]

@[simp] theorem stackOf_setNext (s : Procs) (a v : Nat) : (s.setNext a v).stackOf = s.stackOf :=
  stackOf_modify_keep s a fun _ ↦ ⟨rfl, rfl⟩

@[simp] theorem stackOf_setState (s : Procs) (a : Nat) (st : ProcessState) :
    (s.setState a st).stackOf = s.stackOf := stackOf_modify_keep s a fun _ ↦ ⟨rfl, rfl⟩

@[simp] theorem stackOf_contextSwitch (s : Procs) (next prev : Nat) (sp : SwitchPoint) :
    (s.contextSwitch next prev sp).stackOf =
      Function.update s.stackOf prev (sp.rsp, (s.stackOf prev).2) := by
  have hs := stackOf_setState s next .running
  funext x
  by_cases h : x = prev
  · subst h
    rw [Function.update_self, ← hs]
    simp [stackOf, contextSwitch, modify]
  · rw [Function.update_of_ne h, ← hs]
    simp [stackOf, contextSwitch, modify, h]

theorem yieldSyscall_stackOf (sp : SwitchPoint) (h : s.nextOf s.current ≠ 0) :
    (s.yieldSyscall sp).stackOf =
      Function.update s.stackOf s.current (sp.rsp, (s.stackOf s.current).2) := by
  rw [yieldSyscall_eq sp h, stackOf_contextSwitch]
  rfl

theorem exitLinked_stackOf (temp : Nat) : (s.exitLinked temp).stackOf = s.stackOf := by
  have ht : ((s.setState s.current .zombie).setNext temp (s.nextOf s.current)).stackOf =
      s.stackOf := by
    rw [stackOf_setNext, stackOf_setState]
  unfold exitLinked
  dsimp only
  split
  · exact ht
  · rw [stackOf_setNext, ht]

theorem waitpidSyscall_stackOf {pid : Nat} (sp : SwitchPoint) (hp : 0 < pid) :
    (s.waitpidSyscall pid sp).stackOf =
      Function.update s.stackOf s.current (sp.rsp, (s.stackOf s.current).2) := by
  have hm : (s.modify s.current fun p ↦ { p with waitOnChildpid := pid }).stackOf = s.stackOf :=
    stackOf_modify_keep s _ fun _ ↦ ⟨rfl, rfl⟩
  rw [waitpidSyscall, if_pos hp]
  simp only [stackOf_contextSwitch]
  change Function.update (((s.modify s.current _).setNext _ _).setNext _ _).stackOf _
    (_, ((((s.modify s.current _).setNext _ _).setNext _ _).stackOf _).2) = _
  rw [stackOf_setNext, stackOf_setNext, hm]

/-- A fork leaves every stack but the child's as it is. -/
theorem forkSyscall_stackOf {a : ForkArgs} {x : Nat} (hx : x ≠ a.child) :
    (s.forkSyscall a).stackOf x = s.stackOf x := by
  by_cases hxc : x = s.current
  · subst hxc
    simp [stackOf, forkSyscall, forkChild, forkLink, modify, setNext, hx]
  · rw [stackOf, forkSyscall_pcbs_other hx hxc, stackOf]

end Procs

/-! ## Runs in which no stack is left -/

/-- The calls that switch to another process. -/
def Event.leaves : Event → Bool
  | .yield _ | .exit _ | .waitpid _ (_ + 1) => true
  | .fork _ _ | .waitpid _ 0 => false

/-- A system call of ring 3 enters the kernel with `rsp0` in the TSS, and in `irq_handler2` or in what
it calls the stack pointer is `rsp`. -/
def InSyscall (rsp0 rsp : Nat) : Prop :=
  ∃ (c : Cpu) (entry ret : UInt64), c.cs &&& 3 = 3 ∧ 136 ≤ (c.frameBase rsp0.toUInt64).toNat ∧
    rsp ≤ ((c.atStub2 .syscall rsp0.toUInt64 entry).atHandler2 ret).sp.toNat

/-- The frame and the registers are 17 words. -/
theorem InSyscall.le (h : InSyscall rsp0 rsp) : rsp + 136 ≤ rsp0 := by
  obtain ⟨c, entry, ret, h3, hroom, hle⟩ := h
  have hsp := (Cpu.atHandler2_words (k := .syscall) hroom entry ret).1
  have hbase : (c.frameBase rsp0.toUInt64).toNat ≤ rsp0.toUInt64.toNat := by
    rw [Cpu.frameBase, if_pos h3]
    exact UInt64.le_iff_toNat_le.mp UInt64.and_le_left
  have hmod : rsp0.toUInt64.toNat ≤ rsp0 := Nat.mod_le rsp0 (2 ^ 64)
  omega

/-- The saved stack pointer is in the page that `kmalloc` returned for the kernel stack. -/
def StackInPage (s : Procs) (a : Nat) : Prop :=
  (s.stackOf a).2 ≤ (s.stackOf a).1 + 4080 ∧ (s.stackOf a).1 ≤ (s.stackOf a).2

/-- The runs in which all kernel stacks stay in their pages, with `rsp0` of the TSS and with how many
times each process has given the processor to another one.  `contextSwitch` and `switchToRing3` set
`rsp0` to the next process's `kstack`. -/
inductive StackRun (kern init : Nat) : List Event → Procs → Nat → (Nat → Nat) → Prop
  | boot {s : Procs} (h : Booted kern init s) (hp : StackInPage s init) :
      StackRun kern init [] s (s.stackOf init).1 fun _ ↦ 0
  | step {evs : List Event} {s : Procs} {rsp0 : Nat} {n : Nat → Nat} {e : Event} {s' : Procs}
      (h : StackRun kern init evs s rsp0 n) (ha : s.current ∉ exited evs)
      (hf : ∀ p c, e = .fork p c → c ≠ 0 ∧ c ∉ born kern init evs) (hs : Step kern s e s')
      (hk : e.leaves → s.current ≠ kern → InSyscall rsp0 (s'.stackOf s.current).1)
      (hp : ∀ a ∈ born kern init (e :: evs), a ≠ kern → StackInPage s' a) :
      StackRun kern init (e :: evs) s' (if e.leaves then (s.stackOf s'.current).1 else rsp0)
        (if s'.current = s.current then n else Function.update n s.current (n s.current + 1))

variable {kern init : Nat} {evs : List Event} {s' : Procs} {e : Event} {a : Nat} {n : Nat → Nat}

theorem StackRun.run (h : StackRun kern init evs s rsp0 n) : Run kern init evs s := by
  induction h with
  | boot h => exact .boot h
  | step _ ha hf hs _ _ ih => exact .step ih ha hf hs

/-- What a call does to the stacks: a switch writes the caller's `kstack`, a fork the child's two. -/
theorem Step.stackOf (hs : Step kern s e s') (hi : RunInv kern init evs s)
    (hf : ∀ p c, e = .fork p c → c ∉ born kern init evs) :
    (e.leaves → (s'.stackOf s.current).2 = (s.stackOf s.current).2 ∧
      ∀ x, x ≠ s.current → s'.stackOf x = s.stackOf x) ∧
    (¬e.leaves → s'.current = s.current ∧
      ∀ x ∈ born kern init evs, s'.stackOf x = s.stackOf x) := by
  -- the three switches write one field
  have hswitch {t : Procs} {v : Nat} (ht : t.stackOf =
      Function.update s.stackOf s.current (v, (s.stackOf s.current).2)) :
      (t.stackOf s.current).2 = (s.stackOf s.current).2 ∧
        ∀ x, x ≠ s.current → t.stackOf x = s.stackOf x := by
    rw [ht, Function.update_self]
    exact ⟨rfl, fun x hx ↦ Function.update_of_ne hx _ _⟩
  cases hs with
  | fork a hu =>
      refine ⟨fun hl ↦ absurd hl Bool.false_ne_true, fun _ ↦
        ⟨forkSyscall_current a, fun x hx ↦ forkSyscall_stackOf fun he ↦ hf _ _ rfl (he ▸ hx)⟩⟩
  | yield sp => exact ⟨fun _ ↦ hswitch (yieldSyscall_stackOf sp hi.next_ne), fun hl ↦ absurd rfl hl⟩
  | schedule sp hk =>
      rw [schedule_eq_yield sp hi.last hi.current_ne hi.next_ne]
      exact ⟨fun _ ↦ hswitch (yieldSyscall_stackOf sp hi.next_ne), fun hl ↦ absurd rfl hl⟩
  | exit fuel sp hu he =>
      obtain ⟨temp, -, -, rfl⟩ := hi.links.exit_found he
      have hcb := hi.mem_born _ hi.current_mem
      have hne : (s.exitLinked temp).nextOf (s.exitLinked temp).current ≠ 0 := by
        rw [exitLinked_nextOf, exitLinked_current]
        exact hi.born_ne _ (@exitNext_mem s _ temp hi.next_born hcb _ hcb)
      have ht := yieldSyscall_stackOf sp hne
      rw [exitLinked_stackOf, exitLinked_current] at ht
      exact ⟨fun _ ↦ hswitch ht, fun hl ↦ absurd rfl hl⟩
  | waitpid pid sp hu =>
      cases pid with
      | zero =>
          exact ⟨fun hl ↦ absurd hl Bool.false_ne_true, fun _ ↦ ⟨rfl, fun _ _ ↦ rfl⟩⟩
      | succ pid =>
          exact ⟨fun _ ↦ hswitch (waitpidSyscall_stackOf sp (Nat.succ_pos pid)),
            fun hl ↦ absurd rfl hl⟩

theorem StackRun.inPage (h : StackRun kern init evs s rsp0 n) (hb : a ∈ born kern init evs)
    (ha : a ≠ kern) : StackInPage s a := by
  cases h with
  | boot h hp =>
      obtain rfl : a = init := (List.mem_cons.mp hb).resolve_right fun hm ↦
        ha (List.mem_singleton.mp hm)
      exact hp
  | step h _ _ _ _ hp => exact hp a hb ha

theorem mem_born_cons (h : a ∈ born kern init (e :: evs)) :
    a ∈ born kern init evs ∨ ∃ p, e = .fork p a := by
  cases e with
  | fork p c =>
      refine (List.mem_cons.mp h).symm.imp_right ?_
      rintro rfl
      exact ⟨p, rfl⟩
  | _ => exact .inl h

theorem born_cons (h : a ∈ born kern init evs) : a ∈ born kern init (e :: evs) := by
  cases e with
  | fork p c => exact List.mem_cons_of_mem c h
  | _ => exact h

theorem born_leaves (h : e.leaves) : born kern init (e :: evs) = born kern init evs := by
  cases e with
  | fork p c => cases h
  | _ => rfl

/-- Each switch has cost a process 17 words, and the TSS gives it no more than it had. -/
structure StackInv (kern init : Nat) (evs : List Event) (s : Procs) (rsp0 : Nat) (n : Nat → Nat) :
    Prop where
  cost : ∀ a ∈ born kern init evs, a ≠ kern → (s.stackOf a).1 + 136 * n a ≤ (s.stackOf a).2
  rsp0 : s.current ≠ kern → rsp0 + 136 * n s.current ≤ (s.stackOf s.current).2
  unborn : ∀ a ∉ born kern init evs, n a = 0

/-- A call that goes on in its process only adds a child, whose stack is new. -/
theorem StackInv.stays (ih : StackInv kern init evs s rsp0 n) (hi : RunInv kern init evs s)
    (hcur : s'.current = s.current) (hkeep : ∀ x ∈ born kern init evs, s'.stackOf x = s.stackOf x)
    (hf : ∀ p c, e = .fork p c → c ∉ born kern init evs)
    (hp : ∀ a ∈ born kern init (e :: evs), a ≠ kern → StackInPage s' a) :
    StackInv kern init (e :: evs) s' rsp0 n := by
  refine ⟨fun a hab hak ↦ ?_, fun hck ↦ ?_, fun a hab ↦ ih.unborn a fun hm ↦ hab (born_cons hm)⟩
  · rcases mem_born_cons hab with hm | ⟨p, rfl⟩
    · rw [hkeep a hm]
      exact ih.cost a hm hak
    · -- the child starts in its page
      rw [ih.unborn a (hf p a rfl)]
      exact (hp a hab hak).2
  · rw [hcur] at hck ⊢
    rw [hkeep _ (hi.mem_born _ hi.current_mem)]
    exact ih.rsp0 hck

/-- A switch takes 17 words of the caller's stack, and sets `rsp0` to the stack of the next process. -/
theorem StackInv.leaves (ih : StackInv kern init evs s rsp0 n) (hl : e.leaves)
    (hcb : s.current ∈ born kern init evs) (hcb' : s'.current ∈ born kern init evs)
    (htop : (s'.stackOf s.current).2 = (s.stackOf s.current).2)
    (hkeep : ∀ x, x ≠ s.current → s'.stackOf x = s.stackOf x)
    (hk : s.current ≠ kern → InSyscall rsp0 (s'.stackOf s.current).1) :
    StackInv kern init (e :: evs) s' (s.stackOf s'.current).1
      (if s'.current = s.current then n else Function.update n s.current (n s.current + 1)) := by
  have hborn : born kern init (e :: evs) = born kern init evs := born_leaves hl
  have hother : ∀ a, a ≠ s.current →
      (if s'.current = s.current then n else Function.update n s.current (n s.current + 1)) a = n a := by
    intro a hac
    split
    · rfl
    · exact Function.update_of_ne hac _ _
  have hself : (if s'.current = s.current then n else Function.update n s.current (n s.current + 1))
      s.current ≤ n s.current + 1 := by
    split
    · exact Nat.le_succ _
    · rw [Function.update_self]
  refine ⟨fun a hab hak ↦ ?_, fun hck ↦ ?_, fun a hab ↦ ?_⟩
  · rw [hborn] at hab
    by_cases hac : a = s.current
    · subst hac
      have hle := (hk hak).le
      have hrsp := ih.rsp0 hak
      rw [htop]
      omega
    · rw [hkeep a hac, hother a hac]
      exact ih.cost a hab hak
  · have hcost := ih.cost _ hcb' hck
    by_cases hcc : s'.current = s.current
    · rw [if_pos hcc]
      rw [hcc] at hcost ⊢
      rw [htop]
      exact hcost
    · rw [if_neg hcc, Function.update_of_ne hcc, hkeep _ hcc]
      exact hcost
  · rw [hborn] at hab
    rw [hother a fun he ↦ hab (he ▸ hcb)]
    exact ih.unborn a hab

theorem StackRun.inv (h : StackRun kern init evs s rsp0 n) : StackInv kern init evs s rsp0 n := by
  induction h with
  | @boot s hb hp =>
      have hcur := hb.state.current
      refine ⟨fun a ha hk ↦ ?_, fun _ ↦ ?_, fun _ _ ↦ rfl⟩
      · have hai : a = init := (List.mem_cons.mp ha).resolve_right fun hm ↦
          hk (List.mem_singleton.mp hm)
        rw [hai]
        exact hp.2
      · rw [hcur]
        exact hp.2
  | @step evs s rsp0 n e s' h ha hf hs hk hp ih =>
      have hrun := h.run
      have hi := hrun.inv
      have hi' := (Run.step hrun ha hf hs).inv
      obtain ⟨hleaves, hstays⟩ := hs.stackOf hi fun p c he ↦ (hf p c he).2
      cases hl : e.leaves with
      | false =>
          obtain ⟨hcur, hkeep⟩ := hstays (by rw [hl]; exact Bool.false_ne_true)
          rw [if_neg Bool.false_ne_true, if_pos hcur]
          exact ih.stays hi hcur hkeep (fun p c he ↦ (hf p c he).2) hp
      | true =>
          obtain ⟨htop, hkeep⟩ := hleaves hl
          have hcb' := hi'.mem_born _ hi'.current_mem
          rw [born_leaves hl] at hcb'
          rw [if_pos rfl]
          exact ih.leaves hl (hi.mem_born _ hi.current_mem) hcb' htop hkeep (hk hl)

/-- While the kernel stacks stay in their pages, no user process is switched away from more than 30
times: a page has room for 30 times 17 words. -/
theorem switches_le (h : StackRun kern init evs s rsp0 n) (ha : a ≠ kern) : n a ≤ 30 := by
  have hinv := h.inv
  by_cases hb : a ∈ born kern init evs
  · have hcost := hinv.cost a hb ha
    have hpage := h.inPage hb ha
    have hlow := hpage.1
    omega
  · rw [hinv.unborn a hb]
    exact Nat.zero_le 30

/-- A boot with the kernel stack of init in the page at 0x80000. -/
theorem booted_stack : ∃ s, Booted 1 2 s ∧ s.stackOf 2 = (0x80FF0, 0x80FF0) := by
  let s₀ : Procs :=
    { pcbs := fun _ ↦ default, first := 0, current := 0, last := 0, zombie := 0, pID := fun _ ↦ 0 }
  let a : InitArgs :=
    { init := 2, cr3 := 0, mm := 0, kstack := 0x80000, rip := 0, rsp := 0, filename := [] }
  obtain ⟨s₁, hs₁, hst⟩ : ∃ s₁, (s₀.mapProcessID.kernProcess 1 0 0 0).userInitProcess a 1 =
      some s₁ ∧ s₁.stackOf 2 = (0x80FF0, 0x80FF0) := ⟨_, rfl, rfl⟩
  exact ⟨s₁.switchToRing3 2, ⟨by decide, by decide, by decide,
    s₀, s₁, 0, 0, 0, 1, a, rfl, rfl, rfl, hs₁, rfl⟩, hst⟩

/-- Init yields from its first system call. -/
theorem switches_le_once : ∃ s rsp0 n, StackRun 1 2 [.yield 2] s rsp0 n ∧ n 2 = 1 ∧ n 2 ≤ 30 := by
  obtain ⟨s, hb, hst⟩ := booted_stack
  have hcur := hb.state.current
  have hnext : s.nextOf s.current = 1 := by rw [hcur, hb.state.next_init]
  have hy := yieldSyscall_stackOf (s := s) ⟨0x80FF0 - 136, 0⟩ (by rw [hnext]; decide)
  have hc' := yieldSyscall_current (s := s) ⟨0x80FF0 - 136, 0⟩ (by rw [hnext]; decide)
  rw [hnext] at hc'
  rw [hcur, hst] at hy
  have hrun := StackRun.step (.boot hb (by rw [StackInPage, hst]; decide))
    (fun hm ↦ by cases hm) (fun p c hf ↦ by cases hf) (.yield ⟨0x80FF0 - 136, 0⟩)
    (fun _ _ ↦ ⟨fives, 0, 0, rfl, ?_, ?_⟩) fun x hx hk ↦ ?_
  · rw [hcur] at hrun
    have hn : (if (s.yieldSyscall ⟨0x80FF0 - 136, 0⟩).current = 2 then fun _ ↦ 0
        else Function.update (fun _ ↦ 0) 2 1 : Nat → Nat) 2 = 1 := by
      rw [hc']
      rfl
    exact ⟨_, _, _, hrun, hn, switches_le hrun (by decide)⟩
  · rw [hst]
    decide
  · have hbase : (fives.frameBase (0x80FF0 : Nat).toUInt64).toNat = 0x80FF0 := by decide
    have hroom : 136 ≤ (fives.frameBase (0x80FF0 : Nat).toUInt64).toNat := by rw [hbase]; decide
    have hsp := (Cpu.atHandler2_words (k := .syscall) hroom 0 0).1
    rw [hbase] at hsp
    rw [hcur, hy, hst, Function.update_self]
    exact Nat.sub_le_of_le_add (Nat.le_of_eq hsp.symm)
  · have hx2 : x = 2 := (List.mem_cons.mp hx).resolve_right fun hm ↦ hk (List.mem_singleton.mp hm)
    rw [StackInPage, hy, hx2, Function.update_self]
    decide

end Sbunix
