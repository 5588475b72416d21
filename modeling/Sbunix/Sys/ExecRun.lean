import Sbunix.Sys.Exec

/-!
# What `execveSyscall` leaves when it enters the new process

The caller stays current until the new process takes its place, so the block of arguments comes from
the caller's heap, while the program's `brk` is set by the loader.
-/

namespace Sbunix

open Reasoning Kernel KernelM

variable {k k' k₁ k₂ : Kernel} {w n a v x fuel tarfs file argv ehdr task p m ans : Nat}
  {free : List Nat} {b : UInt8} {s : CString} {u u' : UserStack} {args : List (Nat × CString)}

/-! ## Runs of kernel code -/

section
variable {α β : Type} {c : KernelM α} {f : α → KernelM β}

theorem KernelM.bind_done {y : β} : (c >>= f) k = some (.done y k') ↔
    ∃ z k₁, c k = some (.done z k₁) ∧ f z k₁ = some (.done y k') := by
  simp only [bind]
  constructor
  · intro h
    split at h
    · rename_i z k₁ hc
      exact ⟨z, k₁, hc, h⟩
    · cases h
    · cases h
  · rintro ⟨z, k₁, hc, hf⟩
    rw [hc]
    exact hf

theorem KernelM.pure_done {y z : α} : (pure y : KernelM α) k = some (.done z k') ↔
    z = y ∧ k' = k := by
  change some (Outcome.done y k) = _ ↔ _
  simp [eq_comm]

theorem KernelM.read_done {g : Kernel → α} {z : α} : read g k = some (.done z k') ↔
    z = g k ∧ k' = k := by
  change some (Outcome.done (g k) k) = _ ↔ _
  simp [eq_comm]

theorem KernelM.call_done {g : Kernel → α × Kernel} {z : α} : call g k = some (.done z k') ↔
    z = (g k).1 ∧ k' = (g k).2 := by
  change some (Outcome.done (g k).1 (g k).2) = _ ↔ _
  simp [eq_comm]

theorem KernelM.modify_done {g : Kernel → Kernel} {z : Unit} :
    modify g k = some (.done z k') ↔ k' = g k := by
  change some (Outcome.done () (g k)) = _ ↔ _
  simp [eq_comm]

theorem KernelM.attempt_done {g : Kernel → Option Kernel} {z : Unit} :
    attempt g k = some (.done z k') ↔ g k = some k' := by
  change (g k).map (Outcome.done ()) = _ ↔ _
  simp

theorem KernelM.ask_done {g : Kernel → Option α} {z : α} : ask g k = some (.done z k') ↔
    g k = some z ∧ k' = k := by
  change (g k).map (Outcome.done · k) = _ ↔ _
  simp [eq_comm]

end

/-! ## Memory accesses -/

/-- The processes and their `mm_struct`s are the same. -/
structure SameRecords (k k' : Kernel) : Prop where
  procs : k'.procs = k.procs
  mms : k'.mms = k.mms

theorem SameRecords.refl (k : Kernel) : SameRecords k k := ⟨rfl, rfl⟩

theorem SameRecords.trans (h : SameRecords k k₁) (h' : SameRecords k₁ k₂) : SameRecords k k₂ :=
  ⟨h'.procs.trans h.procs, h'.mms.trans h.mms⟩

theorem faultVmas_records {found : Bool} (h : faultVmas a fuel v k = some (k', found)) :
    SameRecords k k' := by
  induction fuel generalizing v with
  | zero => cases h
  | succ fuel ih =>
      rw [faultVmas] at h
      dsimp only at h
      split at h
      · obtain ⟨rfl, -⟩ := Prod.mk.inj (Option.some.inj h)
        exact .refl k
      · split at h
        · rw [Option.map_eq_some_iff] at h
          obtain ⟨vmEnd, -, he⟩ := h
          obtain ⟨rfl, -⟩ := Prod.mk.inj he
          exact ⟨rfl, rfl⟩
        · split at h
          · obtain ⟨rfl, -⟩ := Prod.mk.inj (Option.some.inj h)
            exact ⟨rfl, rfl⟩
          · exact ih h

theorem pageFault_records {errCode : Nat} (h : k.pageFault fuel errCode a = some (.resume k')) :
    SameRecords k k' := by
  rcases pageFault_cases h with ⟨s, hr⟩ | ⟨k₁, found, hk₁, hr⟩
  · obtain rfl := FaultResult.resume.inj hr
    exact ⟨rfl, rfl⟩
  · rcases hr with hr | hr
    · obtain rfl := FaultResult.resume.inj hr
      exact faultVmas_records hk₁
    · cases hr

/-- The code leaves the processes and their `mm_struct`s alone. -/
def KernelM.Quiet {α : Type} (c : KernelM α) : Prop :=
  ∀ k y k', c k = some (.done y k') → SameRecords k k'

section
variable {α β : Type} {c : KernelM α} {f : α → KernelM β}

theorem KernelM.Quiet.bind (hc : Quiet c) (hf : ∀ y, Quiet (f y)) : Quiet (c >>= f) := by
  intro k y k' h
  obtain ⟨z, k₁, h₁, h₂⟩ := bind_done.mp h
  exact (hc k z k₁ h₁).trans (hf z k₁ y k' h₂)

theorem KernelM.quiet_pure (y : α) : Quiet (pure y : KernelM α) := by
  intro k z k' h
  obtain ⟨-, rfl⟩ := pure_done.mp h
  exact .refl k'

theorem KernelM.quiet_ask (g : Kernel → Option α) : Quiet (ask g) := by
  intro k z k' h
  obtain ⟨-, rfl⟩ := ask_done.mp h
  exact .refl k'

end

theorem KernelM.quiet_fault (fuel errCode v : Nat) : Quiet (fault fuel errCode v) := by
  intro k y k' h
  obtain ⟨r, hr, he⟩ := Option.map_eq_some_iff.mp h
  cases r with
  | resume k₁ =>
      obtain ⟨-, rfl⟩ := Outcome.done.inj he
      exact pageFault_records hr
  | halt k₁ => cases he

theorem KernelM.quiet_loadByte (fuel v n : Nat) : Quiet (loadByte fuel v n) := by
  induction n with
  | zero =>
      intro k y k' h
      cases h
  | succ n ih =>
      intro k y k' h
      rw [loadByte] at h
      dsimp only at h
      split at h
      · obtain ⟨-, rfl⟩ := Outcome.done.inj (Option.some.inj h)
        exact .refl k
      · exact (quiet_fault fuel 0 v).bind (fun _ ↦ ih) k y k' h

theorem KernelM.quiet_storeByte (fuel v : Nat) (b : UInt8) (n : Nat) :
    Quiet (storeByte fuel v b n) := by
  induction n with
  | zero =>
      intro k y k' h
      cases h
  | succ n ih =>
      intro k y k' h
      rw [storeByte] at h
      dsimp only at h
      split at h
      · obtain ⟨-, rfl⟩ := Outcome.done.inj (Option.some.inj h)
        exact ⟨rfl, rfl⟩
      · exact (quiet_fault fuel _ v).bind (fun _ ↦ ih) k y k' h

theorem KernelM.quiet_loadBytes (fuel v n : Nat) : Quiet (loadBytes fuel v n) := by
  induction n generalizing v with
  | zero => exact quiet_pure 0
  | succ n ih =>
      exact (quiet_loadByte fuel _ fuel).bind fun b ↦ (ih (v + 1)).bind fun r ↦ quiet_pure _

theorem KernelM.quiet_storeBytes (fuel v x n : Nat) : Quiet (storeBytes fuel v x n) := by
  induction n generalizing v x with
  | zero => exact quiet_pure ()
  | succ n ih => exact (quiet_storeByte fuel _ _ fuel).bind fun _ ↦ ih (v + 1) (x / 256)

theorem KernelM.quiet_loadString (fuel v n : Nat) : Quiet (loadString fuel v n) := by
  induction n generalizing v with
  | zero =>
      intro k y k' h
      cases h
  | succ n ih =>
      refine (quiet_loadByte fuel _ fuel).bind fun b ↦ ?_
      split
      · exact quiet_pure []
      · exact (ih (v + 1)).bind fun s ↦ quiet_pure _

theorem KernelM.quiet_storeString (fuel v : Nat) (s : CString) : Quiet (storeString fuel v s) := by
  induction s generalizing v with
  | nil => exact quiet_storeByte fuel _ 0 fuel
  | cons b s ih => exact (quiet_storeByte fuel _ b fuel).bind fun _ ↦ ih (v + 1)

theorem quiet_copyArgs (fuel argv n a : Nat) (u : UserStack) : Quiet (copyArgs fuel argv n a u) := by
  induction n generalizing a u with
  | zero =>
      intro k y k' h
      cases h
  | succ n ih =>
      refine (quiet_loadBytes fuel _ 8).bind fun p ↦ (quiet_loadString fuel p fuel).bind fun s ↦ ?_
      split
      · exact (quiet_loadBytes fuel _ 8).bind fun p ↦ (quiet_loadString fuel p fuel).bind fun s ↦
          (quiet_ask _).bind fun u ↦ ih (a + 1) u
      · exact quiet_pure _

theorem quiet_isElf (fuel ehdr : Nat) : Quiet (isElf fuel ehdr) := by
  refine (quiet_loadByte fuel _ fuel).bind fun c₁ ↦ ?_
  split
  · refine (quiet_loadByte fuel _ fuel).bind fun c₂ ↦ ?_
    split
    · exact (quiet_loadByte fuel _ fuel).bind fun c₃ ↦ quiet_pure _
    · exact quiet_pure _
  · exact quiet_pure _

/-! ## The loader -/

/-- No other `mm_struct` than the one at `a` differs, and the processes have the same ones. -/
structure OtherMms (a : Nat) (k k' : Kernel) : Prop where
  current : k'.procs.current = k.procs.current
  owner : ∀ q, (k'.procs.pcbs q).mm = (k.procs.pcbs q).mm
  mms : ∀ m, m ≠ a → k'.mms m = k.mms m

theorem OtherMms.refl (mm : Nat) (k : Kernel) : OtherMms mm k k := ⟨rfl, fun _ ↦ rfl, fun _ _ ↦ rfl⟩

theorem OtherMms.trans (h : OtherMms m k k₁) (h' : OtherMms m k₁ k₂) : OtherMms m k k₂ :=
  ⟨h'.current.trans h.current, fun q ↦ (h'.owner q).trans (h.owner q),
    fun x hx ↦ (h'.mms x hx).trans (h.mms x hx)⟩

theorem SameRecords.otherMms (h : SameRecords k k') : OtherMms m k k' :=
  ⟨by rw [h.procs], fun q ↦ by rw [h.procs], fun x _ ↦ by rw [h.mms]⟩

theorem otherMms_segmentVma (k : Kernel) (mm vma : Nat) (ph : Phdr) :
    OtherMms mm k (k.segmentVma mm vma ph) := by
  unfold Kernel.segmentVma
  dsimp only
  split
  · exact ⟨rfl, fun _ ↦ rfl, fun x hx ↦ by simp [setCurrent, hx]⟩
  · exact ⟨rfl, fun _ ↦ rfl, fun x hx ↦ by simp [setCurrent, linkCurrent, hx]⟩

theorem otherMms_copySegment {ph : Phdr} (h : k.copySegment ehdr m ph = some k') :
    OtherMms m k k' := by
  unfold Kernel.copySegment at h
  split at h
  · obtain ⟨s, -, rfl⟩ := Option.map_eq_some_iff.mp h
    exact ⟨rfl, fun _ ↦ rfl, fun x hx ↦ by simp [hx]⟩
  · obtain rfl := Option.some.inj h
    exact .refl m k

theorem otherMms_loadSegment {ph : Phdr} (h : k.loadSegment ehdr m ph = some k') :
    OtherMms m k k' := by
  unfold Kernel.loadSegment at h
  split at h
  · obtain ⟨k₁, hk₁, rfl⟩ := Option.map_eq_some_iff.mp h
    have hvma := otherMms_segmentVma (k.onMachine k.kmalloc.2) m k.kmalloc.1 ph
    have hcopy := otherMms_copySegment hk₁
    exact ⟨hcopy.current.trans hvma.current, fun q ↦ (hcopy.owner q).trans (hvma.owner q),
      fun x hx ↦ (hcopy.mms x hx).trans (hvma.mms x hx)⟩
  · obtain rfl := Option.some.inj h
    exact .refl m k

theorem otherMms_loadSegments (h : loadSegments ehdr m n a k = some k') : OtherMms m k k' := by
  induction n generalizing a k with
  | zero =>
      obtain rfl := Option.some.inj h
      exact .refl m k
  | succ n ih =>
      obtain ⟨ph, -, h⟩ := Option.bind_eq_some_iff.mp h
      obtain ⟨k₁, hk₁, h⟩ := Option.bind_eq_some_iff.mp h
      exact (otherMms_loadSegment hk₁).trans (ih h)

theorem modify_field {α : Type} {procs : Procs} {f : Pcb → Pcb} {g : Pcb → α}
    (hf : ∀ c, g (f c) = g c) (q : Nat) : g ((procs.modify p f).pcbs q) = g (procs.pcbs q) := by
  change g (Function.update procs.pcbs p (f (procs.pcbs p)) q) = _
  by_cases hq : q = p
  · subst hq
    rw [Function.update_self, hf]
  · rw [Function.update_of_ne hq]

theorem setRsp_field {α : Type} {g : Pcb → α} (hg : ∀ c v, g { c with rsp := v } = g c)
    (k : Kernel) (task rsp q : Nat) : g ((k.setRsp task rsp).procs.pcbs q) = g (k.procs.pcbs q) :=
  modify_field (fun c ↦ hg c rsp) q

theorem setRsp_owner (k : Kernel) (task rsp q : Nat) :
    ((k.setRsp task rsp).procs.pcbs q).mm = (k.procs.pcbs q).mm :=
  setRsp_field (fun _ _ ↦ rfl) k task rsp q

theorem setRip_owner (k : Kernel) (task rip q : Nat) :
    ((k.setRip task rip).procs.pcbs q).mm = (k.procs.pcbs q).mm := by
  change ((k.procs.modify task fun p ↦ { p with rip := rip }).pcbs q).mm = _
  exact modify_field (by intro c; rfl) q

theorem otherMms_loadStack (h : k.loadStack task m = some k') : OtherMms m k k' := by
  unfold Kernel.loadStack at h
  dsimp only at h
  by_cases h₀ : (((k.onMachine k.kmalloc.2).setVma k.kmalloc.1 {}).mms m).mmap = 0
  all_goals
    first
      | rw [if_pos h₀] at h
      | rw [if_neg h₀] at h
    split at h
    · cases h
    · obtain rfl := Option.some.inj h
      refine ⟨rfl, fun q ↦ ?_, fun x hx ↦ ?_⟩
      · rw [setRsp_owner]
        rfl
      · simp [setRsp, setCurrent, linkCurrent, hx]

/-- A program that has been loaded starts with its heap at `HEAP_START`. -/
theorem loadProgram_brk (h : k.loadProgram task ehdr = some k')
    (hm : (k.procs.pcbs task).mm = m) : OtherMms m k k' ∧ (k'.mms m).brk = heapStart := by
  obtain ⟨phoff, -, h⟩ := Option.bind_eq_some_iff.mp h
  obtain ⟨entry, -, h⟩ := Option.bind_eq_some_iff.mp h
  obtain ⟨phnum, -, h⟩ := Option.bind_eq_some_iff.mp h
  rw [hm] at h
  obtain ⟨k₁, hk₁, h⟩ := Option.bind_eq_some_iff.mp h
  obtain ⟨k₂, hk₂, rfl⟩ := Option.map_eq_some_iff.mp h
  have hstart : OtherMms m k ((k.setRip task entry).setMm m
      { (k.setRip task entry).mms m with mmap := 0 }) :=
    ⟨rfl, setRip_owner k task entry, fun x hx ↦ by simp [setRip, hx]⟩
  have hload := (hstart.trans (otherMms_loadSegments hk₁)).trans (otherMms_loadStack hk₂)
  refine ⟨hload.trans ⟨rfl, fun _ ↦ rfl, fun x hx ↦ ?_⟩, ?_⟩
  · simp [loadHeap, setCurrent, linkCurrent, hx]
  · simp [loadHeap, setCurrent, linkCurrent]

/-! ## The arguments -/

/-- The process that runs has taken `d` bytes more from its heap, and no other `mm_struct` has
changed. -/
structure Took (d : Nat) (k k' : Kernel) : Prop where
  other : OtherMms k.curMm k k'
  brk : k'.brk = (k.brk + d) % 2 ^ 64

theorem OtherMms.curMm (h : OtherMms a k k') : k'.curMm = k.curMm := by
  rw [Kernel.curMm, Kernel.curMm, h.current, h.owner]

theorem SameRecords.brk (h : SameRecords k k') : k'.brk = k.brk := by
  rw [Kernel.brk, Kernel.brk, Kernel.curMm, Kernel.curMm, h.procs, h.mms]

theorem SameRecords.took (h : SameRecords k k') (hb : k.brk < 2 ^ 64) : Took 0 k k' :=
  ⟨h.otherMms, by rw [h.brk, Nat.add_zero, Nat.mod_eq_of_lt hb]⟩

theorem Took.trans {d d' : Nat} (h : Took d k k₁) (h' : Took d' k₁ k₂) : Took (d + d') k k₂ := by
  have hc := h.other.curMm
  obtain ⟨ho, hb⟩ := h'
  rw [hc] at ho
  refine ⟨h.other.trans ho, ?_⟩
  rw [hb, h.brk]
  omega

theorem took_mallocSyscall (k : Kernel) (size : Nat) : Took size k (k.mallocSyscall size).2 :=
  ⟨⟨rfl, fun _ ↦ rfl, fun _ hm ↦ Function.update_of_ne hm _ _⟩, mallocSyscall_brk k size⟩

theorem Took.lt {d : Nat} (h : Took d k k') : k'.brk < 2 ^ 64 := by
  rw [h.brk]
  exact Nat.mod_lt _ (by decide)

theorem placeArg_done {y : Nat × CString} (h : placeArg fuel ans a u k = some (.done y k')) :
    Took 20 k k' ∧ y.1 = k.brk ∧ u.row a = some y.2 := by
  obtain ⟨p, k₁, h₁, h⟩ := bind_done.mp h
  obtain ⟨_, k₂, h₂, h⟩ := bind_done.mp h
  obtain ⟨s, k₃, h₃, h⟩ := bind_done.mp h
  obtain ⟨_, k₄, h₄, h⟩ := bind_done.mp h
  obtain ⟨rfl, rfl⟩ := pure_done.mp h
  obtain ⟨rfl, rfl⟩ := call_done.mp h₁
  obtain ⟨hs, rfl⟩ := ask_done.mp h₃
  have htook := took_mallocSyscall k 20
  have hrec := (quiet_storeBytes fuel _ _ 8 _ _ _ h₂).trans (quiet_storeString fuel _ _ _ _ _ h₄)
  exact ⟨htook.trans (hrec.took htook.lt), rfl, hs⟩

theorem placeArgs_done (hb : k.brk < 2 ^ 64)
    (h : placeArgs fuel ans u n a k = some (.done args k')) :
    Took (20 * n) k k' ∧ ∀ i y, args[i]? = some y →
      y.1 = (k.brk + 20 * i) % 2 ^ 64 ∧ u.row (a + i) = some y.2 := by
  induction n generalizing a k args with
  | zero =>
      obtain ⟨rfl, rfl⟩ := pure_done.mp h
      exact ⟨(SameRecords.refl k').took hb, fun i y hy ↦ by simp at hy⟩
  | succ n ih =>
      obtain ⟨arg, k₁, h₁, h⟩ := bind_done.mp h
      obtain ⟨rest, k₂, h₂, h⟩ := bind_done.mp h
      obtain ⟨rfl, rfl⟩ := pure_done.mp h
      obtain ⟨htook, hp, hs⟩ := placeArg_done h₁
      obtain ⟨htook', hall⟩ := ih htook.lt h₂
      refine ⟨?_, fun i y hy ↦ ?_⟩
      · rw [show 20 * (n + 1) = 20 + 20 * n by omega]
        exact htook.trans htook'
      · cases i with
        | zero =>
            obtain rfl : arg = y := by simpa using hy
            exact ⟨by rw [hp, Nat.mul_zero, Nat.add_zero, Nat.mod_eq_of_lt hb], hs⟩
        | succ i =>
            obtain ⟨hy₁, hy₂⟩ := hall i y (by simpa using hy)
            refine ⟨?_, by rwa [Nat.add_right_comm, Nat.add_assoc] at hy₂⟩
            rw [hy₁, htook.brk]
            omega

/-! ## The call -/

theorem stringAt_length (h : u.stringAt x n = some s) : s.length < n := by
  induction n generalizing x s with
  | zero => cases h
  | succ n ih =>
      rw [UserStack.stringAt] at h
      split at h
      · obtain rfl := Option.some.inj h
        exact Nat.succ_pos n
      · obtain ⟨s', hs', rfl⟩ := Option.map_eq_some_iff.mp h
        have := ih hs'
        rw [List.length_cons]
        omega

/-- The array `ans` and the strings lie where a heap went on that ended at `b`. -/
structure Placed (b ans : Nat) (args : List (Nat × CString)) : Prop where
  array : ans = b
  string : ∀ i y, args[i]? = some y →
    y.1 = (b + 800 + 20 * i) % 2 ^ 64 ∧ 50 * i + y.2.length < 500

theorem execProgram_done {y : Unit} (h : execProgram fuel p ehdr k = some (.done y k'))
    (hp : (k.procs.pcbs p).mm = m) :
    OtherMms m k k' ∧ ((k'.mms m).brk = heapStart ∨ k'.mms m = k.mms m) := by
  obtain ⟨found, k₁, h₁, h⟩ := bind_done.mp h
  have hrec := quiet_isElf fuel ehdr _ _ _ h₁
  split at h
  · have hp₁ : (k₁.procs.pcbs p).mm = m := by rw [hrec.procs, hp]
    obtain ⟨hother, hb⟩ := loadProgram_brk (attempt_done.mp h) hp₁
    exact ⟨hrec.otherMms.trans hother, .inl hb⟩
  · obtain ⟨-, rfl⟩ := pure_done.mp h
    exact ⟨hrec.otherMms, .inr (by rw [hrec.mms])⟩

/-- The program and the arguments of a process `p` that does not run: the heap of the one that does
makes room for the arguments. -/
theorem execLoad_done {stackindex : Nat} {y : Nat × List (Nat × CString)}
    (h : execLoad tarfs fuel p stackindex u k = some (.done y k')) (hp : (k.procs.pcbs p).mm = m)
    (hne : k.curMm ≠ m) :
    Placed k.brk y.1 y.2 ∧ (k'.procs.pcbs p).mm = m ∧
      ((k'.mms m).brk = heapStart ∨ k'.mms m = k.mms m) := by
  simp only [execLoad, bind_done, read_done, modify_done, ask_done, call_done, pure_done, and_assoc,
    exists_eq_left, exists_and_left, exists_const] at h
  obtain ⟨ehdr, -, _, k₁, h₁, args, k₂, h₂, _, k₃, h₃, _, k₄, h₄, rfl, rfl⟩ := h
  obtain ⟨hload, hmm⟩ := execProgram_done h₁ hp
  -- the caller's heap after the load is the one before it
  have hcur : k₁.curMm = k.curMm := hload.curMm
  have hbrk : k₁.brk = k.brk := by
    rw [Kernel.brk, hcur, hload.mms _ hne]
    rfl
  have htook := took_mallocSyscall k₁ 800
  obtain ⟨htook', hargs⟩ := placeArgs_done htook.lt h₂
  have hall := (htook.trans htook').other
  rw [hcur] at hall
  have hrec := (quiet_storeBytes fuel _ _ 8 _ _ _ h₃).trans (quiet_storeBytes fuel _ _ 8 _ _ _ h₄)
  refine ⟨⟨hbrk, fun i y hy ↦ ?_⟩, ?_, ?_⟩
  · obtain ⟨hy₁, hrow⟩ := hargs i y hy
    rw [Nat.zero_add, UserStack.row] at hrow
    have := stringAt_length hrow
    refine ⟨?_, by omega⟩
    rw [hy₁, htook.brk, hbrk]
    omega
  · rw [setRsp_owner, hrec.procs]
    exact (hall.owner p).trans ((hload.owner p).trans hp)
  · have hkeep : k₄.mms m = k₁.mms m := by
      rw [hrec.mms]
      exact hall.mms m hne.symm
    change (k₄.mms m).brk = heapStart ∨ k₄.mms m = k.mms m
    rw [hkeep]
    exact hmm

theorem execPcb_curMm (kernelstack cr3 : Nat) (s : CString) (h : k.procs.current ≠ p)
    (hm : k.curMm ≠ m) :
    (k.execPcb p kernelstack cr3 m s).curMm = k.curMm ∧
      (k.execPcb p kernelstack cr3 m s).brk = k.brk := by
  have hcur : (k.execPcb p kernelstack cr3 m s).curMm = k.curMm := by
    change (Function.update k.procs.pcbs p _ k.procs.current).mm = _
    rw [Function.update_of_ne h]
    rfl
  refine ⟨hcur, ?_⟩
  rw [Kernel.brk, hcur]
  change (Function.update k.mms m {} k.curMm).brk = _
  rw [Function.update_of_ne hm]
  rfl

theorem execPcb_new (k : Kernel) (p kernelstack cr3 m : Nat) (s : CString) :
    ((k.execPcb p kernelstack cr3 m s).procs.pcbs p).mm = m ∧
      (k.execPcb p kernelstack cr3 m s).mms m = {} := by
  constructor
  · change (Function.update k.procs.pcbs p _ p).mm = _
    rw [Function.update_self]
  · change Function.update k.mms m {} m = _
    rw [Function.update_self]

theorem execSwitch_field {α : Type} {g : Pcb → α} (hnext : ∀ c v, g { c with next := v } = g c)
    (hstart : ∀ c, g { c with
      curDir := cstr "/rootfs/bin", waitOnChildpid := noPid, processState := .running } = g c)
    (k : Kernel) (p q : Nat) : g ((k.execSwitch p).procs.pcbs q) = g (k.procs.pcbs q) := by
  unfold Kernel.execSwitch
  dsimp only
  generalize hs : k.procs.setNext (k.procs.nextOf k.procs.first) p = s
  have hlinked : ∀ v, g ((s.setNext p v).pcbs q) = g (k.procs.pcbs q) := by
    intro v
    rw [← hs]
    exact (modify_field (fun c ↦ hnext c v) q).trans (modify_field (fun c ↦ hnext c p) q)
  exact (modify_field hstart q).trans (hlinked _)

theorem execSwitch_owner (k : Kernel) (p q : Nat) :
    ((k.execSwitch p).procs.pcbs q).mm = (k.procs.pcbs q).mm :=
  execSwitch_field (fun _ _ ↦ rfl) (fun _ ↦ rfl) k p q

theorem quiet_execArgs (fuel argv : Nat) (u : UserStack) : Quiet (execArgs fuel argv u) := by
  unfold execArgs
  split
  · exact quiet_copyArgs fuel argv fuel 1 u
  · exact quiet_pure (1, u)

/-- Whatever the file is, a call that is over has entered a process in the first free page.  Its
arguments lie where the caller's heap went on; its own heap is as the loader has left it. -/
theorem execve_done {e : ExecEnd} (hr : Ready w k.toMachine free) (hlen : 3 ≤ free.length)
    (hcur : k.procs.current ∉ windowOf free) (hmm : k.curMm ∉ windowOf free)
    (h : execveSyscall tarfs fuel file argv k = some (.done e k')) :
    ∃ ans args, e = .entered ans args ∧ Placed k.brk ans args ∧
      k'.procs.current ∈ windowOf free ∧ k'.curMm ∈ windowOf free ∧
      (k'.brk = heapStart ∨ (k'.mms k'.curMm).mmap = 0) := by
  match free, hlen with
  | n₁ :: n₂ :: n₃ :: rest, _ =>
  obtain ⟨hp₁, hk₁⟩ := kmalloc_kept hr
  obtain ⟨-, hk₂⟩ := kmalloc_kept hk₁.ready
  obtain ⟨hp₃, -⟩ := kmalloc_kept hk₂.ready
  simp only [execveSyscall, bind_done, read_done, modify_done, ask_done, call_done, pure_done,
    and_assoc, exists_eq_left, exists_and_left, exists_const, onMachine_toMachine] at h
  obtain ⟨name, k₁, h₁, s, k₂, h₂, u, -, y, k₃, h₃, z, k₄, h₄, rfl, rfl⟩ := h
  generalize k.kmalloc.2.kmalloc.2.kmalloc.2.setUserSpace.1 = cr3 at h₂
  have hnp : k.kmalloc.1 ∈ windowOf (n₁ :: n₂ :: n₃ :: rest) := ⟨n₁, by simp, hp₁⟩
  have hmp : k.kmalloc.2.kmalloc.2.kmalloc.1 ∈ windowOf (n₁ :: n₂ :: n₃ :: rest) :=
    ⟨n₃, by simp, hp₃⟩
  generalize k.kmalloc.1 = p at *
  generalize k.kmalloc.2.kmalloc.2.kmalloc.1 = m at *
  have hload := quiet_loadString fuel file fuel _ _ _ h₁
  have hrec₁ : SameRecords k k₁ :=
    ⟨by simpa only [onMachine_procs] using hload.procs, by simpa only [onMachine_mms] using hload.mms⟩
  have hrec₂ := (quiet_loadString fuel file fuel _ _ _ h₂).trans (quiet_execArgs fuel argv u _ _ _ h₃)
  have hcur₁ : k₁.procs.current = k.procs.current := (hrec₁.otherMms (m := m)).current
  have hmm₁ : k₁.curMm = k.curMm := (hrec₁.otherMms (m := m)).curMm
  have hbrk₁ : k₁.brk = k.brk := hrec₁.brk
  have hnew := execPcb_new k₁ p k.kmalloc.2.kmalloc.1 cr3 m name
  have hcp : k₁.procs.current ≠ p := fun he ↦ hcur (by rw [← hcur₁, he]; exact hnp)
  have hcm : k₁.curMm ≠ m := fun he ↦ hmm (by rw [← hmm₁, he]; exact hmp)
  obtain ⟨hmm₂, hbrk₂⟩ := execPcb_curMm k.kmalloc.2.kmalloc.1 cr3 name hcp hcm
  -- the caller is as before when the program is loaded, and the new `mm_struct` is clear
  have hmm₃ : k₃.curMm = k.curMm := (hrec₂.otherMms (m := m)).curMm.trans (hmm₂.trans hmm₁)
  have hbrk₃ : k₃.brk = k.brk := hrec₂.brk.trans (hbrk₂.trans hbrk₁)
  have hown₃ : (k₃.procs.pcbs p).mm = m := by rw [hrec₂.procs, hnew.1]
  have hclear₃ : k₃.mms m = {} := by rw [hrec₂.mms, hnew.2]
  have hne : k₃.curMm ≠ m := fun he ↦ hmm (by rw [← hmm₃, he]; exact hmp)
  obtain ⟨hplaced, hown, hheap⟩ := execLoad_done h₄ hown₃ hne
  have hcur' : ((k₄.onMachine (k₄.loadCR3 k₃.cr3)).execSwitch p).curMm = m :=
    (execSwitch_owner _ p p).trans hown
  refine ⟨z.1, z.2, rfl, hbrk₃ ▸ hplaced, hnp, by rw [hcur']; exact hmp, ?_⟩
  rw [Kernel.brk, hcur']
  rcases hheap with hheap | hheap
  · exact .inl hheap
  · right
    change (k₄.mms m).mmap = 0
    rw [hheap, hclear₃]

end Sbunix
