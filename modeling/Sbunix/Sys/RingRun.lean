import Sbunix.Sys.RingShape

/-!
# The ring in the runs without `waitpid`

The calls that a state allows are those that the abstract loop allows, so a list of calls is a run
exactly when the loop says so.  Without `waitpid` the loop has no tail, and its ring holds the
processes that have not exited.
-/

namespace Sbunix

open Reasoning Procs

variable {kern init : Nat} {evs : List Event} {s s' : Procs}

/-! ## Which calls are runs -/

/-- The call `e` is possible after the calls `evs`. -/
def Enabled (kern init : Nat) (evs : List Event) : Event → Prop
  | .fork p c => p = (loop kern init evs).cur ∧ p ∉ exited evs ∧ p ≠ kern ∧ c ≠ 0 ∧
      c ∉ born kern init evs
  | .yield p => p = (loop kern init evs).cur ∧ p ∉ exited evs
  | .exit p => p = (loop kern init evs).cur ∧ p ∉ exited evs ∧ p ≠ kern ∧
      (loop kern init evs).tail = []
  | .waitpid p _ => p = (loop kern init evs).cur ∧ p ∉ exited evs ∧ p ≠ kern

instance (e : Event) : Decidable (Enabled kern init evs e) :=
  match e with
  | .fork _ _ => inferInstanceAs (Decidable (_ ∧ _ ∧ _ ∧ _ ∧ _))
  | .yield _ => inferInstanceAs (Decidable (_ ∧ _))
  | .exit _ => inferInstanceAs (Decidable (_ ∧ _ ∧ _ ∧ _))
  | .waitpid _ _ => inferInstanceAs (Decidable (_ ∧ _ ∧ _))

def Valid (kern init : Nat) : List Event → Prop
  | [] => kern ≠ 0 ∧ init ≠ 0 ∧ kern ≠ init
  | e :: evs => Enabled kern init evs e ∧ Valid kern init evs

def decideValid (kern init : Nat) : (evs : List Event) → Decidable (Valid kern init evs)
  | [] => inferInstanceAs (Decidable (_ ∧ _ ∧ _))
  | _ :: evs => @instDecidableAnd _ _ _ (decideValid kern init evs)

instance : Decidable (Valid kern init evs) := decideValid kern init evs

theorem booted_exists (hk : kern ≠ 0) (hi : init ≠ 0) (hne : kern ≠ init) :
    ∃ s, Booted kern init s := by
  let s₀ : Procs :=
    { pcbs := fun _ ↦ default, first := 0, current := 0, last := 0, zombie := 0, pID := fun _ ↦ 0 }
  let a : InitArgs :=
    { init := init, cr3 := 0, mm := 0, kstack := 0, rip := 0, rsp := 0, filename := [] }
  obtain ⟨s₁, hs₁⟩ : ∃ s₁, (s₀.mapProcessID.kernProcess kern 0 0 0).userInitProcess a 1 =
      some s₁ := by
    unfold userInitProcess
    simp only [findPred]
    rw [if_pos, Option.map_some]
    · exact ⟨_, rfl⟩
    · rw [nextOf_modify, Function.update_of_ne]
      · simp [nextOf, kernProcess, Procs.modify]
      · simpa [kernProcess] using hne
  exact ⟨s₁.switchToRing3 init, hk, hi, hne, s₀, s₁, 0, 0, 0, 1, a, rfl, rfl, rfl, hs₁, rfl⟩

theorem Run.enabled {e : Event} (h : Run kern init (e :: evs) s) : Enabled kern init evs e := by
  cases h with
  | step h ha hf hs =>
      have hi := h.inv
      cases hs with
      | fork a hu => exact ⟨hi.links.cur_eq, ha, hu, hf _ _ rfl⟩
      | yield sp => exact ⟨hi.links.cur_eq, ha⟩
      | schedule sp hk => exact ⟨hi.links.cur_eq, ha⟩
      | exit fuel sp hu he =>
          exact ⟨hi.links.cur_eq, ha, hu, (hi.links.exit_iff sp).mp ⟨fuel, _, he⟩⟩
      | waitpid pid sp hu => exact ⟨hi.links.cur_eq, ha, hu⟩

/-- A call that is possible can be made. -/
theorem Run.step_exists {e : Event} (h : Run kern init evs s) (he : Enabled kern init evs e) :
    ∃ s', Step kern s e s' ∧ s.current ∉ exited evs := by
  have hcur := h.inv.links.cur_eq
  cases e with
  | fork p c =>
      obtain ⟨rfl, hx, hk, -, -⟩ := he
      rw [← hcur] at hx hk ⊢
      exact ⟨s.forkSyscall ⟨c, 0, 0, 0, 0, 0⟩, .fork ⟨c, 0, 0, 0, 0, 0⟩ hk, hx⟩
  | yield p =>
      obtain ⟨rfl, hx⟩ := he
      rw [← hcur] at hx ⊢
      exact ⟨_, .yield ⟨0, 0⟩, hx⟩
  | exit p =>
      obtain ⟨rfl, hx, hk, ht⟩ := he
      rw [← hcur] at hx hk ⊢
      obtain ⟨fuel, s', hs⟩ := (h.inv.links.exit_iff ⟨0, 0⟩).mpr ht
      exact ⟨s', .exit fuel _ hk hs, hx⟩
  | waitpid p pid =>
      obtain ⟨rfl, hx, hk⟩ := he
      rw [← hcur] at hx hk ⊢
      exact ⟨_, .waitpid pid ⟨0, 0⟩ hk, hx⟩

theorem Run.extend {e : Event} (h : Run kern init evs s) (he : Enabled kern init evs e) :
    ∃ s', Run kern init (e :: evs) s' := by
  obtain ⟨s', hs, ha⟩ := h.step_exists he
  refine ⟨s', h.step ha ?_ hs⟩
  rintro p c rfl
  exact ⟨he.2.2.2.1, he.2.2.2.2⟩

/-- The calls that the PCBs allow are those that the loop allows. -/
theorem run_iff_valid : (∃ s, Run kern init evs s) ↔ Valid kern init evs := by
  induction evs with
  | nil =>
      constructor
      · rintro ⟨s, ⟨hb⟩⟩
        exact ⟨hb.kern_ne, hb.init_ne, hb.ne⟩
      · rintro ⟨hk, hi, hne⟩
        obtain ⟨s, hb⟩ := booted_exists hk hi hne
        exact ⟨s, .boot hb⟩
  | cons e evs ih =>
      constructor
      · rintro ⟨s, hs⟩
        refine ⟨hs.enabled, ih.mp ?_⟩
        cases hs with
        | step h => exact ⟨_, h⟩
      · rintro ⟨he, hv⟩
        obtain ⟨s, hs⟩ := ih.mpr hv
        exact hs.extend he

theorem Run.suffix (h : Run kern init evs s) {evs' : List Event} (hs : evs' <:+ evs) :
    ∃ s', Run kern init evs' s' := by
  induction h with
  | @boot s hb =>
      rw [List.suffix_nil.mp hs]
      exact ⟨s, .boot hb⟩
  | step h ha hf hstep ih =>
      rcases List.suffix_cons_iff.mp hs with rfl | hs
      · exact ⟨_, .step h ha hf hstep⟩
      · exact ih hs

/-! ## Who is alive -/

theorem kern_born (kern init : Nat) (evs : List Event) : kern ∈ born kern init evs := by
  induction evs with
  | nil => simp [born]
  | cons e evs ih =>
      cases e with
      | fork p c => exact List.mem_cons_of_mem c ih
      | _ => exact ih

theorem Run.born_nodup (h : Run kern init evs s) : (born kern init evs).Nodup := by
  induction h with
  | boot hb => simpa [born] using hb.ne.symm
  | @step evs s e s' _ _ hf _ ih =>
      cases e with
      | fork p c => exact List.nodup_cons.mpr ⟨(hf p c rfl).2, ih⟩
      | _ => exact ih

theorem Run.kern_not_exited (h : Run kern init evs s) : kern ∉ exited evs := by
  induction h with
  | boot hb => simp [exited]
  | @step evs s e s' h ha hf hs ih =>
      cases hs with
      | exit fuel sp hu he => exact fun hm ↦ (List.mem_cons.mp hm).elim (fun hk ↦ hu hk.symm) ih
      | _ => exact ih

/-- A process is a zombie from its exit on, and not before. -/
theorem Run.not_zombie (h : Run kern init evs s) :
    ∀ a ∈ born kern init evs, a ∉ exited evs → s.stateOf a ≠ .zombie := by
  induction h with
  | @boot s hb =>
      intro a ha _
      simp only [born, List.mem_cons, List.not_mem_nil, or_false] at ha
      rcases ha with rfl | rfl
      · rw [hb.state.state_init]
        decide
      · rw [hb.state.state_kern]
        decide
  | @step evs s e s' h ha hf hs ih =>
      have hi := h.inv
      -- to set the state to running makes no zombie
      have hrun : ∀ {f : Nat → ProcessState} {b x : Nat}, f x ≠ .zombie →
          Function.update f b .running x ≠ .zombie := by
        intro f b x hx
        by_cases hb : x = b
        · rw [hb, Function.update_self]
          decide
        · rwa [Function.update_of_ne hb]
      cases hs with
      | fork a _ =>
          obtain ⟨hc, hb⟩ := hf _ _ rfl
          -- only the child and the parent's counter are written
          have hcc : a.child ≠ s.current := fun he ↦ hb (he ▸ hi.mem_born _ hi.current_mem)
          intro x hx hxe
          by_cases hxa : x = a.child
          · rw [hxa, stateOf, (forkSyscall_child hcc).2.2]
            decide
          · have hxb := (List.mem_cons.mp hx).resolve_left hxa
            by_cases hxc : x = s.current
            · rw [hxc, stateOf, (forkSyscall_pid_parent hcc).2]
              exact ih _ (hi.mem_born _ hi.current_mem) ha
            · rw [stateOf, forkSyscall_pcbs_other hxa hxc]
              exact ih x hxb hxe
      | yield sp =>
          rw [yieldSyscall_stateOf sp hi.next_ne]
          exact fun x hx hxe ↦ hrun (ih x hx hxe)
      | schedule sp _ =>
          rw [schedule_eq_yield sp hi.last hi.current_ne hi.next_ne,
            yieldSyscall_stateOf sp hi.next_ne]
          exact fun x hx hxe ↦ hrun (ih x hx hxe)
      | exit fuel sp _ he =>
          obtain ⟨temp, -, -, rfl⟩ := hi.links.exit_found he
          have hcb := hi.mem_born _ hi.current_mem
          have hne := hi.born_ne _ (@exitNext_mem s _ temp hi.next_born hcb _ hcb)
          rw [(exitLinked_yield sp hne).2.2.2.2]
          intro x hx hxe
          -- the caller is the only new zombie, and has exited
          have hxc : x ≠ s.current := fun he ↦ hxe (by rw [he]; exact List.mem_cons_self)
          refine hrun ?_
          rw [Function.update_of_ne hxc]
          exact ih x hx fun hm ↦ hxe (List.mem_cons_of_mem _ hm)
      | waitpid pid sp _ =>
          cases pid with
          | zero => exact ih
          | succ pid =>
              rw [waitpidSyscall_stateOf sp (Nat.succ_pos pid)]
              exact fun x hx hxe ↦ hrun (ih x hx hxe)

/-! ## The ring without `waitpid` -/

/-- `waitpid` is only called with a pid for which it does nothing. -/
def NoWait (evs : List Event) : Prop := ∀ p pid, .waitpid p pid ∈ evs → pid = 0

theorem NoWait.tail {e : Event} (h : NoWait (e :: evs)) : NoWait evs := fun p pid hm ↦
  h p pid (List.mem_cons_of_mem e hm)

theorem Loop.mem_yield_ring {e : Nat} {r : List Nat} {x : Nat} :
    x ∈ (Loop.yield ⟨[], e, r⟩).nodes ↔ x ∈ e :: r := by
  cases r with
  | nil => exact Iff.rfl
  | cons y r =>
      simp only [yield, nodes, List.nil_append, List.mem_cons, List.mem_append, List.not_mem_nil,
        or_false]
      tauto

/-- The ring holds the live processes, and the kernel process keeps every other one company. -/
structure LiveRing (kern init : Nat) (evs : List Event) : Prop where
  tail : (loop kern init evs).tail = []
  mem_iff : ∀ a, a ∈ (loop kern init evs).nodes ↔ a ∈ born kern init evs ∧ a ∉ exited evs

theorem LiveRing.ring_ne (h : LiveRing kern init evs) (hs : Run kern init evs s)
    (hc : s.current ≠ kern) : ∃ e y r, loop kern init evs = ⟨[], e, y :: r⟩ := by
  have hk := (h.mem_iff kern).mpr ⟨kern_born kern init evs, hs.kern_not_exited⟩
  have hcur := hs.inv.links.cur_eq
  have ht := h.tail
  generalize loop kern init evs = l at hk hcur ht
  match l, ht with
  | ⟨[], e, []⟩, _ =>
      rw [List.mem_singleton.mp hk] at hc
      exact absurd hcur hc
  | ⟨[], e, y :: r⟩, _ => exact ⟨e, y, r, rfl⟩

theorem Run.liveRing (h : Run kern init evs s) (hw : NoWait evs) : LiveRing kern init evs := by
  induction h with
  | boot hb => exact ⟨rfl, fun a ↦ by simp [loop, Loop.nodes, born, exited]⟩
  | @step evs s e s' h ha hf hs ih =>
      have hl := ih hw.tail
      have hinv := h.inv
      obtain ⟨x, r, hlr⟩ : ∃ x r, loop kern init evs = ⟨[], x, r⟩ := ⟨_, _, by rw [← hl.tail]⟩
      have hmem := hl.mem_iff
      -- a switch to the next process turns the ring and keeps its members
      have hyield : LiveRing kern init (.yield s.current :: evs) := by
        rw [hlr] at hmem
        have hy : loop kern init (.yield s.current :: evs) = Loop.yield ⟨[], x, r⟩ := by
          rw [← hlr]
          rfl
        refine ⟨?_, fun a ↦ ?_⟩
        · rw [hy]
          cases r <;> rfl
        · rw [hy, Loop.mem_yield_ring]
          exact hmem a
      cases hs with
      | fork a hu =>
          have hcx : a.child ∉ exited evs := fun hx ↦ (hf _ _ rfl).2 (hinv.exited_born _ hx)
          have hfk : loop kern init (.fork s.current a.child :: evs) =
              (loop kern init evs).fork a.child := rfl
          refine ⟨by rw [hfk, hlr]; rfl, fun b ↦ ?_⟩
          rw [hfk, Loop.mem_fork, hmem b]
          constructor
          · rintro (rfl | ⟨hb, hx⟩)
            · exact ⟨List.mem_cons_self, hcx⟩
            · exact ⟨List.mem_cons_of_mem _ hb, hx⟩
          · rintro ⟨hb, hx⟩
            exact (List.mem_cons.mp hb).imp id fun hb ↦ ⟨hb, hx⟩
      | yield sp => exact hyield
      | schedule sp hk => exact hyield
      | waitpid pid sp hu =>
          -- with pid 0 the call does nothing
          obtain rfl : pid = 0 := hw _ _ List.mem_cons_self
          exact ⟨hl.tail, hmem⟩
      | exit fuel sp hu he =>
          obtain ⟨x, y, r, hlr⟩ := hl.ring_ne h hu
          have hlinks := hinv.links
          rw [hlr] at hmem hlinks
          have hcur : s.current = x := hlinks.head_ring
          have hex : loop kern init (.exit s.current :: evs) = ⟨[], y, r⟩ := by
            change (loop kern init evs).exit = _
            rw [hlr]
            rfl
          refine ⟨by rw [hex], fun b ↦ ?_⟩
          rw [hex]
          have hxy : x ∉ y :: r := (List.nodup_cons.mp hlinks.nodup).1
          constructor
          · intro hb
            obtain ⟨hbb, hbx⟩ := (hmem b).mp (List.mem_cons_of_mem x hb)
            refine ⟨hbb, fun hm ↦ ?_⟩
            rcases List.mem_cons.mp hm with rfl | hm
            · exact hxy (hcur ▸ hb)
            · exact hbx hm
          · rintro ⟨hbb, hbx⟩
            have hm := (hmem b).mpr ⟨hbb, fun hm ↦ hbx (List.mem_cons_of_mem _ hm)⟩
            refine (List.mem_cons.mp hm).resolve_left fun he ↦ hbx ?_
            rw [he, hcur]
            exact List.mem_cons_self

/-- The `next` pointers from `current` form one cycle of the processes that have not exited, the search
of `exitSyscall` ends, and a zombie stays one and does not run. -/
def RingLaw (kern init : Nat) (evs : List Event) (s : Procs) : Prop :=
  (∃ r, Ring s.nextOf s.current r ∧
    ∀ a, a ∈ s.current :: r ↔ a ∈ born kern init evs ∧ a ∉ exited evs) ∧
  (∀ sp, ∃ fuel s', s.exitSyscall fuel sp = some s') ∧
  s.current ∉ exited evs ∧
  ∀ a ∈ born kern init evs, s.stateOf a = .zombie ↔ a ∈ exited evs

/-- Without `waitpid` the ring is what it should be. -/
theorem Run.ringLaw (h : Run kern init evs s) (hw : NoWait evs) : RingLaw kern init evs s := by
  have hl := h.liveRing hw
  have hinv := h.inv
  obtain ⟨e, r, hlr⟩ : ∃ e r, loop kern init evs = ⟨[], e, r⟩ := ⟨_, _, by rw [← hl.tail]⟩
  have hlinks := hinv.links
  have hmem := hl.mem_iff
  rw [hlr] at hlinks hmem
  have hcur := hlinks.head_ring
  have hcx : s.current ∉ exited evs := by
    rw [hcur]
    exact ((hmem e).mp List.mem_cons_self).2
  refine ⟨⟨r, ?_, ?_⟩, fun sp ↦ (hinv.links.exit_iff sp).mpr hl.tail, hcx, fun a ha ↦ ⟨?_, ?_⟩⟩
  · rw [hcur]
    exact Ring.self hlinks
  · rw [hcur]
    exact hmem
  · intro hz
    by_contra hx
    exact h.not_zombie a ha hx hz
  · exact fun hx ↦ hinv.zombie_state a hx (ne_of_mem_of_not_mem hx hcx)

end Sbunix
