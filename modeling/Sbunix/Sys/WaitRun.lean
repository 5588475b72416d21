import Sbunix.Sys.PidRun

/-!
# Returning from `waitpid`

`waitpidSyscall` records the pid it waits for and switches away; nothing reads the record, and the
next switch to the caller makes it return.  Until then the process that runs is off the ring, where
it cannot exit.
-/

namespace Sbunix

open Reasoning Procs

variable {kern init : Nat} {evs later earlier : List Event} {s : Procs} {w c : Nat}

/-- After the calls `earlier` the process `w` has waited for its child `c`; `later` came since. -/
structure Waits (evs : List Event) (s : Procs) (later earlier : List Event) (w c : Nat) : Prop where
  calls : ∃ pid > 0, evs = later ++ .waitpid w pid :: earlier ∧ (s.pcbs c).pid = pid
  child : .fork w c ∈ earlier

/-- A process that runs again after waiting for a child finds the child a zombie. -/
def WaitSafe (evs : List Event) (s : Procs) : Prop :=
  ∀ later earlier w c, Waits evs s later earlier w c → s.current = w → s.stateOf c = .zombie

/-- Every child that was waited for had exited before the call. -/
def WaitsDone (evs : List Event) (s : Procs) : Prop :=
  ∀ later earlier w c, Waits evs s later earlier w c → c ∈ exited earlier

/-- None of the states between the wait and now had `w` as the current process. -/
def FirstReturn (kern init : Nat) (later : List Event) (w pid : Nat) (earlier : List Event) : Prop :=
  ∀ mid, mid <:+ later → mid ≠ later →
    (loop kern init (mid ++ .waitpid w pid :: earlier)).cur ≠ w

theorem exited_append (evs' : List Event) : exited evs ⊆ exited (evs' ++ evs) := by
  induction evs' with
  | nil => exact List.Subset.refl _
  | cons e evs' ih =>
      cases e with
      | exit p => exact List.subset_cons_of_subset p ih
      | _ => exact ih

theorem born_of_fork {p : Nat} (h : .fork p c ∈ evs) : c ∈ born kern init evs := by
  induction evs with
  | nil => cases h
  | cons e evs ih =>
      rcases List.mem_cons.mp h with rfl | hm
      · exact List.mem_cons_self
      · cases e with
        | fork q d => exact List.mem_cons_of_mem d (ih hm)
        | _ => exact ih hm

/-! ## The way back to the process that waits -/

/-- `w` runs, or leads the loop in from behind the process that runs. -/
def Loop.Ahead (w : Nat) (l : Loop) : Prop :=
  l.cur = w ∨ l.tail ≠ [] ∧ w ∈ l.tail.tail ++ [l.entry]

theorem Loop.ahead_swap {l : Loop} (h : l.tail.length ≠ 1) : l.swap.Ahead l.cur := by
  match l, h with
  | ⟨[], e, []⟩, _ => exact Or.inl rfl
  | ⟨[], e, y :: r⟩, _ => exact Or.inr ⟨List.cons_ne_nil y [], List.mem_singleton_self e⟩
  | ⟨x :: y :: t, e, r⟩, _ =>
      exact Or.inr ⟨List.cons_ne_nil y _, List.mem_append_left _ List.mem_cons_self⟩

theorem Loop.Ahead.fork {l : Loop} (h : l.Ahead w) (c : Nat) : (l.fork c).Ahead w := by
  match l, h with
  | ⟨[], e, r⟩, Or.inl h => exact Or.inl h
  | ⟨x :: t, e, r⟩, Or.inl h => exact Or.inl h
  | ⟨x :: t, e, r⟩, Or.inr ⟨_, h⟩ => exact Or.inr ⟨List.cons_ne_nil x _, List.mem_cons_of_mem c h⟩

theorem Loop.Ahead.yield {l : Loop} (h : l.Ahead w) (hw : l.cur ≠ w) : l.yield.Ahead w := by
  match l, h.resolve_left hw with
  | ⟨[x], e, r⟩, ⟨_, h⟩ => exact Or.inl (List.mem_singleton.mp h).symm
  | ⟨x :: y :: t, e, r⟩, ⟨_, h⟩ =>
      rcases List.mem_cons.mp h with rfl | h
      · exact Or.inl rfl
      · exact Or.inr ⟨List.cons_ne_nil y t, h⟩

theorem Loop.Ahead.swap {l : Loop} (h : l.Ahead w) (hw : l.cur ≠ w) : l.swap.Ahead w := by
  match l, h.resolve_left hw with
  | ⟨[x], e, r⟩, ⟨_, h⟩ => exact Or.inl (List.mem_singleton.mp h).symm
  | ⟨x :: y :: t, e, r⟩, ⟨_, h⟩ =>
      rcases List.mem_cons.mp h with rfl | h
      · exact Or.inl rfl
      · exact Or.inr ⟨List.cons_ne_nil y _, List.mem_cons_of_mem x h⟩

/-- Nobody exits before the process that waits runs again. -/
theorem Run.no_exit {pid : Nat} (h : Run kern init (later ++ .waitpid w pid :: earlier) s)
    (hp : 0 < pid) (hr : FirstReturn kern init later w pid earlier)
    (ht : (loop kern init earlier).tail.length ≠ 1) :
    exited (later ++ .waitpid w pid :: earlier) = exited earlier ∧
      (loop kern init (later ++ .waitpid w pid :: earlier)).Ahead w := by
  induction later generalizing s with
  | nil =>
      obtain ⟨k, rfl⟩ : ∃ k, pid = k + 1 := ⟨pid - 1, by omega⟩
      refine ⟨rfl, ?_⟩
      rw [show w = (loop kern init earlier).cur from h.enabled.1]
      exact Loop.ahead_swap ht
  | cons e later ih =>
      obtain ⟨s₀, h₀⟩ := h.suffix (List.suffix_cons e _)
      obtain ⟨hx, ha⟩ := ih h₀ fun mid hm hne ↦ by
        refine hr mid (hm.trans (List.suffix_cons e later)) ?_
        rintro rfl
        exact absurd hm.length_le (by simp)
      have hw : (loop kern init (later ++ .waitpid w pid :: earlier)).cur ≠ w :=
        hr later (List.suffix_cons e later) (List.cons_ne_self e later).symm
      -- only a process on the ring exits, and the current one is on the tail until `w` runs
      have he := h.enabled
      cases e with
      | fork p d => exact ⟨hx, ha.fork d⟩
      | yield p => exact ⟨hx, ha.yield hw⟩
      | exit p => exact absurd he.2.2.2 (ha.resolve_left hw).1
      | waitpid p pid' =>
          cases pid' with
          | zero => exact ⟨hx, ha⟩
          | succ k => exact ⟨hx, ha.swap hw⟩

theorem Run.zombie_of_exited (h : Run kern init evs s) (hw : Waits evs s later earlier w c)
    (hc : s.current = w) (hx : c ∈ exited earlier) : s.stateOf c = .zombie := by
  obtain ⟨pid, -, rfl, -⟩ := hw.calls
  obtain ⟨s₀, h₀⟩ := h.suffix (List.suffix_append later _)
  have hwx : w ∉ exited earlier := h₀.enabled.2.1
  refine h.inv.zombie_state c (exited_append later ?_) ?_
  · exact hx
  · rw [hc]
    exact ne_of_mem_of_not_mem hx hwx

/-- A wait returns after the child's exit if the child had exited before the call.  A process that
calls from the ring, or from more than one step off it, has the child a zombie at its first return
only then. -/
theorem waitpidSyscall_return (h : Run kern init evs s) :
    (WaitsDone evs s → WaitSafe evs s) ∧
    ∀ later earlier w c, Waits evs s later earlier w c → s.current = w →
      FirstReturn kern init later w (s.pcbs c).pid earlier →
      (loop kern init earlier).tail.length ≠ 1 →
      (s.stateOf c = .zombie ↔ c ∈ exited earlier) := by
  refine ⟨fun hd later earlier w c hw hc ↦ h.zombie_of_exited hw hc (hd _ _ _ _ hw), ?_⟩
  intro later earlier w c hw hc hr ht
  refine ⟨fun hz ↦ ?_, h.zombie_of_exited hw hc⟩
  obtain ⟨pid, hp, rfl, rfl⟩ := hw.calls
  obtain ⟨hx, -⟩ := h.no_exit hp hr ht
  by_contra hn
  rw [← hx] at hn
  have hm := List.mem_append_right later (List.mem_cons_of_mem (.waitpid w (s.pcbs c).pid) hw.child)
  exact h.not_zombie c (born_of_fork hm) hn hz

theorem waitpidSyscall_return_exited : ∃ s : Procs,
    Run 1 2 [.yield 1, .waitpid 2 2, .yield 1, .exit 3, .yield 2, .fork 2 3] s ∧
    WaitSafe [.yield 1, .waitpid 2 2, .yield 1, .exit 3, .yield 2, .fork 2 3] s := by
  obtain ⟨s, hs⟩ := run_iff_valid.mpr (show Valid 1 2
    [.yield 1, .waitpid 2 2, .yield 1, .exit 3, .yield 2, .fork 2 3] by decide)
  refine ⟨s, hs, (waitpidSyscall_return hs).1 ?_⟩
  intro later earlier w c hw
  obtain ⟨⟨pid, -, he, -⟩, hchild⟩ := hw
  obtain ⟨-, ⟨rfl, rfl⟩, rfl⟩ : later = [.yield 1] ∧ (w = 2 ∧ pid = 2) ∧
      earlier = [.yield 1, .exit 3, .yield 2, .fork 2 3] := by
    simpa [List.cons_eq_append_iff] using he
  obtain rfl : c = 3 := by simpa using hchild
  decide

/-- `init` waits for its child, which yields: the wait returns while the child is `Running`. -/
theorem waitpidSyscall_return_early : ∃ s, Run 1 2 [.yield 3, .waitpid 2 2, .fork 2 3] s ∧
    (s.pcbs 3).pid = 2 ∧ s.current = 2 ∧ s.stateOf 3 ≠ .zombie ∧
    ¬ WaitSafe [.yield 3, .waitpid 2 2, .fork 2 3] s := by
  obtain ⟨s, hs⟩ := run_iff_valid.mpr
    (show Valid 1 2 [.yield 3, .waitpid 2 2, .fork 2 3] by decide)
  have hcur : s.current = 2 := hs.inv.links.cur_eq
  have hpid : (s.pcbs 3).pid = 2 := hs.pidInv.pid 3 (by decide)
  have hst : s.stateOf 3 ≠ .zombie := hs.not_zombie 3 (by decide) (by decide)
  have hw : Waits [.yield 3, .waitpid 2 2, .fork 2 3] s [.yield 3] [.fork 2 3] 2 3 :=
    ⟨⟨2, by decide, rfl, hpid⟩, List.mem_cons_self⟩
  exact ⟨s, hs, hpid, hcur, hst, fun hsafe ↦ hst (hsafe _ _ _ _ hw hcur)⟩

end Sbunix
