import Sbunix.Sys.PidRun

/-!
# Exits in all runs

With `waitpid` in play an exiting process may be off the ring, and then `exitSyscall` does not end.
The zombie list shares the `next` pointers of the ring and runs back into it.
-/

namespace Sbunix

open Reasoning Procs

variable {kern init : Nat} {evs : List Event} {s s' : Procs}

/-! ## The search for the predecessor -/

/-- On the ring a `waitpid` that does something puts the next process off it. -/
theorem LiveRing.waitpid_tail (h : LiveRing kern init evs) (hs : Run kern init evs s)
    (hc : s.current ≠ kern) (pid : Nat) :
    (loop kern init (.waitpid s.current (pid + 1) :: evs)).tail ≠ [] := by
  obtain ⟨e, y, r, hl⟩ := h.ring_ne hs hc
  change (loop kern init evs).swap.tail ≠ []
  rw [hl]
  exact List.cons_ne_nil y []

theorem Run.noWait_of_exit (h : Run kern init evs s)
    (hx : ∀ evs' s', evs' <:+ evs → Run kern init evs' s' →
      ∀ sp, ∃ fuel s'', s'.exitSyscall fuel sp = some s'') : NoWait evs := by
  induction h with
  | boot hb => exact fun p pid hm ↦ by cases hm
  | @step evs s e s' h ha hf hs ih =>
      have hw : NoWait evs := ih fun evs' s' hsuf ↦ hx evs' s' (hsuf.trans (List.suffix_cons e evs))
      have hs' := h.step ha hf hs
      have htail : (loop kern init (e :: evs)).tail = [] :=
        (hs'.inv.links.exit_iff ⟨0, 0⟩).mp (hx _ _ List.suffix_rfl hs' ⟨0, 0⟩)
      intro p pid hm
      rcases List.mem_cons.mp hm with rfl | hm
      · cases hs with
        | waitpid pid sp hu =>
            cases pid with
            | zero => rfl
            | succ pid => exact absurd htail ((h.liveRing hw).waitpid_tail h hu pid)
      · exact hw p pid hm

/-- The search ends exactly for a process on the ring. -/
theorem Run.exit_ends (h : Run kern init evs s) :
    (∀ sp, ∃ fuel s', s.exitSyscall fuel sp = some s') ↔ (loop kern init evs).tail = [] :=
  ⟨fun hx ↦ (h.inv.links.exit_iff ⟨0, 0⟩).mp (hx _), fun ht sp ↦ (h.inv.links.exit_iff sp).mpr ht⟩

/-- `init` forks and waits for its child, whose exit then never ends. -/
theorem exitSyscall_after_waitpid : ∃ s, Run 1 2 [.waitpid 2 2, .fork 2 3] s ∧ s.current = 3 ∧
    (s.pcbs 3).pid = 2 ∧ ∀ fuel sp, s.exitSyscall fuel sp = none := by
  obtain ⟨s, hs⟩ := run_iff_valid.mpr (show Valid 1 2 [.waitpid 2 2, .fork 2 3] by decide)
  have hlinks := hs.inv.links
  have hl : loop 1 2 [.waitpid 2 2, .fork 2 3] = ⟨[3], 2, [1]⟩ := rfl
  rw [hl] at hlinks
  refine ⟨s, hs, hlinks.head_tail, ?_, hlinks.exit_none⟩
  rw [hs.pidInv.pid 3 (by decide)]
  rfl

/-! ## The zombie list -/

/-- The list at `zombie` holds the processes that have exited, each once, and ends at NULL. -/
def ZombieList (evs : List Event) (s : Procs) : Prop :=
  ∃ l, Chain s.nextOf s.zombie l 0 ∧ l.Nodup ∧ ∀ a, a ∈ l ↔ a ∈ exited evs

theorem RunInv.zombie_open (h : RunInv kern init evs s) (hx : exited evs ≠ []) (l : List Nat) :
    ¬ Chain s.nextOf s.zombie l 0 := by
  intro hc
  have hz : s.zombie ∈ exited evs := h.zombie.resolve_left fun hn ↦ hx hn.2
  have h0 := hc.closed {a | a ∈ born kern init evs} h.next_born (h.exited_born _ hz)
  exact h.born_ne 0 h0 rfl

/-- From `zombie` the pointers lead over the first and the last process that exited, and on into
the process that runs. -/
theorem Run.zombie_walk {p : Nat} (h : Run kern init (.exit p :: evs) s) :
    Chain s.nextOf s.zombie [p] s.current ∨ Chain s.nextOf s.zombie [s.zombie, p] s.current := by
  cases h with
  | @step _ s₀ _ _ h ha hf hs =>
      have hi := h.inv
      cases hs with
      | exit fuel sp hu he =>
          obtain ⟨temp, -, -, rfl⟩ := hi.links.exit_found he
          have hcb := hi.mem_born _ hi.current_mem
          have hne := hi.born_ne _ (@exitNext_mem s₀ _ temp hi.next_born hcb _ hcb)
          obtain ⟨hn, hcur, hzom, -, -⟩ := exitLinked_yield sp hne
          rw [hn, hcur, hzom]
          by_cases hz : s₀.zombie = 0
          · left
            rw [if_pos hz]
            exact ⟨rfl, rfl⟩
          · right
            rw [if_neg hz]
            refine ⟨rfl, ?_, rfl⟩
            rw [exitNext, if_neg hz, Function.update_self]

/-- After no exit is the zombie list what it is meant to be: it runs into the process that is
current and never reaches NULL. -/
theorem zombieList_never {p : Nat} (h : Run kern init (.exit p :: evs) s) :
    ¬ ZombieList (.exit p :: evs) s ∧
      ∃ l, l.length ≤ 2 ∧ Chain s.nextOf s.zombie l s.current := by
  refine ⟨fun ⟨l, hc, _⟩ ↦ h.inv.zombie_open (List.cons_ne_nil _ _) l hc, ?_⟩
  rcases h.zombie_walk with hw | hw
  · exact ⟨_, by simp, hw⟩
  · exact ⟨_, by simp, hw⟩

theorem zombieList_never_first : ∃ s : Procs, ¬ ZombieList [.exit 2, .fork 2 3] s ∧
    ∃ l, l.length ≤ 2 ∧ Chain s.nextOf s.zombie l s.current := by
  obtain ⟨s, hs⟩ := run_iff_valid.mpr (show Valid 1 2 [.exit 2, .fork 2 3] by decide)
  exact ⟨s, zombieList_never hs⟩

/-- The first process that exits is followed on the list by its live child. -/
theorem zombieList_live : ∃ s, Run 1 2 [.exit 2, .fork 2 3] s ∧ s.zombie = 2 ∧
    s.nextOf 2 = 3 ∧ s.current = 3 ∧ ¬ ZombieList [.exit 2, .fork 2 3] s := by
  obtain ⟨s, hs⟩ := run_iff_valid.mpr (show Valid 1 2 [.exit 2, .fork 2 3] by decide)
  have hinv := hs.inv
  have hcur : s.current = 3 := hinv.links.cur_eq
  have hz : s.zombie = 2 :=
    List.mem_singleton.mp (hinv.zombie.resolve_left fun hn ↦ by simp [exited] at hn)
  have hnext : s.nextOf 2 = 3 := by
    rw [← hcur]
    rcases hs.zombie_walk with hw | hw
    · exact hw.2
    · exact hw.2.2
  refine ⟨s, hs, hz, hnext, hcur, ?_⟩
  rintro ⟨l, hc, -⟩
  exact hinv.zombie_open (by simp [exited]) l hc

end Sbunix
