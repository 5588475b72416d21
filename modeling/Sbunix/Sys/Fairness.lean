import Sbunix.Sys.ExitRun
import Sbunix.Sys.WaitRun
import Mathlib.Data.List.Perm.Subperm

/-!
# Who gets the processor

Without `waitpid` the ring is a queue: a switch takes the process at its front away, and a fork puts the
child right behind the front.  A process that yields from the tail of the loop is on no ring any more.
-/

namespace Sbunix

open Reasoning Procs

/-- The calls that give the processor away. -/
def Event.switches : Event → Bool
  | .yield _ | .exit _ => true
  | .fork _ _ | .waitpid _ _ => false

def Event.forks : Event → Bool
  | .fork _ _ => true
  | .yield _ | .exit _ | .waitpid _ _ => false

variable {kern init : Nat} {evs evs' : List Event} {s : Procs} {a b c e p q : Nat} {r : List Nat}

/-! ## The queue -/

namespace Loop

/-- How many processes come before `a`. -/
def before (l : Loop) (a : Nat) : Nat := l.nodes.idxOf a

theorem before_front (h : a ≠ e) : (⟨[], e, r⟩ : Loop).before a = r.idxOf a + 1 := by
  have hbeq : (e == a) = false := beq_false_of_ne (Ne.symm h)
  rw [before, nodes, List.nil_append, List.idxOf_cons, hbeq, cond_false]

theorem before_fork (h : a ≠ e) :
    ((⟨[], e, r⟩ : Loop).fork c).before a ≤ (⟨[], e, r⟩ : Loop).before a + 1 := by
  rw [fork, before_front h, before_front h, List.idxOf_cons]
  cases c == a with
  | true => exact Nat.succ_le_succ (Nat.zero_le _)
  | false => exact Nat.le_refl _

/-- The front goes to the end of the queue. -/
theorem before_yield (h : a ≠ e) (hm : a ∈ r) :
    ((⟨[], e, r⟩ : Loop).yield).before a + 1 = (⟨[], e, r⟩ : Loop).before a := by
  cases r with
  | nil => cases hm
  | cons y r =>
      rw [before_front h, yield, before, nodes, List.nil_append, ← List.cons_append,
        List.idxOf_append, if_pos hm]

theorem before_exit (h : a ≠ e) (hm : a ∈ r) :
    ((⟨[], e, r⟩ : Loop).exit).before a + 1 = (⟨[], e, r⟩ : Loop).before a := by
  cases r with
  | nil => cases hm
  | cons y r => rw [before_front h]; rfl

end Loop

/-- What each call does to the place in the queue of a process that is not at its front. -/
theorem LiveRing.before_step {ev : Event} (h : LiveRing kern init evs)
    (hm : a ∈ (loop kern init evs).nodes) (hc : (loop kern init evs).cur ≠ a)
    (hw : NoWait (ev :: evs)) :
    (loop kern init (ev :: evs)).before a + (if ev.switches then 1 else 0) ≤
      (loop kern init evs).before a + if ev.forks then 1 else 0 := by
  obtain ⟨x, r, hl⟩ : ∃ x r, loop kern init evs = ⟨[], x, r⟩ := ⟨_, _, by rw [← h.tail]⟩
  have hstep : loop kern init (ev :: evs) = Loop.step ev (loop kern init evs) := rfl
  rw [hstep]
  rw [hl] at hm hc ⊢
  have hax : a ≠ x := fun he ↦ hc he.symm
  have hmr : a ∈ r := (List.mem_cons.mp hm).resolve_left hax
  cases ev with
  | fork p c => exact Loop.before_fork hax
  | yield p => exact Nat.le_of_eq (Loop.before_yield hax hmr)
  | exit p => exact Nat.le_of_eq (Loop.before_exit hax hmr)
  | waitpid p pid =>
      obtain rfl : pid = 0 := hw p pid List.mem_cons_self
      exact Nat.le_refl _

theorem born_append (h : a ∈ born kern init evs) : a ∈ born kern init (evs' ++ evs) := by
  induction evs' with
  | nil => exact h
  | cons ev evs' ih =>
      cases ev with
      | fork p c => exact List.mem_cons_of_mem c ih
      | _ => exact ih

theorem Run.append (evs' evs : List Event) (h : Run kern init (evs' ++ evs) s) :
    ∃ t, Run kern init evs t :=
  h.suffix (List.suffix_append evs' evs)

/-- Until its turn comes, a live process moves on in the queue with every switch. -/
theorem Run.before_le (h : Run kern init (evs' ++ evs) s) (hw : NoWait (evs' ++ evs))
    (ha : a ∈ born kern init evs) (hx : a ∉ exited (evs' ++ evs)) :
    (∃ pre, pre <:+ evs' ∧ (loop kern init (pre ++ evs)).cur = a) ∨
      (loop kern init (evs' ++ evs)).before a + evs'.countP Event.switches ≤
        (loop kern init evs).before a + evs'.countP Event.forks := by
  induction evs' generalizing s with
  | nil => exact .inr (Nat.le_refl _)
  | cons ev evs' ih =>
      obtain ⟨t, ht⟩ := h.append [ev] (evs' ++ evs)
      have hxt : a ∉ exited (evs' ++ evs) := fun hm ↦ hx (exited_append [ev] hm)
      have hl := ht.liveRing hw.tail
      by_cases hcur : (loop kern init (evs' ++ evs)).cur = a
      · exact .inl ⟨evs', List.suffix_cons ev evs', hcur⟩
      · refine (ih ht hw.tail hxt).imp (fun ⟨pre, hpre, hc⟩ ↦
          ⟨pre, hpre.trans (List.suffix_cons ev evs'), hc⟩) fun hle ↦ ?_
        have hm := (hl.mem_iff a).mpr ⟨born_append ha, hxt⟩
        have hstep := hl.before_step hm hcur hw
        rw [List.countP_cons, List.countP_cons, List.cons_append]
        omega

/-- The others before a process on the ring are alive. -/
theorem LiveRing.before_lt (h : LiveRing kern init evs) (hs : Run kern init evs s)
    (hm : a ∈ (loop kern init evs).nodes) :
    (loop kern init evs).before a < (alive kern init evs).length := by
  have hsub : (loop kern init evs).nodes ⊆ alive kern init evs := by
    intro x hx
    obtain ⟨hb, he⟩ := (h.mem_iff x).mp hx
    exact List.mem_filter.mpr ⟨hb, decide_eq_true he⟩
  have hlen := (List.subperm_of_subset hs.inv.links.nodup hsub).length_le
  exact Nat.lt_of_lt_of_le (List.idxOf_lt_length_of_mem hm) hlen

/-- In every run without `waitpid` a live process has the processor within as many switches as there
are other live processes, and one more for each fork in the meantime. -/
theorem Run.scheduled_within (h : Run kern init (evs' ++ evs) s) (hw : NoWait (evs' ++ evs))
    (ha : a ∈ alive kern init evs) (hx : a ∉ exited (evs' ++ evs))
    (hn : (alive kern init evs).length + evs'.countP Event.forks ≤
      evs'.countP Event.switches + 1) :
    ∃ pre, pre <:+ evs' ∧ (∃ t, Run kern init (pre ++ evs) t) ∧
      ∀ t, Run kern init (pre ++ evs) t → t.current = a := by
  obtain ⟨hb, hxa⟩ := List.mem_filter.mp ha
  obtain ⟨t, ht⟩ := h.append _ _
  have hl := ht.liveRing fun p pid hm ↦ hw p pid (List.mem_append_right evs' hm)
  have hlt := hl.before_lt ht ((hl.mem_iff a).mpr ⟨hb, of_decide_eq_true hxa⟩)
  -- the state in which it is at the front
  obtain ⟨pre, hpre, hcur⟩ : ∃ pre, pre <:+ evs' ∧ (loop kern init (pre ++ evs)).cur = a := by
    rcases h.before_le hw hb hx with hc | hle
    · exact hc
    · have hl' := h.liveRing hw
      have hzero : (loop kern init (evs' ++ evs)).before a = 0 := by omega
      refine ⟨evs', List.suffix_refl evs', ?_⟩
      obtain ⟨x, r, hloop⟩ : ∃ x r, loop kern init (evs' ++ evs) = ⟨[], x, r⟩ :=
        ⟨_, _, by rw [← hl'.tail]⟩
      rw [hloop] at hzero ⊢
      by_contra hne
      have hax : a ≠ x := fun he ↦ hne he.symm
      rw [Loop.before_front hax] at hzero
      cases hzero
  obtain ⟨l, rfl⟩ := hpre
  rw [List.append_assoc] at h
  exact ⟨pre, List.suffix_append l pre, h.append l _, fun t ht ↦ ht.inv.links.cur_eq.trans hcur⟩

/-! ## Starvation -/

/-- A process that is not on the loop does not come back to it. -/
theorem Run.off_loop (h : Run kern init (evs' ++ evs) s) (ha : a ∈ born kern init evs)
    (hoff : a ∉ (loop kern init evs).nodes) : a ∉ (loop kern init (evs' ++ evs)).nodes := by
  induction evs' generalizing s with
  | nil => exact hoff
  | cons ev evs' ih =>
      obtain ⟨t, ht⟩ := h.append [ev] (evs' ++ evs)
      have hrest := ih ht
      have hstep : loop kern init (ev :: evs' ++ evs) =
        Loop.step ev (loop kern init (evs' ++ evs)) := rfl
      rw [hstep]
      cases ev with
      | fork p c =>
          -- the child is a process that was not there before
          have hc : c ∉ born kern init (evs' ++ evs) := h.enabled.2.2.2.2
          exact fun hm ↦ (Loop.mem_fork.mp hm).elim (fun he ↦ hc (he ▸ born_append ha)) hrest
      | yield p => exact fun hm ↦ hrest (Loop.mem_of_mem_yield hm)
      | exit p => exact fun hm ↦ hrest (Loop.mem_of_mem_exit hm)
      | waitpid p pid =>
          cases pid with
          | zero => exact hrest
          | succ pid => exact fun hm ↦ hrest (Loop.mem_swap.mp hm)

/-- Who yields from the tail is off the loop. -/
theorem Run.yield_tail (h : Run kern init (.yield p :: evs) s)
    (ht : (loop kern init evs).tail ≠ []) : p ∉ (loop kern init (.yield p :: evs)).nodes := by
  obtain ⟨t, hrun⟩ := h.append [.yield p] evs
  have hp : p = (loop kern init evs).cur := h.enabled.1
  have hnodup := hrun.inv.links.nodup
  have hstep : loop kern init (.yield p :: evs) = (loop kern init evs).yield := rfl
  rw [hstep]
  match loop kern init evs, ht, hp, hnodup with
  | ⟨x :: tail, e, r⟩, _, hp, hnodup =>
      rw [hp]
      exact (List.nodup_cons.mp hnodup).1

theorem loop_forks {l : List Event} (hl : ∀ ev ∈ l, ev.forks) (ht : (loop kern init evs).tail ≠ []) :
    (loop kern init (l ++ evs)).tail ≠ [] := by
  induction l with
  | nil => exact ht
  | cons ev l ih =>
      rw [List.forall_mem_cons] at hl
      have hrest := ih hl.2
      cases ev with
      | fork p c =>
          have hstep : loop kern init (.fork p c :: l ++ evs) = (loop kern init (l ++ evs)).fork c :=
            rfl
          rw [hstep]
          match loop kern init (l ++ evs), hrest with
          | ⟨_ :: _, _, _⟩, _ => exact List.cons_ne_nil _ _
      | _ => cases hl.1

/-- The process that gets the processor from a `waitpid` on the ring never has it again after it has
yielded, whatever the processes do. -/
theorem Run.waitpid_starves {forks : List Event} {pid : Nat}
    (h : Run kern init (evs' ++ .yield q :: (forks ++ .waitpid p (pid + 1) :: evs)) s)
    (hw : NoWait evs) (hf : ∀ ev ∈ forks, ev.forks) : s.current ≠ q := by
  obtain ⟨t, ht⟩ := h.append _ _
  obtain ⟨u, hu⟩ := ht.append (.yield q :: forks) (.waitpid p (pid + 1) :: evs)
  obtain ⟨v, hv⟩ := hu.append [.waitpid p (pid + 1)] evs
  -- the wait takes the next process off the ring
  have htail : (loop kern init (.waitpid p (pid + 1) :: evs)).tail ≠ [] := by
    obtain ⟨hp, -, hk⟩ := hu.enabled
    rw [← hv.inv.links.cur_eq] at hp
    subst hp
    exact (hv.liveRing hw).waitpid_tail hv hk pid
  have hoff := ht.yield_tail (loop_forks hf htail)
  have hborn : q ∈ born kern init (.yield q :: (forks ++ .waitpid p (pid + 1) :: evs)) := by
    obtain ⟨w, hw'⟩ := ht.append [.yield q] (forks ++ .waitpid p (pid + 1) :: evs)
    have hq : q = (loop kern init (forks ++ .waitpid p (pid + 1) :: evs)).cur := ht.enabled.1
    rw [hq, ← hw'.inv.links.cur_eq]
    exact hw'.inv.mem_born _ hw'.inv.current_mem
  rintro rfl
  exact h.off_loop hborn hoff h.inv.current_mem

end Sbunix
