import Sbunix.Sys.RingRun

/-!
# Process ids

`getPID` takes slots of a table of 100, and no call gives one back: the process born as number `k`
has the id `k`, and from the hundredth on the id is `(uint64_t)-1`.
-/

namespace Sbunix

open Reasoning Procs

variable {kern init : Nat} {evs : List Event} {s s' : Procs}

/-! ## The slot table -/

theorem getPIDLoop_eq {pID : Nat → Nat} {n left i : Nat} (hin : i ≤ n)
    (hs : ∀ j, i ≤ j → j < i + left → (pID j ≠ 0 ↔ j < n)) :
    getPIDLoop pID i left = if n < i + left then some n else none := by
  induction left generalizing i with
  | zero => rw [getPIDLoop, if_neg (by omega)]
  | succ left ih =>
      rw [getPIDLoop]
      split
      · rename_i h0
        have hn : i = n := by
          have := (hs i (Nat.le_refl i) (by omega)).not.mp (by simp [h0])
          omega
        rw [if_pos (by omega), hn]
      · rename_i h0
        have hlt := (hs i (Nat.le_refl i) (by omega)).mp h0
        rw [ih (by omega) fun j hij hj ↦ hs j (by omega) (by omega)]
        simp only [show i + 1 + left = i + (left + 1) by omega]

/-- The id of the process born as number `n`. -/
def pidOfRank (n : Nat) : Nat := if n < maxProcesses then n else noPid

/-- With the first `n` slots taken, `getPID` takes slot `n` if there is one. -/
theorem getPID_slots {n : Nat} (hs : ∀ i < maxProcesses, s.pID i ≠ 0 ↔ i < n) :
    s.getPID.1 = pidOfRank n ∧ ∀ i < maxProcesses, s.getPID.2.pID i ≠ 0 ↔ i < n + 1 := by
  have hloop : getPIDLoop s.pID 0 maxProcesses = if n < maxProcesses then some n else none := by
    rw [getPIDLoop_eq (Nat.zero_le n) fun j _ hj ↦ hs j (by omega), Nat.zero_add]
  rw [getPID, hloop, pidOfRank]
  by_cases hn : n < maxProcesses
  · rw [if_pos hn, if_pos hn]
    refine ⟨rfl, fun i hi ↦ ?_⟩
    by_cases hin : i = n
    · subst hin
      simp
    · dsimp only
      rw [Function.update_of_ne hin, hs i hi]
      omega
  · rw [if_neg hn, if_neg hn]
    refine ⟨rfl, fun i hi ↦ ?_⟩
    rw [hs i hi]
    omega

/-! ## The ids of a run -/

/-- The id of every process, from the calls made. -/
def pidOf (kern init : Nat) : List Event → Nat → Nat
  | [], a => if a = init then 1 else 0
  | .fork _ c :: evs, a =>
      if a = c then pidOfRank (born kern init evs).length else pidOf kern init evs a
  | _ :: evs, a => pidOf kern init evs a

theorem pidOf_lt {a : Nat} (h : a ∈ born kern init evs) :
    pidOf kern init evs a < (born kern init evs).length ∨ pidOf kern init evs a = noPid := by
  induction evs with
  | nil =>
      left
      rw [pidOf, born]
      split <;> simp
  | cons e evs ih =>
      cases e with
      | fork p c =>
          rw [pidOf, born, List.length_cons]
          split
          · rw [pidOfRank]
            split
            · left
              omega
            · exact Or.inr rfl
          · rename_i hac
            have := ih ((List.mem_cons.mp h).resolve_left hac)
            omega
      | _ => exact ih h

/-- `getPID` has handed out one slot for each process. -/
structure PidInv (kern init : Nat) (evs : List Event) (s : Procs) : Prop where
  pid : ∀ a ∈ born kern init evs, (s.pcbs a).pid = pidOf kern init evs a
  slots : ∀ i < maxProcesses, s.pID i ≠ 0 ↔ i < (born kern init evs).length

/-! Only `fork` touches ids and slots. -/

theorem pid_modify_keep (s : Procs) (a : Nat) {f : Pcb → Pcb} (hf : ∀ p, (f p).pid = p.pid)
    (x : Nat) : ((s.modify a f).pcbs x).pid = (s.pcbs x).pid := by
  by_cases h : x = a
  · subst h
    simp [Procs.modify, hf]
  · simp [Procs.modify, h]

theorem setNext_pid (s : Procs) (a v x : Nat) :
    ((s.setNext a v).pcbs x).pid = (s.pcbs x).pid := by
  refine pid_modify_keep s a ?_ x
  intro p
  rfl

theorem setState_pid (s : Procs) (a : Nat) (st : ProcessState) (x : Nat) :
    ((s.setState a st).pcbs x).pid = (s.pcbs x).pid := by
  refine pid_modify_keep s a ?_ x
  intro p
  rfl

theorem contextSwitch_pid (s : Procs) (next prev : Nat) (sp : SwitchPoint) (x : Nat) :
    ((s.contextSwitch next prev sp).pcbs x).pid = (s.pcbs x).pid := by
  refine (pid_modify_keep _ prev ?_ x).trans (setState_pid s next .running x)
  intro p
  rfl

theorem yieldSyscall_pid (sp : SwitchPoint) (x : Nat) :
    ((s.yieldSyscall sp).pcbs x).pid = (s.pcbs x).pid ∧ (s.yieldSyscall sp).pID = s.pID := by
  unfold yieldSyscall
  dsimp only
  split
  · exact ⟨contextSwitch_pid _ _ _ _ x, rfl⟩
  · exact ⟨rfl, rfl⟩

theorem exitLinked_pid (temp x : Nat) :
    ((s.exitLinked temp).pcbs x).pid = (s.pcbs x).pid ∧ (s.exitLinked temp).pID = s.pID := by
  have ht : (((s.setState s.current .zombie).setNext temp (s.nextOf s.current)).pcbs x).pid =
      (s.pcbs x).pid :=
    (setNext_pid _ temp _ x).trans (setState_pid s s.current .zombie x)
  unfold exitLinked
  dsimp only
  split
  · exact ⟨ht, rfl⟩
  · exact ⟨(setNext_pid _ _ _ x).trans ht, rfl⟩

theorem waitpidSyscall_pid (pid : Nat) (sp : SwitchPoint) (x : Nat) :
    ((s.waitpidSyscall pid sp).pcbs x).pid = (s.pcbs x).pid ∧
      (s.waitpidSyscall pid sp).pID = s.pID := by
  unfold waitpidSyscall
  dsimp only
  split
  · refine ⟨?_, rfl⟩
    rw [contextSwitch_pid]
    refine (setNext_pid _ _ _ x).trans ((setNext_pid _ _ _ x).trans ?_)
    refine pid_modify_keep s s.current ?_ x
    intro p
    rfl
  · exact ⟨rfl, rfl⟩

theorem PidInv.fork (h : PidInv kern init evs s) (hi : RunInv kern init evs s) {a : ForkArgs}
    (hb : a.child ∉ born kern init evs) :
    PidInv kern init (.fork s.current a.child :: evs) (s.forkSyscall a) := by
  have hcc : a.child ≠ s.current := fun he ↦ hb (he ▸ hi.mem_born _ hi.current_mem)
  obtain ⟨hpid, hslots⟩ := getPID_slots h.slots
  refine ⟨fun x hx ↦ ?_, ?_⟩
  · rw [pidOf]
    split
    · rename_i hxa
      rw [hxa, (forkSyscall_child hcc).1, hpid]
    · rename_i hxa
      have hxb := (List.mem_cons.mp hx).resolve_left hxa
      by_cases hxc : x = s.current
      · rw [hxc, (forkSyscall_pid_parent hcc).1]
        exact h.pid _ (hi.mem_born _ hi.current_mem)
      · rw [forkSyscall_pcbs_other hxa hxc]
        exact h.pid x hxb
  · rw [forkSyscall_pID, born, List.length_cons]
    exact hslots

theorem Run.pidInv (h : Run kern init evs s) : PidInv kern init evs s := by
  induction h with
  | @boot s hb =>
      refine ⟨fun a ha ↦ ?_, hb.state.slots⟩
      simp only [born, List.mem_cons, List.not_mem_nil, or_false] at ha
      rcases ha with rfl | rfl
      · rw [hb.state.pid_init, pidOf, if_pos rfl]
      · rw [hb.state.pid_kern, pidOf, if_neg hb.ne]
  | @step evs s e s' h ha hf hs ih =>
      have hi := h.inv
      -- no call but fork writes a pid or the table of pids
      have hkeep : ∀ {t : Procs}, (∀ x, (t.pcbs x).pid = (s.pcbs x).pid ∧ t.pID = s.pID) →
          PidInv kern init evs t := fun ht ↦
        ⟨fun a ha ↦ (ht a).1.trans (ih.pid a ha), (ht 0).2 ▸ ih.slots⟩
      cases hs with
      | fork a _ => exact ih.fork hi (hf _ _ rfl).2
      | yield sp =>
          have hk := hkeep fun x ↦ yieldSyscall_pid sp x
          exact ⟨hk.pid, hk.slots⟩
      | schedule sp _ =>
          rw [schedule_eq_yield sp hi.last hi.current_ne hi.next_ne]
          have hk := hkeep fun x ↦ yieldSyscall_pid sp x
          exact ⟨hk.pid, hk.slots⟩
      | exit fuel sp _ he =>
          obtain ⟨temp, -, -, rfl⟩ := hi.links.exit_found he
          have hk := hkeep fun x ↦
            ⟨(yieldSyscall_pid sp x).1.trans (exitLinked_pid temp x).1,
              (yieldSyscall_pid sp x).2.trans (exitLinked_pid temp x).2⟩
          exact ⟨hk.pid, hk.slots⟩
      | waitpid pid sp _ =>
          have hk := hkeep fun x ↦ waitpidSyscall_pid pid sp x
          exact ⟨hk.pid, hk.slots⟩

/-- The child gets an id that no live process has exactly while fewer than 100 processes have been
created, dead ones included. -/
theorem forkSyscall_pid {p c : Nat} (h : Run kern init (.fork p c :: evs) s) :
    ((s.pcbs c).pid ≤ 99 ∧ ∀ q ∈ born kern init evs, q ∉ exited evs →
      (s.pcbs q).pid ≠ (s.pcbs c).pid) ↔ (born kern init evs).length < 100 := by
  have hnd := h.born_nodup
  have hp := h.pidInv.pid
  have hc : (s.pcbs c).pid = pidOfRank (born kern init evs).length := by
    rw [hp c List.mem_cons_self, pidOf, if_pos rfl]
  rw [hc, pidOfRank]
  constructor
  · rintro ⟨hle, -⟩
    by_contra hn
    rw [if_neg (by simpa [maxProcesses] using hn)] at hle
    simp [noPid] at hle
  · intro hlt
    rw [if_pos (by simpa [maxProcesses] using hlt)]
    refine ⟨by omega, fun q hq _ ↦ ?_⟩
    have hqc : q ≠ c := ne_of_mem_of_not_mem hq (List.nodup_cons.mp hnd).1
    rw [hp q (List.mem_cons_of_mem c hq), pidOf, if_neg hqc]
    rcases pidOf_lt hq with hl | hl
    · omega
    · rw [hl, noPid]
      omega

theorem forkSyscall_pid_first : ∃ s : Procs,
    ((s.pcbs 3).pid ≤ 99 ∧ ∀ q ∈ born 1 2 [], q ∉ exited [] → (s.pcbs q).pid ≠ (s.pcbs 3).pid) ↔
      (born 1 2 []).length < 100 := by
  obtain ⟨s, hs⟩ := run_iff_valid.mpr (show Valid 1 2 [.fork 2 3] by decide)
  exact ⟨s, forkSyscall_pid hs⟩

/-! ## A run of short-lived children -/

/-- `init` forks a child that runs and exits, `n` times over; the kernel process then gives way. -/
def forkExit : Nat → List Event
  | 0 => []
  | n + 1 => .yield 1 :: .exit (n + 3) :: .yield 2 :: .fork 2 (n + 3) :: forkExit n

def alive (kern init : Nat) (evs : List Event) : List Nat :=
  (born kern init evs).filter fun a ↦ a ∉ exited evs

theorem forkExit_born (n : Nat) : (born 1 2 (forkExit n)).length = n + 2 ∧
    (∀ a ∈ born 1 2 (forkExit n), a < n + 3) ∧
    ∀ a ∈ exited (forkExit n), 2 < a ∧ a < n + 3 := by
  induction n with
  | zero => simp [forkExit, born, exited]
  | succ n ih =>
      obtain ⟨hl, hb, hx⟩ := ih
      simp only [forkExit, born, exited, List.length_cons, List.mem_cons]
      refine ⟨by omega, ?_, ?_⟩
      · rintro a (rfl | ha)
        · omega
        · have := hb a ha
          omega
      · rintro a (rfl | ha)
        · omega
        · have := hx a ha
          omega

theorem forkExit_loop (n : Nat) : loop 1 2 (forkExit n) = ⟨[], 2, [1]⟩ := by
  induction n with
  | zero => rfl
  | succ n ih =>
      change (((((loop 1 2 (forkExit n)).fork (n + 3)).yield).exit).yield) = _
      rw [ih]
      rfl

theorem forkExit_alive (n : Nat) : alive 1 2 (forkExit n) = [2, 1] := by
  induction n with
  | zero => decide
  | succ n ih =>
      obtain ⟨-, hb, -⟩ := forkExit_born n
      rw [← ih, alive, alive, forkExit]
      simp only [born, exited]
      rw [List.filter_cons_of_neg (by simp)]
      refine List.filter_congr fun a ha ↦ ?_
      have hne : a ≠ n + 3 := Nat.ne_of_lt (hb a ha)
      simp [hne]

theorem alive_fork_le (p c : Nat) :
    (alive kern init (.fork p c :: evs)).length ≤ (alive kern init evs).length + 1 := by
  simp only [alive, born, exited, List.filter_cons]
  split
  · exact Nat.le_of_eq List.length_cons
  · exact Nat.le_succ _

/-- Never more than three processes are alive. -/
theorem forkExit_alive_le {n : Nat} (hs : evs <:+ forkExit n) : (alive 1 2 evs).length ≤ 3 := by
  induction n with
  | zero =>
      rw [forkExit, List.suffix_nil] at hs
      rw [hs]
      decide
  | succ n ih =>
      have hend : (alive 1 2 (forkExit (n + 1))).length ≤ 3 := by
        rw [forkExit_alive]
        decide
      have hfork : (alive 1 2 (.fork 2 (n + 3) :: forkExit n)).length ≤ 3 := by
        refine Nat.le_trans (alive_fork_le 2 (n + 3)) ?_
        rw [forkExit_alive]
        decide
      rw [forkExit] at hs
      rcases List.suffix_cons_iff.mp hs with rfl | hs
      · exact hend
      rcases List.suffix_cons_iff.mp hs with rfl | hs
      · exact hend
      rcases List.suffix_cons_iff.mp hs with rfl | hs
      · exact hfork
      rcases List.suffix_cons_iff.mp hs with rfl | hs
      · exact hfork
      · exact ih hs

theorem forkExit_valid (n : Nat) : Valid 1 2 (forkExit n) := by
  induction n with
  | zero => decide
  | succ n ih =>
      obtain ⟨-, hb, hx⟩ := forkExit_born n
      -- the loop of processes behind each of the three steps of a round
      have h₀ := forkExit_loop n
      have h₁ : loop 1 2 (.fork 2 (n + 3) :: forkExit n) = ⟨[], 2, [n + 3, 1]⟩ := by
        change (loop 1 2 (forkExit n)).fork (n + 3) = _
        rw [h₀]
        rfl
      have h₂ : loop 1 2 (.yield 2 :: .fork 2 (n + 3) :: forkExit n) = ⟨[], n + 3, [1, 2]⟩ := by
        change (loop 1 2 (.fork 2 (n + 3) :: forkExit n)).yield = _
        rw [h₁]
        rfl
      have h₃ : loop 1 2 (.exit (n + 3) :: .yield 2 :: .fork 2 (n + 3) :: forkExit n) =
          ⟨[], 1, [2]⟩ := by
        change (loop 1 2 (.yield 2 :: .fork 2 (n + 3) :: forkExit n)).exit = _
        rw [h₂]
        rfl
      have hx₂ : ∀ a ≤ 2, a ∉ exited (forkExit n) := fun a ha hm ↦ by
        have := hx a hm
        omega
      refine ⟨⟨by rw [h₃]; rfl, ?_⟩, ⟨by rw [h₂]; rfl, ?_, by omega, by rw [h₂]⟩,
        ⟨by rw [h₁]; rfl, hx₂ 2 (by omega)⟩,
        ⟨by rw [h₀]; rfl, hx₂ 2 (by omega), by decide, by omega, ?_⟩, ih⟩
      · rintro (_ | ⟨_, hm⟩)
        exact hx₂ 1 (by omega) hm
      · exact fun hm ↦ Nat.lt_irrefl _ (hx _ hm).2
      · exact fun hm ↦ Nat.lt_irrefl _ (hb _ hm)

/-- With three processes alive at most, the 99th fork of such a run gives its child no id. -/
theorem forkSyscall_pid_exhausted : ∃ s, Run 1 2 (.fork 2 101 :: forkExit 98) s ∧
    (∀ evs, evs <:+ forkExit 98 → (alive 1 2 evs).length ≤ 3) ∧
    (alive 1 2 (.fork 2 101 :: forkExit 98)).length ≤ 3 ∧ (s.pcbs 101).pid = 2 ^ 64 - 1 := by
  obtain ⟨hl, hb, hx⟩ := forkExit_born 98
  have hv : Valid 1 2 (.fork 2 101 :: forkExit 98) := by
    refine ⟨⟨by rw [forkExit_loop]; rfl, fun hm ↦ ?_, by decide, by decide, fun hm ↦ ?_⟩,
      forkExit_valid 98⟩
    · have := hx 2 hm
      omega
    · have := hb 101 hm
      omega
  obtain ⟨s, hs⟩ := run_iff_valid.mpr hv
  refine ⟨s, hs, fun _ ↦ forkExit_alive_le, ?_, ?_⟩
  · refine Nat.le_trans (alive_fork_le 2 101) ?_
    rw [forkExit_alive]
    decide
  · rw [hs.pidInv.pid 101 List.mem_cons_self, pidOf, if_pos rfl, pidOfRank, hl]
    rfl

end Sbunix
