import Sbunix.Sys.ProcRun

/-!
# Every run follows the abstract loop

`RunInv` ties the PCBs of a reachable state to the loop of the calls made so far; each call keeps
it.
-/

namespace Sbunix

open Reasoning Procs

/-- The `next` pointers from `current` visit the processes of the loop in its order. -/
abbrev Loop.Links (l : Loop) (s : Procs) : Prop :=
  Lasso s.nextOf s.current l.tail l.entry l.ring

theorem Loop.Links.cur_eq {l : Loop} {s : Procs} (h : l.Links s) : s.current = l.cur := by
  match l, h with
  | ⟨[], _, _⟩, h => exact h.head_ring
  | ⟨_ :: _, _, _⟩, h => exact h.head_tail

theorem Loop.mem_fork {l : Loop} {c x : Nat} :
    x ∈ (l.fork c).nodes ↔ x = c ∨ x ∈ l.nodes := by
  match l with
  | ⟨[], e, r⟩ =>
      simp only [fork, nodes, List.nil_append, List.mem_cons]
      tauto
  | ⟨y :: t, e, r⟩ =>
      simp only [fork, nodes, List.cons_append, List.mem_cons, List.mem_append]
      tauto

theorem Loop.mem_of_mem_yield {l : Loop} {x : Nat} (h : x ∈ l.yield.nodes) : x ∈ l.nodes := by
  match l, h with
  | ⟨_ :: t, e, r⟩, h => exact List.mem_cons_of_mem _ h
  | ⟨[], e, []⟩, h => exact h
  | ⟨[], e, y :: r⟩, h =>
      simp only [yield, nodes, List.nil_append, List.mem_cons, List.mem_append,
        List.not_mem_nil, or_false] at h ⊢
      tauto

theorem Loop.mem_of_mem_exit {l : Loop} {x : Nat} (h : x ∈ l.exit.nodes) : x ∈ l.nodes := by
  match l, h with
  | ⟨_ :: t, e, r⟩, h => exact h
  | ⟨[], e, []⟩, h => exact h
  | ⟨[], e, y :: r⟩, h => exact List.mem_cons_of_mem e h

theorem Loop.mem_swap {l : Loop} {x : Nat} : x ∈ l.swap.nodes ↔ x ∈ l.nodes := by
  match l with
  | ⟨[], e, []⟩ => exact Iff.rfl
  | ⟨[], e, y :: r⟩ =>
      simp only [swap, nodes, List.cons_append, List.nil_append, List.mem_cons]
      tauto
  | ⟨[y], e, r⟩ =>
      simp only [swap, nodes, List.cons_append, List.nil_append, List.mem_cons]
      tauto
  | ⟨y :: z :: t, e, r⟩ =>
      simp only [swap, nodes, List.cons_append, List.mem_cons]
      tauto

variable {kern init : Nat} {evs : List Event} {s s' : Procs}

/-- `zombie` heads the exited processes, and no `next` pointer of a process is NULL. -/
structure RunInv (kern init : Nat) (evs : List Event) (s : Procs) : Prop where
  links : (loop kern init evs).Links s
  mem_born : ∀ a ∈ (loop kern init evs).nodes, a ∈ born kern init evs
  live : s.current ∉ exited evs → ∀ a ∈ (loop kern init evs).nodes, a ∉ exited evs
  born_ne : ∀ a ∈ born kern init evs, a ≠ 0
  next_born : ∀ a ∈ born kern init evs, s.nextOf a ∈ born kern init evs
  exited_born : ∀ a ∈ exited evs, a ∈ born kern init evs
  zombie : (s.zombie = 0 ∧ exited evs = []) ∨ s.zombie ∈ exited evs
  zombie_state : ∀ a ∈ exited evs, a ≠ s.current → s.stateOf a = .zombie
  last : s.last = 0

theorem RunInv.current_mem (h : RunInv kern init evs s) :
    s.current ∈ (loop kern init evs).nodes := h.links.cur_mem

theorem RunInv.next_mem (h : RunInv kern init evs s) :
    s.nextOf s.current ∈ (loop kern init evs).nodes := h.links.next_mem h.links.cur_mem

theorem RunInv.next_ne (h : RunInv kern init evs s) : s.nextOf s.current ≠ 0 :=
  h.born_ne _ (h.mem_born _ h.next_mem)

theorem RunInv.current_ne (h : RunInv kern init evs s) : s.current ≠ 0 :=
  h.born_ne _ (h.mem_born _ h.current_mem)

theorem RunInv.zombie_not_mem (h : RunInv kern init evs s) (ha : s.current ∉ exited evs)
    (hz : s.zombie ≠ 0) : s.zombie ∉ (loop kern init evs).nodes := fun hm ↦
  h.live ha _ hm (h.zombie.resolve_left fun hn ↦ hz hn.1)

theorem Booted.inv (h : Booted kern init s) : RunInv kern init [] s := by
  have hb := h.state
  refine ⟨⟨hb.current, ⟨rfl, hb.next_init, hb.next_kern⟩, ?_⟩, ?_, ?_, ?_, ?_, ?_, ?_, ?_, hb.last⟩
  · simpa [loop] using h.ne.symm
  · exact fun a ha ↦ ha
  · exact fun _ a _ ↦ by simp [exited]
  · rintro a (_ | ⟨_, _ | ⟨_, hm⟩⟩)
    · exact h.init_ne
    · exact h.kern_ne
    · cases hm
  · rintro a (_ | ⟨_, _ | ⟨_, hm⟩⟩)
    · simp [born, hb.next_init]
    · simp [born, hb.next_kern]
    · cases hm
  · simp [exited]
  · exact Or.inl ⟨hb.zombie, rfl⟩
  · simp [exited]

/-! ## Fork -/

theorem Loop.Links.fork {l : Loop} (h : l.Links s) {a : ForkArgs} (hc : a.child ∉ l.nodes) :
    (l.fork a.child).Links (s.forkSyscall a) := by
  have hcc : a.child ≠ s.current := (ne_of_mem_of_not_mem h.cur_mem hc).symm
  rw [Loop.Links, forkSyscall_nextOf hcc, forkSyscall_current]
  match l, h with
  | ⟨[], e, r⟩, h =>
      rw [h.head_ring]
      exact (Ring.self h).insert hc
  | ⟨y :: t, e, r⟩, h =>
      rw [show insertAfter s.nextOf s.current a.child = insertAfter s.nextOf y a.child by
        rw [h.head_tail]]
      exact h.insert_tail hc

theorem RunInv.fork (h : RunInv kern init evs s) (ha : s.current ∉ exited evs) {a : ForkArgs}
    (hc : a.child ≠ 0) (hf : a.child ∉ born kern init evs) :
    RunInv kern init (.fork s.current a.child :: evs) (s.forkSyscall a) := by
  have hcl : a.child ∉ (loop kern init evs).nodes := fun hm ↦ hf (h.mem_born _ hm)
  have hcc : a.child ≠ s.current := (ne_of_mem_of_not_mem h.current_mem hcl).symm
  have hcx : a.child ∉ exited evs := fun hx ↦ hf (h.exited_born _ hx)
  obtain ⟨-, hlast, hzom⟩ := forkSyscall_globals (s := s) a
  have hmem : ∀ x, x ∈ (loop kern init (.fork s.current a.child :: evs)).nodes ↔
      x = a.child ∨ x ∈ (loop kern init evs).nodes := fun x ↦ Loop.mem_fork
  refine ⟨h.links.fork hcl, ?_, ?_, ?_, ?_, ?_, ?_, ?_, hlast.trans h.last⟩
  · intro x hx
    rcases (hmem x).mp hx with rfl | hx
    · exact List.mem_cons_self
    · exact List.mem_cons_of_mem _ (h.mem_born x hx)
  · intro _ x hx
    rcases (hmem x).mp hx with rfl | hx
    · exact hcx
    · exact h.live ha x hx
  · intro x hx
    rcases List.mem_cons.mp hx with rfl | hx
    · exact hc
    · exact h.born_ne x hx
  · -- the child goes between the current process and the one behind it
    intro x hx
    rw [forkSyscall_nextOf hcc]
    -- the child, the current process, and all others
    by_cases hxa : x = a.child
    · subst hxa
      rw [insertAfter_new]
      exact List.mem_cons_of_mem _ (h.mem_born _ h.next_mem)
    · by_cases hxc : x = s.current
      · subst hxc
        rw [insertAfter_cur hcc.symm]
        exact List.mem_cons_self
      · rw [insertAfter_other hxc hxa]
        exact List.mem_cons_of_mem _ (h.next_born x ((List.mem_cons.mp hx).resolve_left hxa))
  · exact fun x hx ↦ List.mem_cons_of_mem _ (h.exited_born x hx)
  · rw [hzom]
    exact h.zombie
  · intro x hx hxc
    have hxa : x ≠ a.child := fun he ↦ hf (he ▸ h.exited_born x hx)
    rw [forkSyscall_current] at hxc
    rw [stateOf, forkSyscall_pcbs_other hxa hxc]
    exact h.zombie_state x hx hxc

/-! ## Yield -/

theorem Loop.Links.yield {l : Loop} (h : l.Links s) (sp : SwitchPoint)
    (hne : s.nextOf s.current ≠ 0) : l.yield.Links (s.yieldSyscall sp) := by
  rw [Loop.Links, yieldSyscall_nextOf, yieldSyscall_current sp hne]
  match l, h with
  | ⟨_ :: t, e, r⟩, h => exact h.advance_tail
  | ⟨[], e, []⟩, h =>
      have hr := Ring.self h
      rw [h.head_ring, show s.nextOf e = e from hr.ring.2]
      exact hr
  | ⟨[], e, y :: r⟩, h =>
      have hr := Ring.self h
      rw [h.head_ring, show s.nextOf e = y from hr.ring.2.1]
      exact hr.rotate

theorem RunInv.yield (h : RunInv kern init evs s) (ha : s.current ∉ exited evs)
    (sp : SwitchPoint) : RunInv kern init (.yield s.current :: evs) (s.yieldSyscall sp) := by
  have hne := h.next_ne
  have hnx : s.nextOf s.current ∉ exited evs := h.live ha _ h.next_mem
  have hglob : (s.yieldSyscall sp).zombie = s.zombie ∧ (s.yieldSyscall sp).last = s.last := by
    rw [yieldSyscall_eq sp hne]
    exact ⟨rfl, rfl⟩
  refine ⟨h.links.yield sp hne, fun x hx ↦ h.mem_born x (Loop.mem_of_mem_yield hx),
    fun _ x hx ↦ h.live ha x (Loop.mem_of_mem_yield hx), h.born_ne, ?_, h.exited_born, ?_, ?_,
    hglob.2.trans h.last⟩
  · rw [yieldSyscall_nextOf]
    exact h.next_born
  · rw [hglob.1]
    exact h.zombie
  · intro x hx _
    rw [yieldSyscall_stateOf sp hne, Function.update_of_ne (ne_of_mem_of_not_mem hx hnx)]
    exact h.zombie_state x hx (ne_of_mem_of_not_mem hx ha)

/-! ## Waitpid -/

theorem Loop.Links.waitpid {l : Loop} (h : l.Links s) {pid : Nat} (hp : 0 < pid)
    (sp : SwitchPoint) : l.swap.Links (s.waitpidSyscall pid sp) := by
  rw [Loop.Links, waitpidSyscall_nextOf sp hp, waitpidSyscall_current sp hp]
  match l, h with
  | ⟨[], e, []⟩, h =>
      have hr := Ring.self h
      rw [h.head_ring, show s.nextOf e = e from hr.ring.2]
      exact hr.swap_single
  | ⟨[], e, y :: r⟩, h =>
      have hr := Ring.self h
      rw [h.head_ring, show s.nextOf e = y from hr.ring.2.1]
      exact hr.swap
  | ⟨[y], e, r⟩, h =>
      rw [h.head_tail, show s.nextOf y = e from h.tail.2]
      exact h.swap_last
  | ⟨y :: z :: t, e, r⟩, h =>
      rw [h.head_tail, show s.nextOf y = z from h.tail.2.1]
      exact h.swap_tail

theorem RunInv.waitpid (h : RunInv kern init evs s) (ha : s.current ∉ exited evs) (pid : Nat)
    (sp : SwitchPoint) :
    RunInv kern init (.waitpid s.current pid :: evs) (s.waitpidSyscall pid sp) := by
  cases pid with
  | zero =>
      rw [waitpidSyscall_zero]
      exact ⟨h.links, h.mem_born, h.live, h.born_ne, h.next_born, h.exited_born, h.zombie,
        h.zombie_state, h.last⟩
  | succ pid =>
      have hp := Nat.succ_pos pid
      have hnx : s.nextOf s.current ∉ exited evs := h.live ha _ h.next_mem
      have hcb := h.mem_born _ h.current_mem
      refine ⟨h.links.waitpid hp sp, fun x hx ↦ h.mem_born x (Loop.mem_swap.mp hx),
        fun _ x hx ↦ h.live ha x (Loop.mem_swap.mp hx), h.born_ne, ?_, h.exited_born, h.zombie, ?_,
        h.last⟩
      · -- the current process goes behind its successor
        intro x hx
        rw [waitpidSyscall_nextOf sp hp, swapNext]
        by_cases hxc : x = s.current
        · rw [hxc, Function.update_self]
          exact h.next_born _ (h.next_born _ hcb)
        · rw [Function.update_of_ne hxc]
          by_cases hxn : x = s.nextOf s.current
          · rw [hxn, Function.update_self]
            exact hcb
          · rw [Function.update_of_ne hxn]
            exact h.next_born x hx
      · intro x hx _
        rw [waitpidSyscall_stateOf sp hp, Function.update_of_ne (ne_of_mem_of_not_mem hx hnx)]
        exact h.zombie_state x hx (ne_of_mem_of_not_mem hx ha)

/-! ## Exit -/

/-- Off the ring the search for the predecessor goes round the ring for ever. -/
theorem Loop.Links.exit_none {x e : Nat} {t r : List Nat} (h : Loop.Links ⟨x :: t, e, r⟩ s)
    (fuel : Nat) (sp : SwitchPoint) : s.exitSyscall fuel sp = none := by
  obtain ⟨⟨hx, ht⟩, hr, hn⟩ := h
  have hrest : Lasso s.nextOf (s.nextOf x) t e r := ⟨ht, hr, (List.nodup_cons.mp hn).2⟩
  rw [exitSyscall_eq, Option.map_eq_none_iff, hx]
  refine findPred_closed {y | y ∈ t ++ e :: r} (fun y hy ↦ hrest.next_mem hy) ?_ hrest.cur_mem fuel
  intro y hy he
  exact (List.nodup_cons.mp hn).1 (he ▸ hrest.next_mem hy)

/-- On the ring the search ends at the last process before `current`. -/
theorem Loop.Links.exit_search {e : Nat} {r : List Nat} (h : Loop.Links ⟨[], e, r⟩ s) :
    ∃ fuel temp, findPred s.nextOf s.current fuel (s.nextOf s.current) = some temp ∧
      s.nextOf temp = e ∧ temp ∈ e :: r := by
  have hr := Ring.self h
  rw [h.head_ring]
  rcases List.eq_nil_or_concat r with rfl | ⟨r', p, rfl⟩
  · have he : s.nextOf e = e := hr.ring.2
    exact ⟨1, e, by rw [findPred, if_pos (by rw [he, he]), he], he, List.mem_cons_self⟩
  · have hn := hr.nodup
    rw [List.concat_eq_append] at hr hn ⊢
    have hz : e ∉ (r' ++ [p]).tail := fun hm ↦
      (List.nodup_cons.mp hn).1 (List.mem_of_mem_tail hm)
    obtain ⟨m, -, rfl, hp⟩ := chain_append.mp hr.ring.2
    exact ⟨r'.length + 1, m, findPred_chain hr.ring.2 hz, hp, by simp⟩

/-- The search ends exactly on the ring. -/
theorem Loop.Links.exit_iff {l : Loop} (h : l.Links s) (sp : SwitchPoint) :
    (∃ fuel s', s.exitSyscall fuel sp = some s') ↔ l.tail = [] := by
  match l, h with
  | ⟨x :: t, e, r⟩, h => simp [h.exit_none]
  | ⟨[], e, r⟩, h =>
      obtain ⟨fuel, temp, hfind, -⟩ := h.exit_search
      have he : s.exitSyscall fuel sp = some ((s.exitLinked temp).yieldSyscall sp) := by
        rw [exitSyscall_eq, hfind, Option.map_some]
      exact ⟨fun _ ↦ rfl, fun _ ↦ ⟨fuel, _, he⟩⟩

/-- A search that ended has found the predecessor. -/
theorem Loop.Links.exit_found {l : Loop} (h : l.Links s) {fuel : Nat} {sp : SwitchPoint}
    (he : s.exitSyscall fuel sp = some s') : ∃ temp, s.nextOf temp = l.entry ∧
      temp ∈ l.entry :: l.ring ∧ s' = (s.exitLinked temp).yieldSyscall sp := by
  have ht := (h.exit_iff sp).mp ⟨fuel, s', he⟩
  match l, h, ht with
  | ⟨[], e, r⟩, h, _ =>
      obtain ⟨fuel', temp, hfind, hnext, hmem⟩ := h.exit_search
      rw [exitSyscall_eq, Option.map_eq_some_iff] at he
      obtain ⟨temp', hfind', rfl⟩ := he
      have heq : temp' = temp := by
        have h₁ := findPred_mono (Nat.le_max_left fuel fuel') hfind'
        have h₂ := findPred_mono (Nat.le_max_right fuel fuel') hfind
        exact Option.some.inj (h₁.symm.trans h₂)
      exact ⟨temp, hnext, hmem, by rw [heq]⟩

/-- The links that `exitSyscall` leaves.  The zombie chain hangs on a process that is off the
ring, so only the unlinking is seen from it. -/
theorem Loop.Links.exit {e temp : Nat} {r : List Nat} (h : Loop.Links ⟨[], e, r⟩ s)
    (hz : s.zombie ≠ 0 → s.zombie ∉ e :: r) (hnext : s.nextOf temp = e) (hmem : temp ∈ e :: r) :
    Ring (s.exitNext temp) (s.exitNext temp e) (Loop.exit ⟨[], e, r⟩).ring ∧
      s.exitNext temp e = (Loop.exit ⟨[], e, r⟩).entry := by
  have hr := Ring.self h
  have hcur := h.head_ring
  have hfar : ∀ {x next r₀}, (∀ y ∈ x :: r₀, y ∈ e :: r) → Ring next x r₀ →
      Ring (if s.zombie = 0 then next else Function.update next s.zombie s.current) x r₀ := by
    intro x next r₀ hsub hring
    split
    · exact hring
    · rename_i hz0
      exact hring.update fun hm ↦ hz hz0 (hsub _ hm)
  have hze : ∀ next : Nat → Nat,
      (if s.zombie = 0 then next else Function.update next s.zombie s.current) e = next e := by
    intro next
    split
    · rfl
    · rename_i hz0
      exact Function.update_of_ne (fun hm ↦ hz hz0 (by simp [← hm])) _ _
  cases r with
  | nil =>
      -- the only process is its own predecessor, and stays where it is
      rw [List.mem_singleton] at hmem
      subst hmem
      have hself : Function.update s.nextOf temp (s.nextOf s.current) = s.nextOf := by
        rw [hcur]
        exact Function.update_eq_self temp s.nextOf
      have hte : s.exitNext temp temp = temp := by
        rw [exitNext, hself]
        exact (hze s.nextOf).trans hnext
      refine ⟨?_, hte⟩
      rw [hte, exitNext, hself]
      exact hfar (fun y hy ↦ hy) hr
  | cons y r =>
      have hy : s.nextOf e = y := hr.ring.2.1
      -- `temp` is the last of the others, and is linked to the first of them
      have hne : temp ≠ e := by
        intro he
        rw [he, hy] at hnext
        exact (List.nodup_cons.mp hr.nodup).1 (by simp [hnext])
      have hm := (List.mem_cons.mp hmem).resolve_left hne
      have hte : s.exitNext temp e = y := by
        refine (hze _).trans ?_
        rw [Function.update_of_ne hne.symm]
        exact hy
      refine ⟨?_, hte⟩
      rw [hte, exitNext, hcur]
      rw [hcur] at hfar
      exact hfar (fun x hx ↦ List.mem_cons_of_mem e hx) (hr.unlink hnext hm)

theorem exitNext_mem {S : List Nat} {temp : Nat} (hS : ∀ a ∈ S, s.nextOf a ∈ S)
    (hc : s.current ∈ S) : ∀ a ∈ S, s.exitNext temp a ∈ S := by
  have hu : ∀ a ∈ S, Function.update s.nextOf temp (s.nextOf s.current) a ∈ S := by
    intro a ha
    by_cases hat : a = temp
    · rw [hat, Function.update_self]
      exact hS _ hc
    · rw [Function.update_of_ne hat]
      exact hS a ha
  intro a ha
  rw [exitNext]
  split
  · exact hu a ha
  · by_cases haz : a = s.zombie
    · rw [haz, Function.update_self]
      exact hc
    · rw [Function.update_of_ne haz]
      exact hu a ha

/-- What an exit does to the globals and states, with `temp` the predecessor it found. -/
theorem exitLinked_yield (sp : SwitchPoint) {temp : Nat} (hne : s.exitNext temp s.current ≠ 0) :
    ((s.exitLinked temp).yieldSyscall sp).nextOf = s.exitNext temp ∧
      ((s.exitLinked temp).yieldSyscall sp).current = s.exitNext temp s.current ∧
      ((s.exitLinked temp).yieldSyscall sp).zombie =
        (if s.zombie = 0 then s.current else s.zombie) ∧
      ((s.exitLinked temp).yieldSyscall sp).last = s.last ∧
      ((s.exitLinked temp).yieldSyscall sp).stateOf = Function.update
        (Function.update s.stateOf s.current .zombie) (s.exitNext temp s.current) .running := by
  have hnl : (s.exitLinked temp).nextOf (s.exitLinked temp).current =
      s.exitNext temp s.current := by
    rw [exitLinked_nextOf, exitLinked_current]
  have hne' : (s.exitLinked temp).nextOf (s.exitLinked temp).current ≠ 0 := hnl ▸ hne
  have hlast : (s.exitLinked temp).last = s.last := by
    unfold exitLinked
    dsimp only
    split <;> rfl
  refine ⟨?_, ?_, ?_, ?_, ?_⟩
  · rw [yieldSyscall_nextOf, exitLinked_nextOf]
  · rw [yieldSyscall_current sp hne', hnl]
  · rw [yieldSyscall_eq sp hne']
    exact exitLinked_zombie temp
  · rw [yieldSyscall_eq sp hne']
    exact hlast
  · rw [yieldSyscall_stateOf sp hne', hnl, exitLinked_stateOf]

/-- The process that exits leaves the ring, unless it is alone on it. -/
theorem RunInv.exit_live {e : Nat} {r : List Nat} (hl : loop kern init evs = ⟨[], e, r⟩)
    (h : RunInv kern init evs s) (ha : s.current ∉ exited evs)
    (hn : (Loop.exit ⟨[], e, r⟩).entry ∉ s.current :: exited evs) :
    ∀ a ∈ (Loop.exit ⟨[], e, r⟩).nodes, a ∉ s.current :: exited evs := by
  have hlinks := h.links
  have hlive := h.live ha
  rw [hl] at hlinks hlive
  intro a hm hax
  cases r with
  | nil => exact hn (by rw [hlinks.head_ring]; exact List.mem_cons_self)
  | cons y r =>
      have hac : a ≠ s.current := by
        rw [hlinks.head_ring]
        exact ne_of_mem_of_not_mem hm (List.nodup_cons.mp hlinks.nodup).1
      exact hlive a (List.mem_cons_of_mem e hm) ((List.mem_cons.mp hax).resolve_left hac)

theorem RunInv.exit (h : RunInv kern init evs s) (ha : s.current ∉ exited evs) {fuel : Nat}
    {sp : SwitchPoint} (he : s.exitSyscall fuel sp = some s') :
    RunInv kern init (.exit s.current :: evs) s' := by
  obtain ⟨temp, hnext, hmem, rfl⟩ := h.links.exit_found he
  have htail := (h.links.exit_iff sp).mp ⟨fuel, _, he⟩
  obtain ⟨e, r, hl⟩ : ∃ e r, loop kern init evs = ⟨[], e, r⟩ :=
    ⟨_, _, by rw [← htail]⟩
  have hloop : loop kern init (.exit s.current :: evs) = Loop.exit ⟨[], e, r⟩ := by
    rw [← hl]
    rfl
  have hlinks := h.links
  -- so that the zombie chain does not touch the ring
  have hznm : s.zombie ≠ 0 → s.zombie ∉ e :: r := by
    intro hz
    have := h.zombie_not_mem ha hz
    rwa [hl] at this
  rw [hl] at hlinks hnext hmem
  have hcur := hlinks.head_ring
  have hbc : s.current ∈ born kern init evs := h.mem_born _ h.current_mem
  have hnb : ∀ a ∈ born kern init evs, s.exitNext temp a ∈ born kern init evs :=
    exitNext_mem h.next_born hbc
  obtain ⟨hring, hentry⟩ := hlinks.exit hznm hnext hmem
  have hce : s.exitNext temp s.current = s.exitNext temp e := by rw [hcur]
  obtain ⟨hn', hcur', hzom', hlast', hst'⟩ :=
    exitLinked_yield (s := s) sp (h.born_ne _ (hnb _ hbc))
  have htail' : (Loop.exit ⟨[], e, r⟩).tail = [] := by
    cases r <;> rfl
  refine ⟨?_, ?_, ?_, h.born_ne, ?_, ?_, ?_, ?_, hlast'.trans h.last⟩
  · rw [hloop, Loop.Links, hn', hcur', htail', hce, ← hentry]
    exact hring
  · intro x hx
    rw [hloop] at hx
    have hm := Loop.mem_of_mem_exit hx
    exact h.mem_born x (hl ▸ hm)
  · intro hnot
    rw [hcur', hce, hentry] at hnot
    rw [hloop]
    exact h.exit_live hl ha hnot
  · rw [hn']
    exact hnb
  · intro x hx
    rcases List.mem_cons.mp hx with rfl | hx
    · exact hbc
    · exact h.exited_born x hx
  · right
    rw [hzom']
    split
    · exact List.mem_cons_self
    · rename_i hz0
      exact List.mem_cons_of_mem _ (h.zombie.resolve_left fun hn ↦ hz0 hn.1)
  · intro x hx hxc
    rw [hcur'] at hxc
    rw [hst', Function.update_of_ne hxc]
    by_cases hxs : x = s.current
    · rw [hxs, Function.update_self]
    · rw [Function.update_of_ne hxs]
      exact h.zombie_state x ((List.mem_cons.mp hx).resolve_left hxs) hxs

/-! ## All calls -/

theorem RunInv.step (h : RunInv kern init evs s) (ha : s.current ∉ exited evs) {ev : Event}
    (hf : ∀ p c, ev = .fork p c → c ≠ 0 ∧ c ∉ born kern init evs) (hs : Step kern s ev s') :
    RunInv kern init (ev :: evs) s' := by
  cases hs with
  | fork a _ =>
      obtain ⟨hc, hb⟩ := hf _ _ rfl
      exact h.fork ha hc hb
  | yield sp => exact h.yield ha sp
  | schedule sp hk =>
      rw [schedule_eq_yield sp h.last h.current_ne h.next_ne]
      exact h.yield ha sp
  | exit fuel sp _ he => exact h.exit ha he
  | waitpid pid sp _ => exact h.waitpid ha pid sp

theorem Run.inv (h : Run kern init evs s) : RunInv kern init evs s := by
  induction h with
  | boot hb => exact hb.inv
  | step _ ha hf hs ih => exact ih.step ha hf hs

end Sbunix
