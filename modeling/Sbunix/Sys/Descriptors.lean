import Sbunix.Reasoning.Runs
import Sbunix.Sys.TarLookup

/-!
# Descriptors

A descriptor is a slot of `fd[]`, and it is open when the slot is not 0.  `openSyscall` takes the
first slot that is 0 from descriptor 3 on and stores the index of the file there; `sys_close` stores
0.
-/

namespace Sbunix

open Reasoning Machine

variable {s : Machine} {t t' : Tarfs} {pcb : Memory} {start fuel count left d i v : Nat}
  {path : CString} {size : Int} {type : Nat}

/-! ## What `init_tarfs` leaves of any archive -/

theorem parse_cases (h : t.parse path type start size = some t') :
    t' = t ∨ ∃ j, path ≠ [] ∧ t.add (makeNode j path start size type) = some t' := by
  rw [Tarfs.parse] at h
  by_cases hlen : path.length < (if start = Fnode.file then 1 else 2) ∨ 100 ≤ path.length
  · rw [if_pos hlen] at h
    cases h
  · have hne : path ≠ [] := by
      rintro rfl
      refine hlen (.inl ?_)
      split
      · exact Nat.one_pos
      · exact Nat.two_pos
    rw [if_neg hlen] at h
    split at h
    · cases h
    · exact .inr ⟨0, hne, h⟩
    · split at h
      · exact .inr ⟨_, hne, h⟩
      · exact .inl (Option.some.inj h).symm

theorem Tarfs.Named.parse (ht : t.Named) (hle : t.tIndex ≤ 512)
    (h : t.parse path type start size = some t') : t'.Named ∧ t'.tIndex ≤ 512 := by
  rcases parse_cases h with rfl | ⟨j, hne, hadd⟩
  · exact ⟨ht, hle⟩
  · rw [Tarfs.add, Option.ite_none_right_eq_some] at hadd
    obtain ⟨hlt, heq⟩ := hadd
    obtain rfl := Option.some.inj heq
    refine ⟨⟨Nat.succ_pos _, fun i hi hlt' ↦ ?_⟩, hlt⟩
    show (Function.update t.root t.tIndex _ i).name ≠ []
    -- the new entry, or an old one
    rcases Nat.eq_or_lt_of_le (Nat.le_of_lt_succ hlt') with rfl | hold
    · rw [Function.update_self]
      exact hne
    · rw [Function.update_of_ne (Nat.ne_of_lt hold)]
      exact ht.name i hi hold

/-- Entries have names, and there are no more than the array holds. -/
theorem Tarfs.Named.initTarfs (ht : t.Named) (hle : t.tIndex ≤ 512)
    (h : s.initTarfs fuel start t = some t') : t'.Named ∧ t'.tIndex ≤ 512 := by
  -- on the members that the walk still visits
  induction fuel generalizing start t with
  | zero => cases h
  | succ fuel ih =>
      rw [Machine.initTarfs, Option.bind_eq_some_iff] at h
      obtain ⟨magic, -, h⟩ := h
      by_cases hm : strcmp magic (cstr "ustar") = 0
      · rw [if_pos hm] at h
        simp only [Option.bind_eq_some_iff] at h
        obtain ⟨size, -, typeflag, -, name, -, t₁, hparse, h⟩ := h
        have hstep : t₁.Named ∧ t₁.tIndex ≤ 512 := by
          split at hparse
          · exact ht.parse hle hparse
          · exact ht.parse hle hparse
        exact ih hstep.1 hstep.2 h
      · rw [if_neg hm] at h
        obtain rfl := Option.some.inj h
        exact ⟨ht, hle⟩

theorem named_init : Tarfs.init.Named :=
  ⟨Nat.le_refl 1, fun _ hi hlt ↦ absurd hi (Nat.not_le_of_lt hlt)⟩

/-! ## Slots -/

theorem fdAt_setFd (hv : v < 2 ^ 64) : Pcb.fdAt (Pcb.setFd pcb d v) d = v :=
  Memory.load64_store64 hv

theorem fdAt_setFd_of_ne (h : i ≠ d) : Pcb.fdAt (Pcb.setFd pcb d v) i = Pcb.fdAt pcb i :=
  Memory.load64_store64_of_disjoint (by omega)

/-- The scan passes over the slots that are not 0. -/
theorem scanFd_spec (pcb : Memory) (left count : Nat) :
    count ≤ scanFd pcb left count ∧ scanFd pcb left count ≤ count + left ∧
      (∀ j, count ≤ j → j < scanFd pcb left count → Pcb.fdAt pcb j ≠ 0) ∧
      (scanFd pcb left count < count + left → Pcb.fdAt pcb (scanFd pcb left count) = 0) := by
  induction left generalizing count with
  | zero => exact ⟨Nat.le_refl _, Nat.le_refl _, fun j hj hlt ↦ absurd hj (Nat.not_le_of_lt hlt),
      fun h ↦ absurd h (Nat.lt_irrefl _)⟩
  | succ left ih =>
      rw [scanFd]
      by_cases hc : Pcb.fdAt pcb count = 0
      · rw [if_neg (not_not.mpr hc)]
        exact ⟨Nat.le_refl _, Nat.le_add_right _ _, fun j hj hlt ↦ absurd hj (Nat.not_le_of_lt hlt),
          fun _ ↦ hc⟩
      · obtain ⟨hlow, hhigh, hopen, hzero⟩ := ih (count + 1)
        rw [if_pos hc]
        refine ⟨by omega, by omega, fun j hj hlt ↦ ?_, fun h ↦ hzero (by omega)⟩
        rcases Nat.eq_or_lt_of_le hj with rfl | hj
        · exact hc
        · exact hopen j hj hlt

/-! ## One call -/

/-- A call of the process. -/
inductive FdCall where
  | openFile (path : CString)
  | close (fd : Nat)

/-- The PCB, and the descriptors that were handed out and not closed since. -/
structure FdState where
  pcb : Memory
  handed : List Nat

namespace FdState

def step (t : Tarfs) (s : FdState) : FdCall → FdState
  | .openFile path =>
      match openSyscall t s.pcb path 0 with
      | some r => ⟨r.pcb, if r.ret = -1 then s.handed else r.ret.toNat :: s.handed⟩
      | none => s
  | .close fd =>
      match sysClose s.pcb fd with
      | some r => ⟨r.pcb, s.handed.filter (· ≠ fd)⟩
      | none => s

/-- The descriptors that are handed out are distinct, and they are the slots that are not 0. -/
structure Consistent (s : FdState) : Prop where
  nodup : s.handed.Nodup
  range : ∀ d ∈ s.handed, 3 ≤ d ∧ d < Pcb.maxFd
  slots : ∀ d, 3 ≤ d → d < Pcb.maxFd → (d ∈ s.handed ↔ Pcb.fdAt s.pcb d ≠ 0)

/-- There is a descriptor left when a file is opened, and closes are of descriptors. -/
def Allowed (s : FdState) : FdCall → Prop
  | .openFile _ => ∃ d, 3 ≤ d ∧ d < Pcb.maxFd ∧ d ∉ s.handed
  | .close fd => 3 ≤ fd ∧ fd < Pcb.maxFd

/-- What a call does. -/
def Lawful (t : Tarfs) (s : FdState) : FdCall → Prop
  | .openFile path => ∃ r, openSyscall t s.pcb path 0 = some r ∧
      ((∃ d i : Nat, t.First path Fnode.file i ∧ r.ret = d ∧ 3 ≤ d ∧ d ∉ s.handed ∧
          (∀ j, 3 ≤ j → j < d → j ∈ s.handed) ∧ Pcb.fdAt r.pcb d = i ∧
          ∀ j, j ≠ d → Pcb.fdAt r.pcb j = Pcb.fdAt s.pcb j) ∨
        ((∀ i, 1 ≤ i → i < t.tIndex → ¬ t.Has path Fnode.file i) ∧ r.ret = -1 ∧ r.pcb = s.pcb))
  | .close fd => ∃ r, sysClose s.pcb fd = some r ∧ r.ret = 0 ∧ Pcb.fdAt r.pcb fd = 0 ∧
      ∀ j, j ≠ fd → Pcb.fdAt r.pcb j = Pcb.fdAt s.pcb j

variable {f : FdState} {fd : Nat} {call : FdCall}

theorem Consistent.init (h : ∀ d, 3 ≤ d → d < Pcb.maxFd → Pcb.fdAt pcb d = 0) :
    Consistent ⟨pcb, []⟩ where
  nodup := List.nodup_nil
  range _ hd := absurd hd List.not_mem_nil
  slots d hd hlt := iff_of_false List.not_mem_nil (not_not.mpr (h d hd hlt))

/-- The scan finds the first descriptor that is not handed out. -/
theorem Consistent.scan (h : Consistent f) (hroom : ∃ d, 3 ≤ d ∧ d < Pcb.maxFd ∧ d ∉ f.handed) :
    ∃ d, scanFd f.pcb (Pcb.maxFd - 3) 3 = d ∧ 3 ≤ d ∧ d < Pcb.maxFd ∧ d ∉ f.handed ∧
      ∀ j, 3 ≤ j → j < d → j ∈ f.handed := by
  obtain ⟨hlow, hhigh, hopen, hzero⟩ := scanFd_spec f.pcb (Pcb.maxFd - 3) 3
  obtain ⟨e, he, hlt, hfree⟩ := hroom
  rw [h.slots e he hlt, not_not] at hfree
  -- the scan does not pass over a descriptor that is free
  have hle : scanFd f.pcb (Pcb.maxFd - 3) 3 ≤ e := by
    by_contra hgt
    exact hopen e he (Nat.lt_of_not_le hgt) hfree
  have hmax : scanFd f.pcb (Pcb.maxFd - 3) 3 < Pcb.maxFd := Nat.lt_of_le_of_lt hle hlt
  refine ⟨_, rfl, hlow, hmax, ?_, fun j hj hjlt ↦ ?_⟩
  · rw [h.slots _ hlow hmax, not_not]
    exact hzero (Nat.lt_of_lt_of_eq hmax rfl)
  · exact (h.slots j hj (Nat.lt_trans hjlt hmax)).mpr (hopen j hj hjlt)

theorem Consistent.openFile (h : Consistent f) (ht : t.Named) (hle : t.tIndex ≤ 512)
    (hroom : Allowed f (.openFile path)) :
    Consistent (f.step t (.openFile path)) ∧ Lawful t f (.openFile path) := by
  rcases ht.lookup_eq path Fnode.file with ⟨i, hlookup, hi⟩ | ⟨hlookup, hnone⟩
  · obtain ⟨d, hscan, hd, hlt, hfree, hbelow⟩ := h.scan hroom
    have hopen : openSyscall t f.pcb path 0 = some ⟨d, [], Pcb.setFd f.pcb d i⟩ := by
      rw [openSyscall, if_pos rfl, hlookup]
      dsimp only
      rw [hscan, if_neg (Nat.not_le_of_lt hlt)]
    have hi64 : i < 2 ^ 64 := by
      have := hi.lt
      omega
    have hstep : f.step t (.openFile path) = ⟨Pcb.setFd f.pcb d i, d :: f.handed⟩ := by
      have hret : ((d : Nat) : Int) ≠ -1 := by omega
      rw [step, hopen]
      dsimp only
      rw [if_neg hret, Int.toNat_natCast]
    refine ⟨?_, _, hopen, .inl ⟨d, i, hi, rfl, hd, hfree, hbelow, fdAt_setFd hi64,
      fun j hj ↦ fdAt_setFd_of_ne hj⟩⟩
    rw [hstep]
    -- the slot is not 0 any more, for the index of a file is not 0
    refine ⟨List.nodup_cons.mpr ⟨hfree, h.nodup⟩, fun e he ↦ ?_, fun e he helt ↦ ?_⟩
    · rcases List.mem_cons.mp he with rfl | he
      · exact ⟨hd, hlt⟩
      · exact h.range e he
    · rw [List.mem_cons]
      by_cases hed : e = d
      · subst hed
        rw [fdAt_setFd hi64]
        exact iff_of_true (.inl rfl) (Nat.ne_of_gt hi.pos)
      · rw [fdAt_setFd_of_ne hed, or_iff_right hed]
        exact h.slots e he helt
  · have hopen : ∃ ops, openSyscall t f.pcb path 0 = some ⟨-1, ops, f.pcb⟩ := by
      rw [openSyscall, if_pos rfl, hlookup]
      exact ⟨_, rfl⟩
    obtain ⟨ops, hopen⟩ := hopen
    refine ⟨?_, _, hopen, .inr ⟨hnone, rfl, rfl⟩⟩
    rw [step, hopen]
    exact h

theorem Consistent.close (h : Consistent f) (hfd : Allowed f (.close fd)) :
    Consistent (f.step t (.close fd)) ∧ Lawful t f (.close fd) := by
  obtain ⟨hlow, hhigh⟩ := hfd
  have hclose : sysClose f.pcb fd = some ⟨0, [], Pcb.setFd f.pcb fd 0⟩ := by
    rw [sysClose, if_pos (by omega), if_neg (by omega)]
    rfl
  have hzero : Pcb.fdAt (Pcb.setFd f.pcb fd 0) fd = 0 := fdAt_setFd (by decide)
  refine ⟨?_, _, hclose, rfl, hzero, fun j hj ↦ fdAt_setFd_of_ne hj⟩
  rw [step, hclose]
  refine ⟨h.nodup.filter _, fun e he ↦ h.range e (List.mem_of_mem_filter he), fun e he helt ↦ ?_⟩
  rw [List.mem_filter, decide_eq_true_iff]
  by_cases hed : e = fd
  · subst hed
    exact iff_of_false (fun h ↦ h.2 rfl) (not_not.mpr hzero)
  · show _ ↔ Pcb.fdAt (Pcb.setFd f.pcb fd 0) e ≠ 0
    rw [fdAt_setFd_of_ne hed, and_iff_left hed]
    exact h.slots e he helt

end FdState

/-- In every run that leaves a descriptor for each open, an open takes the smallest free descriptor and
binds it to the first file of that name, or changes nothing. -/
theorem descriptors_run {calls : List FdCall} (ht : s.initTarfs fuel start Tarfs.init = some t)
    (hclosed : ∀ d, 3 ≤ d → d < Pcb.maxFd → Pcb.fdAt pcb d = 0)
    (hcalls : AllSteps (FdState.step t) FdState.Allowed ⟨pcb, []⟩ calls) :
    AllStates (FdState.step t) FdState.Consistent ⟨pcb, []⟩ calls ∧
      AllSteps (FdState.step t) (FdState.Lawful t) ⟨pcb, []⟩ calls := by
  obtain ⟨hnamed, hle⟩ := named_init.initTarfs (by decide) ht
  refine hcalls.invariant (fun f hf call hcall ↦ ?_) (FdState.Consistent.init hclosed)
  cases call with
  | openFile path => exact hf.openFile hnamed hle hcall
  | close fd => exact hf.close hcall

theorem descriptors_run_open_close : ∃ t,
    (archiveMachine binMembers).initTarfs 120 archiveStart Tarfs.init = some t ∧
      AllStates (FdState.step t) FdState.Consistent ⟨fun _ ↦ 0, []⟩
        [.openFile (cstr "bin/ls"), .close 3] ∧
      AllSteps (FdState.step t) (FdState.Lawful t) ⟨fun _ ↦ 0, []⟩
        [.openFile (cstr "bin/ls"), .close 3] := by
  obtain ⟨t, ht, -⟩ := binMembers_archive.index (show _ < 120 by decide)
  refine ⟨t, ht, descriptors_run ht (fun d _ _ ↦ Memory.load64_zero fun _ _ _ ↦ rfl) ?_⟩
  rw [allSteps_cons, allSteps_cons]
  exact ⟨⟨3, by decide, by decide, List.not_mem_nil⟩, ⟨by decide, by decide⟩, allSteps_nil⟩

end Sbunix
