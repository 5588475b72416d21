import Sbunix.Reasoning.AccessLog
import Sbunix.Sys.Descriptors

/-!
# The bounds of the descriptor table

The scan of `openSyscall` loads a slot before it looks at the bound, and the slot is stored to before
the bound is looked at again.  `sys_close` takes the bound itself for a descriptor, and every negative
number.
-/

namespace Sbunix

open Reasoning Machine

/-! ## The slots that a call loads and stores -/

/-- The loads of the scan at `count`, `left` before `MAX_FD`, where `fd[MAX_FD]` is loaded too. -/
def scanAccesses (pcb : Memory) : Nat → Nat → List (Access Int Nat)
  | 0, count => [.load count]
  | left + 1, count =>
      .load count :: if Pcb.fdAt pcb count ≠ 0 then scanAccesses pcb left (count + 1) else []

/-- `openSyscall(path, 0)`: the scan, and `current->fd[count]=i`. -/
def openAccesses (t : Tarfs) (pcb : Memory) (path : CString) : List (Access Int Nat) :=
  match t.lookup path Fnode.file with
  | (i, true) =>
      scanAccesses pcb (Pcb.maxFd - 3) 3 ++ [.store (scanFd pcb (Pcb.maxFd - 3) 3 : Nat) i]
  | (_, false) => []

/-- `sys_close(fd)`: `current->fd[fd]=0`. -/
def closeAccesses (fd : Int) : List (Access Int Nat) :=
  if fd ≤ Pcb.maxFd then [.store fd 0] else []

variable {s : Machine} {t : Tarfs} {pcb : Memory} {path : CString} {left count start fuel i d : Nat}
  {fd : Int} {r : Reply} {a : Access Int Nat}

/-- The slots of `fd[]`, and what lies behind them. -/
def slots (pcb : Memory) (j : Int) : Nat := Pcb.fdAt pcb j.toNat

theorem mem_scanAccesses : a ∈ scanAccesses pcb left count ↔
    ∃ j : Nat, count ≤ j ∧ j ≤ scanFd pcb left count ∧ a = .load j := by
  induction left generalizing count with
  | zero =>
      rw [scanAccesses, scanFd, List.mem_singleton]
      constructor
      · exact fun h ↦ ⟨count, Nat.le_refl _, Nat.le_refl _, h⟩
      · rintro ⟨j, hj, hle, rfl⟩
        rw [Nat.le_antisymm hle hj]
  | succ left ih =>
      rw [scanAccesses, scanFd, List.mem_cons]
      by_cases hc : Pcb.fdAt pcb count = 0
      · -- the scan ends at `count`
        rw [if_neg (not_not.mpr hc), if_neg (not_not.mpr hc), or_iff_left List.not_mem_nil]
        constructor
        · exact fun h ↦ ⟨count, Nat.le_refl _, Nat.le_refl _, h⟩
        · rintro ⟨j, hj, hle, rfl⟩
          rw [Nat.le_antisymm hle hj]
      · obtain ⟨hlow, -⟩ := scanFd_spec pcb left (count + 1)
        rw [if_pos hc, if_pos hc, ih]
        constructor
        · rintro (rfl | ⟨j, hj, hle, rfl⟩)
          · exact ⟨count, Nat.le_refl _, by omega, rfl⟩
          · exact ⟨j, by omega, hle, rfl⟩
        · rintro ⟨j, hj, hle, rfl⟩
          rcases Nat.eq_or_lt_of_le hj with rfl | hlt
          · exact .inl rfl
          · exact .inr ⟨j, hlt, hle, rfl⟩

theorem stores_scanAccesses : stores (scanAccesses pcb left count) = [] := by
  rw [List.eq_nil_iff_forall_not_mem]
  intro p hp
  obtain ⟨j, -, -, hj⟩ := mem_scanAccesses.mp (store_mem hp)
  cases hj

theorem slots_setFd {v : Nat} (hv : v < 2 ^ 64) {j : Int} (hj : 0 ≤ j) :
    slots (Pcb.setFd pcb d v) j = Function.update (slots pcb) (d : Int) v j := by
  by_cases h : j = d
  · subst h
    rw [Function.update_self]
    exact fdAt_setFd hv
  · rw [Function.update_of_ne h]
    exact fdAt_setFd_of_ne (by omega)

/-- The slots behind an open are those that its stores leave. -/
theorem slots_openSyscall (h : openSyscall t pcb path 0 = some r)
    (hi : (t.lookup path Fnode.file).1 < 2 ^ 64) {j : Int} (hj : 0 ≤ j) :
    slots r.pcb j = applyLog (slots pcb) (openAccesses t pcb path) j := by
  rw [openSyscall, if_pos rfl] at h
  rw [openAccesses]
  rcases hlookup : t.lookup path Fnode.file with ⟨i, _ | _⟩
  · -- there is no such file
    rw [hlookup] at h
    obtain rfl := Option.some.inj h
    rfl
  · rw [hlookup] at h hi
    -- the slot is stored to before the bound is looked at
    have hpcb : r.pcb = Pcb.setFd pcb (scanFd pcb (Pcb.maxFd - 3) 3) i := by
      dsimp only at h
      split at h
      · rw [← Option.some.inj h]
      · rw [← Option.some.inj h]
    have hscan : applyLog (slots pcb) (scanAccesses pcb (Pcb.maxFd - 3) 3) = slots pcb := by
      funext j
      refine applyLog_of_not_stored fun p hp ↦ ?_
      rw [stores_scanAccesses] at hp
      cases hp
    rw [hpcb, applyLog_append, hscan]
    exact slots_setFd hi hj

/-- The slots behind a close are those that its store leaves. -/
theorem slots_sysClose (h : sysClose pcb fd = some r) {j : Int} (hj : 0 ≤ j) :
    slots r.pcb j = applyLog (slots pcb) (closeAccesses fd) j := by
  rw [sysClose] at h
  rw [closeAccesses]
  by_cases hmax : fd ≤ Pcb.maxFd
  · rw [if_pos hmax] at h ⊢
    rw [Option.ite_none_left_eq_some] at h
    obtain ⟨hlow, hr⟩ := h
    obtain rfl := Option.some.inj hr
    by_cases hfd : 0 ≤ fd
    · have hoff : ((Pcb.fdOffset : Int) + 8 * fd).toNat = Pcb.fdOffset + 8 * fd.toNat := by omega
      have hset : slots (Pcb.setFd pcb fd.toNat 0) j = _ := slots_setFd (by decide) hj
      rw [Int.toNat_of_nonneg hfd] at hset
      rw [hoff]
      exact hset
    · -- a field before the table
      show _ = Function.update (slots pcb) fd 0 j
      rw [Function.update_of_ne (by omega)]
      exact Memory.load64_store64_of_disjoint (by omega)
  · rw [if_neg hmax] at h ⊢
    obtain rfl := Option.some.inj h
    rfl

/-! ## The bounds -/

/-- Every access is to `fd[0]` to `fd[29]`. -/
def InTable (log : List (Access Int Nat)) : Prop := ∀ a ∈ log, 0 ≤ a.cell ∧ a.cell < Pcb.maxFd

/-- `openSyscall(path, 0)` stays in the table, and fails without a trace when no descriptor is free. -/
def OpenBounded (t : Tarfs) (pcb : Memory) (path : CString) : Prop :=
  InTable (openAccesses t pcb path) ∧
    ((∀ d, 3 ≤ d → d < Pcb.maxFd → Pcb.fdAt pcb d ≠ 0) →
      ∃ r, openSyscall t pcb path 0 = some r ∧ r.ret = -1 ∧ r.pcb = pcb)

/-- `sys_close(fd)` stays in the table, and returns 1 for what is no descriptor. -/
def CloseBounded (pcb : Memory) (fd : Int) : Prop :=
  InTable (closeAccesses fd) ∧
    (fd < 0 ∨ Pcb.maxFd ≤ fd → ∃ r, sysClose pcb fd = some r ∧ r.ret = 1 ∧ r.pcb = pcb)

theorem closeBounded_iff : CloseBounded pcb fd ↔ (0 ≤ fd ∧ fd < Pcb.maxFd) ∨ Pcb.maxFd < fd := by
  rw [CloseBounded, closeAccesses]
  by_cases hmax : fd ≤ Pcb.maxFd
  · -- there is no lower bound, and the upper one is itself let through
    rw [if_pos hmax, or_iff_left (not_lt.mpr hmax)]
    constructor
    · exact fun h ↦ h.1 _ List.mem_cons_self
    · intro h
      refine ⟨fun a ha ↦ ?_, fun hout ↦ absurd hout (by omega)⟩
      rw [List.mem_singleton] at ha
      subst ha
      exact h
  · rw [if_neg hmax]
    refine iff_of_true ⟨fun a ha ↦ absurd ha List.not_mem_nil, fun _ ↦ ?_⟩ (.inr (not_le.mp hmax))
    exact ⟨_, if_neg hmax, rfl, rfl⟩

/-- A full table is scanned to its end and one slot further, and that slot is stored to. -/
theorem openBounded_iff_of_named (ht : t.Named) : OpenBounded t pcb path ↔
    (∀ i, 1 ≤ i → i < t.tIndex → ¬ t.Has path Fnode.file i) ∨
      ∃ d, 3 ≤ d ∧ d < Pcb.maxFd ∧ Pcb.fdAt pcb d = 0 := by
  rcases ht.lookup_eq path Fnode.file with ⟨i, hlookup, hi⟩ | ⟨hlookup, hnone⟩
  · rw [or_iff_right (fun h ↦ h i hi.pos hi.lt hi.has), OpenBounded, openAccesses, hlookup]
    dsimp only
    obtain ⟨hlow, hhigh, hopen, hzero⟩ := scanFd_spec pcb (Pcb.maxFd - 3) 3
    constructor
    · -- the store is in the table, so the scan ended at a slot that is free
      rintro ⟨hin, -⟩
      have hlast := (hin _ (List.mem_append_right _ List.mem_cons_self)).2
      have hlt : scanFd pcb (Pcb.maxFd - 3) 3 < Pcb.maxFd := Int.ofNat_lt.mp hlast
      exact ⟨_, hlow, hlt, hzero (Nat.lt_of_lt_of_eq hlt rfl)⟩
    · rintro ⟨e, he, hlt, hfree⟩
      have hle : scanFd pcb (Pcb.maxFd - 3) 3 ≤ e := by
        by_contra hgt
        exact hopen e he (Nat.lt_of_not_le hgt) hfree
      refine ⟨fun a ha ↦ ?_, fun hfull ↦ absurd hfree (hfull e he hlt)⟩
      rcases List.mem_append.mp ha with hload | hstore
      · obtain ⟨j, hj, hjle, rfl⟩ := mem_scanAccesses.mp hload
        exact ⟨Int.natCast_nonneg j, Int.ofNat_lt.mpr (by omega)⟩
      · rw [List.mem_singleton] at hstore
        subst hstore
        exact ⟨Int.natCast_nonneg _, Int.ofNat_lt.mpr (by omega)⟩
  · refine iff_of_true ?_ (.inl hnone)
    rw [OpenBounded, openAccesses, openSyscall, if_pos rfl, hlookup]
    exact ⟨fun a ha ↦ absurd ha List.not_mem_nil, fun _ ↦ ⟨_, rfl, rfl, rfl⟩⟩

/-- An open is in bounds exactly when there is no such file or a descriptor is free, and a close
exactly for the descriptors of the table and for the numbers above its end. -/
theorem descriptor_bounds (ht : s.initTarfs fuel start Tarfs.init = some t) :
    (OpenBounded t pcb path ↔
      (∀ i, 1 ≤ i → i < t.tIndex → ¬ t.Has path Fnode.file i) ∨
        ∃ d, 3 ≤ d ∧ d < Pcb.maxFd ∧ Pcb.fdAt pcb d = 0) ∧
      (CloseBounded pcb fd ↔ (0 ≤ fd ∧ fd < Pcb.maxFd) ∨ Pcb.maxFd < fd) :=
  ⟨openBounded_iff_of_named (named_init.initTarfs (by decide) ht).1, closeBounded_iff⟩

theorem descriptor_bounds_free : ∃ t,
    (archiveMachine binMembers).initTarfs 120 archiveStart Tarfs.init = some t ∧
      OpenBounded t (fun _ ↦ 0) (cstr "bin/ls") ∧ CloseBounded (fun _ ↦ 0) 31 := by
  obtain ⟨t, ht, -⟩ := binMembers_archive.index (show _ < 120 by decide)
  have hbounds : (OpenBounded t (fun _ ↦ 0) (cstr "bin/ls") ↔ _) ∧
      (CloseBounded (fun _ ↦ 0) 31 ↔ _) := descriptor_bounds ht
  exact ⟨t, ht, hbounds.1.mpr (.inr ⟨3, by decide, by decide, Memory.load64_zero fun _ _ _ ↦ rfl⟩),
    hbounds.2.mpr (.inr (by decide))⟩

/-- A PCB whose slots are all in use. -/
theorem fdAt_ones : Pcb.fdAt (fun _ ↦ 1) d ≠ 0 := by
  rw [Pcb.fdAt, Memory.load64, Memory.loadBytes]
  exact Nat.ne_of_gt (Nat.add_pos_left Nat.one_pos _)

/-- With the table full, an open stores to `wait_on_childpid`, and so does a close of 30. -/
theorem descriptor_bounds_full : ∃ t,
    (archiveMachine binMembers).initTarfs 120 archiveStart Tarfs.init = some t ∧
      ¬ OpenBounded t (fun _ ↦ 1) (cstr "bin/ls") ∧ ¬ CloseBounded (fun _ ↦ 1) 30 := by
  obtain ⟨t, ht, hindex⟩ := binMembers_archive.index (show _ < 120 by decide)
  have hnamed := (named_init.initTarfs (by decide) ht).1
  have hentry := hindex.entry (binMembers.take 1) ⟨cstr "bin/ls", 5, chr '0', []⟩
    (binMembers.drop 2) rfl
  refine ⟨t, ht, ?_, ?_⟩
  · rw [openBounded_iff_of_named hnamed]
    rintro (hnone | ⟨d, -, -, hfree⟩)
    · refine hnone 2 (by decide) ?_ ⟨hentry.name, hentry.typeflag⟩
      rw [hindex.count]
      decide
    · exact fdAt_ones hfree
  · rw [closeBounded_iff]
    decide

end Sbunix
