import Sbunix.Sys.Kernel

/-!
# When the frames run out

`allocatePage` returns NULL, and no caller looks at it.  A log of what a call stores, and of the
allocations it makes, tells what the callers do with the NULL; the memory after the call is the log
applied to the memory before it.
-/

namespace Sbunix

open Reasoning

/-- A step of the kernel: an allocation, whether it found a page, or a store at a physical
address. -/
inductive MemEvent where
  | alloc (found : Bool)
  | entry (table : Nat) (i : Fin 512) (e : Nat)
  | fill (start size : Nat) (val : UInt8)
  | byte (a : Nat) (b : UInt8)

namespace MemEvent

/-- What an event does to the memory. -/
def apply (mem : Memory) : MemEvent → Memory
  | alloc _ => mem
  | entry t i e => mem.store64 (t + 8 * i) e
  | fill a n b => mem.fill a n b
  | byte a b => Function.update mem a b

/-- A store into frame 0, or of an entry that leads to it. -/
def HitsFrameZero : MemEvent → Prop
  | alloc _ => False
  | entry t _ e => t = 0 ∨ (Present e ∧ frame e = 0)
  | fill a n _ => a < 4096 ∧ 0 < n
  | byte a _ => a < 4096

end MemEvent

/-- The memory after the events of a log. -/
def replay (mem : Memory) (log : List MemEvent) : Memory := log.foldl MemEvent.apply mem

theorem replay_append (mem : Memory) (l l' : List MemEvent) :
    replay mem (l ++ l') = replay (replay mem l) l' := List.foldl_append

/-! ## The logs of the calls -/

namespace Machine

def allocateLog (s : Machine) : MemEvent := .alloc (decide s.alloc.HasFree)

def tableAllocLog (s : Machine) (above : Nat) (i : Fin 512) : List MemEvent :=
  let p := s.allocatePage.1
  [s.allocateLog, .fill (phys (kptr p)) 4096 0,
    .entry (phys above) i (p ||| uBit ||| (pBit ||| wBit))]

def nextTableLog (s : Machine) (table : Nat) (i : Fin 512) : List MemEvent :=
  if s.readEntry table i &&& pBit ≠ 0 then [] else s.tableAllocLog table i

def mapVP2Log (s : Machine) (v p : Nat) : List MemEvent :=
  let a := nextTable tableAlloc s (kptr s.cr3) (getIndex v 39)
  let b := nextTable tableAlloc a.2 a.1 (getIndex v 30)
  let c := nextTable tableAlloc b.2 b.1 (getIndex v 21)
  s.nextTableLog (kptr s.cr3) (getIndex v 39) ++ (a.2.nextTableLog a.1 (getIndex v 30) ++
    (b.2.nextTableLog b.1 (getIndex v 21) ++
      [.entry (phys c.1) (getIndex v 12) (p ||| (pBit ||| uBit ||| wBit))]))

def mapNewLog (s : Machine) (v : Nat) : List MemEvent :=
  s.allocateLog :: s.allocatePage.2.mapVP2Log v s.allocatePage.1

def kmallocLog (s : Machine) : List MemEvent :=
  s.mapNewLog (kptr s.allocatePage.1) ++ [.fill (phys s.kmalloc.1) 4096 0]

def memcpyLog (s : Machine) (dest src : Nat) : Nat → List MemEvent
  | 0 => []
  | len + 1 =>
      match s.readByte src, s.translateWrite dest with
      | some b, some a =>
          .byte a b :: memcpyLog { s with mem := Function.update s.mem a b } (dest + 1) (src + 1) len
      | _, _ => []

/-- The log of the copy-on-write branch, as far as it comes. -/
def copyOnWriteLog (s : Machine) (faultAddr : Nat) : List MemEvent :=
  s.kmallocLog ++
    match s.kmalloc.2.physicalAddress (frame s.kmalloc.1) with
    | none => []
    | some pAddr =>
        s.kmalloc.2.memcpyLog s.kmalloc.1 (frame faultAddr) 4096 ++
          match s.kmalloc.2.memcpy s.kmalloc.1 (frame faultAddr) 4096 with
          | none => []
          | some s => s.mapVP2Log (frame faultAddr) pAddr

end Machine

variable {s s' : Machine} {v p : Nat} {i : Fin 512} {free : List Nat}

theorem replay_tableAlloc (s : Machine) (above : Nat) (i : Fin 512) :
    (s.tableAlloc above i 'V').2.mem = replay s.mem (s.tableAllocLog above i) := rfl

theorem replay_nextTable (s : Machine) (table : Nat) (i : Fin 512) :
    (Machine.nextTable Machine.tableAlloc s table i).2.mem =
      replay s.mem (s.nextTableLog table i) := by
  unfold Machine.nextTable Machine.nextTableLog
  dsimp only
  split
  · rfl
  · exact replay_tableAlloc s table i

theorem replay_mapVP2 (s : Machine) (v p : Nat) :
    (s.mapVP2 v p).mem = replay s.mem (s.mapVP2Log v p) := by
  rw [mapVP2_eq, Machine.mapVP2Log]
  dsimp only
  rw [replay_append, replay_append, replay_append, ← replay_nextTable, ← replay_nextTable,
    ← replay_nextTable]
  rfl

theorem replay_mapNew (s : Machine) (v : Nat) :
    (s.mapNew v).mem = replay s.mem (s.mapNewLog v) :=
  replay_mapVP2 s.allocatePage.2 v s.allocatePage.1

theorem replay_kmalloc (s : Machine) : s.kmalloc.2.mem = replay s.mem s.kmallocLog := by
  rw [Machine.kmallocLog, replay_append, ← replay_mapNew]
  rfl

theorem replay_memcpy {dest src len : Nat} (h : s.memcpy dest src len = some s') :
    s'.mem = replay s.mem (s.memcpyLog dest src len) := by
  induction len generalizing s dest src with
  | zero =>
      rw [← Option.some.inj h]
      rfl
  | succ len ih =>
      rw [Machine.memcpy, Option.bind_eq_some_iff] at h
      obtain ⟨b, hb, h⟩ := h
      rw [Option.bind_eq_some_iff] at h
      obtain ⟨s₁, hs₁, h⟩ := h
      rw [Machine.writeByte, Option.map_eq_some_iff] at hs₁
      obtain ⟨a, ha, rfl⟩ := hs₁
      rw [Machine.memcpyLog, hb, ha]
      exact ih h

theorem replay_copyOnWrite {faultAddr cr3 : Nat}
    (h : Kernel.copyOnWrite s faultAddr cr3 = some s') :
    s'.mem = replay s.mem (s.copyOnWriteLog faultAddr) := by
  rw [Kernel.copyOnWrite] at h
  dsimp only at h
  rw [Option.bind_eq_some_iff] at h
  obtain ⟨pAddr, hp, h⟩ := h
  rw [Option.map_eq_some_iff] at h
  obtain ⟨s₁, hs₁, rfl⟩ := h
  rw [Machine.copyOnWriteLog, hp]
  dsimp only
  rw [hs₁]
  dsimp only
  rw [replay_append, replay_append, ← replay_kmalloc, ← replay_memcpy hs₁, ← replay_mapVP2]
  rfl

/-! ## Running out -/

/-- The calls that take frames. -/
inductive Request where
  | map (v p : Nat)
  | kmalloc
  | copyOnWrite (faultAddr cr3 : Nat)
  | heap (v : Nat)

namespace Request

def run (s : Machine) : Request → Option Machine
  | map v p => some (s.mapVP2 v p)
  | kmalloc => some s.kmalloc.2
  | copyOnWrite faultAddr cr3 => Kernel.copyOnWrite s faultAddr cr3
  | heap v => some (s.mapNew v)

def log (s : Machine) : Request → List MemEvent
  | map v p => s.mapVP2Log v p
  | kmalloc => s.kmallocLog
  | copyOnWrite faultAddr _ => s.copyOnWriteLog faultAddr
  | heap v => s.mapNewLog v

theorem replay_run {r : Request} (h : r.run s = some s') : s'.mem = replay s.mem (r.log s) := by
  cases r with
  | map v p =>
      rw [← Option.some.inj h]
      exact replay_mapVP2 s v p
  | kmalloc =>
      rw [← Option.some.inj h]
      exact replay_kmalloc s
  | copyOnWrite faultAddr cr3 => exact replay_copyOnWrite h
  | heap v =>
      rw [← Option.some.inj h]
      exact replay_mapNew s v

end Request

/-- The heap branch of `pageFault` is the request of its page. -/
theorem faultVmas_heap {k : Kernel} {fuel vma faultAddr vmEnd : Nat} (hv : vma ≠ 0)
    (ht : (k.vmas vma).type = .heap) (hs : (k.vmas vma).start ≤ faultAddr)
    (hh : faultAddr ≤ heapEnd)
    (he : Kernel.heapPage faultAddr fuel (k.vmas vma).vmEnd = some vmEnd) :
    (Kernel.faultVmas faultAddr (fuel + 1) vma k).map (fun r ↦ some r.1.toMachine) =
      some ((Request.heap vmEnd).run k.toMachine) := by
  rw [Kernel.faultVmas, if_neg hv]
  dsimp only
  rw [if_pos ⟨ht, hs, hh⟩, he]
  rfl

/-- An allocation of the call finds no page. -/
def RunsOut (s : Machine) (r : Request) : Prop := .alloc false ∈ r.log s

/-- Nothing is written into frame 0, and no entry that leads to it. -/
def Clean (log : List MemEvent) : Prop := ∀ e ∈ log, ¬ e.HitsFrameZero

theorem allocatePage_zero (h : MemEvent.alloc false = s.allocateLog) : s.allocatePage.1 = 0 := by
  have hf : ¬ s.alloc.HasFree := of_decide_eq_false (MemEvent.alloc.inj h).symm
  have hu : s.alloc.unsetPage = (noPage, s.alloc) := if_pos (not_not.mp hf)
  show s.alloc.allocatePage.1 = 0
  simp only [PageAlloc.allocatePage, hu, if_true]

theorem tableAllocLog_hits {above : Nat} (h : .alloc false ∈ s.tableAllocLog above i) :
    ∃ e ∈ s.tableAllocLog above i, e.HitsFrameZero := by
  have hz : s.allocatePage.1 = 0 := by
    simp only [Machine.tableAllocLog, List.mem_cons, List.not_mem_nil, or_false, reduceCtorEq] at h
    exact allocatePage_zero h
  refine ⟨.fill (phys (kptr s.allocatePage.1)) 4096 0, by simp [Machine.tableAllocLog], ?_⟩
  rw [hz]
  exact ⟨by decide, by decide⟩

theorem nextTableLog_hits {table : Nat} (h : .alloc false ∈ s.nextTableLog table i) :
    ∃ e ∈ s.nextTableLog table i, e.HitsFrameZero := by
  unfold Machine.nextTableLog at h ⊢
  split at h
  · cases h
  · rename_i hp
    rw [if_neg hp]
    exact tableAllocLog_hits h

theorem mapVP2Log_hits (h : .alloc false ∈ s.mapVP2Log v p) :
    ∃ e ∈ s.mapVP2Log v p, e.HitsFrameZero := by
  simp only [Machine.mapVP2Log, List.mem_append, List.mem_singleton, reduceCtorEq, or_false] at h ⊢
  rcases h with h | h | h
  · obtain ⟨e, he, hz⟩ := nextTableLog_hits h
    exact ⟨e, .inl he, hz⟩
  · obtain ⟨e, he, hz⟩ := nextTableLog_hits h
    exact ⟨e, .inr (.inl he), hz⟩
  · obtain ⟨e, he, hz⟩ := nextTableLog_hits h
    exact ⟨e, .inr (.inr (.inl he)), hz⟩

theorem mapVP2Log_last (s : Machine) (v p : Nat) : ∃ l t,
    s.mapVP2Log v p = l ++ [.entry t (getIndex v 12) (p ||| (pBit ||| uBit ||| wBit))] := by
  unfold Machine.mapVP2Log
  dsimp only
  rw [← List.append_assoc, ← List.append_assoc]
  exact ⟨_, _, rfl⟩

/-- The NULL is mapped as if it were a page. -/
theorem mapVP2Log_null (s : Machine) (v : Nat) : ∃ e ∈ s.mapVP2Log v 0, e.HitsFrameZero := by
  obtain ⟨l, t, hl⟩ := mapVP2Log_last s v 0
  rw [hl]
  exact ⟨_, List.mem_append_right l (List.mem_singleton_self _), .inr ⟨by decide, by decide⟩⟩

theorem mapNewLog_hits (h : .alloc false ∈ s.mapNewLog v) :
    ∃ e ∈ s.mapNewLog v, e.HitsFrameZero := by
  rcases List.mem_cons.mp h with h | h
  · obtain ⟨e, he, hz⟩ := mapVP2Log_null s.allocatePage.2 v
    refine ⟨e, List.mem_cons_of_mem _ ?_, hz⟩
    rw [allocatePage_zero h]
    exact he
  · obtain ⟨e, he, hz⟩ := mapVP2Log_hits h
    exact ⟨e, List.mem_cons_of_mem _ he, hz⟩

theorem kmallocLog_hits (h : .alloc false ∈ s.kmallocLog) :
    ∃ e ∈ s.kmallocLog, e.HitsFrameZero := by
  simp only [Machine.kmallocLog, List.mem_append, List.mem_singleton, reduceCtorEq, or_false] at h
  obtain ⟨e, he, hz⟩ := mapNewLog_hits h
  exact ⟨e, List.mem_append_left _ he, hz⟩

theorem memcpyLog_no_alloc {dest src len : Nat} {found : Bool} :
    .alloc found ∉ s.memcpyLog dest src len := by
  induction len generalizing s dest src with
  | zero => exact List.not_mem_nil
  | succ len ih =>
      rw [Machine.memcpyLog]
      split
      · rw [List.mem_cons, not_or]
        exact ⟨by simp, ih⟩
      · exact List.not_mem_nil

theorem copyOnWriteLog_hits {faultAddr : Nat} (h : .alloc false ∈ s.copyOnWriteLog faultAddr) :
    ∃ e ∈ s.copyOnWriteLog faultAddr, e.HitsFrameZero := by
  rw [Machine.copyOnWriteLog] at h ⊢
  rcases List.mem_append.mp h with h | h
  · obtain ⟨e, he, hz⟩ := kmallocLog_hits h
    exact ⟨e, List.mem_append_left _ he, hz⟩
  · cases hp : s.kmalloc.2.physicalAddress (frame s.kmalloc.1) with
    | none =>
        rw [hp] at h
        cases h
    | some pAddr =>
        rw [hp] at h
        dsimp only at h ⊢
        rcases List.mem_append.mp h with h | h
        · exact absurd h memcpyLog_no_alloc
        · cases hs : s.kmalloc.2.memcpy s.kmalloc.1 (frame faultAddr) 4096 with
          | none =>
              rw [hs] at h
              cases h
          | some s₁ =>
              rw [hs] at h
              obtain ⟨e, he, hz⟩ := mapVP2Log_hits h
              exact ⟨e, List.mem_append_right _ (List.mem_append_right _ he), hz⟩

theorem RunsOut.not_clean {r : Request} (h : RunsOut s r) : ¬ Clean (r.log s) := by
  intro hc
  have hits : ∃ e ∈ r.log s, e.HitsFrameZero := by
    cases r with
    | map v p => exact mapVP2Log_hits h
    | kmalloc => exact kmallocLog_hits h
    | copyOnWrite faultAddr cr3 => exact copyOnWriteLog_hits h
    | heap v => exact mapNewLog_hits h
  obtain ⟨e, he, hz⟩ := hits
  exact hc e he hz

/-! ## How many frames a mapping needs -/

variable {U : Fin 512 → Bool} {r t : Nat}

/-- A path below an empty table lacks all its tables. -/
theorem missing_empty {mem : Memory} {k : Nat} {rest : List (Fin 512)}
    (h : ∀ j, entry mem t j = 0) (hr : rest.length = k) : missing (child U mem) k t rest = k := by
  match k, rest, hr with
  | 0, [], _ => rfl
  | k + 1, i :: rest, _ =>
      rw [missing, child_of_zero (h i)]

theorem nextTableLog_present (h : Paged U s r free) (ht : t ∈ tableFrames U s.mem r)
    (hp : Present (entry s.mem t i)) : s.nextTableLog (kptr t) i = [] := by
  rw [Machine.nextTableLog, readEntry_eq h ht]
  exact if_pos hp

theorem nextTableLog_absent (h : Paged U s r free) (ht : t ∈ tableFrames U s.mem r)
    (hp : ¬ Present (entry s.mem t i)) :
    .alloc false ∈ s.nextTableLog (kptr t) i ↔ free = [] := by
  rw [Machine.nextTableLog, readEntry_eq h ht, if_neg hp, Machine.tableAllocLog]
  simp only [List.mem_cons, List.not_mem_nil, or_false, reduceCtorEq, Machine.allocateLog,
    MemEvent.alloc.injEq, Bool.false_eq, decide_eq_false_iff_not, h.freeList.hasFree_iff, not_not]

/-- One level finds no page, or it leaves as many frames too few as there were. -/
theorem nextTableLog_spec {k : Nat} {q rest : List (Fin 512)} (h : Paged U s r free)
    (hd : tableAt U s.mem r q = some t) (hq : q.length + (k + 1) = 3) (hU : k = 2 → U i)
    (hr : rest.length = k) :
    (missing (child U s.mem) (k + 1) t (i :: rest) ≤ free.length →
      .alloc false ∉ s.nextTableLog (kptr t) i) ∧
    (free.length < missing (child U s.mem) (k + 1) t (i :: rest) →
      .alloc false ∈ s.nextTableLog (kptr t) i ∨
      ∃ free' t' s', Machine.nextTable Machine.tableAlloc s (kptr t) i = (kptr t', s') ∧
        Paged U s' r free' ∧ tableAt U s'.mem r (q ++ [i]) = some t' ∧
        free'.length < missing (child U s'.mem) k t' rest) := by
  have ht := descend_mem hd
  rw [missing]
  by_cases hp : Present (entry s.mem t i)
  · have hc : child U s.mem k t i = some (frame (entry s.mem t i)) := child_of_present hU hp
    rw [hc, nextTableLog_present h ht hp]
    exact ⟨fun _ ↦ List.not_mem_nil, fun hlt ↦ .inr ⟨free, _, s, nextTable_present (h.aligned t ht).2 hp, h,
      mem_tableFrames_child hq hd hc, hlt⟩⟩
  · have hc : child U s.mem k t i = none := child_of_absent hp
    rw [hc, nextTableLog_absent h ht hp]
    cases free with
    | nil => exact ⟨fun hle ↦ absurd hle (Nat.not_succ_le_zero k), fun _ ↦ .inl rfl⟩
    | cons n free =>
        refine ⟨fun _ ↦ List.cons_ne_nil n free, fun hlt ↦ .inr ?_⟩
        obtain ⟨hst, hds⟩ := Stage.of_miss h hd hq hU hc
        have hn := h.free_lt n List.mem_cons_self
        have hfst := (tableAlloc_spec (i := i) h.freeList hn (h.aligned t ht).2).1
        refine ⟨free, n * 4096, (s.tableAlloc (kptr t) i 'V').2, ?_, hst.paged, hds, ?_⟩
        · exact (nextTable_absent (h.aligned t ht).2 hp).trans (Prod.ext hfst rfl)
        · -- the new table is empty, so that all the levels below are missing
          rw [missing_empty (hst.new hc).2 hr]
          exact Nat.lt_of_succ_lt_succ hlt

/-- A mapping runs out exactly if there are fewer free frames than tables missing on its path. -/
theorem runsOut_map_iff (h : Paged allEntries s s.cr3 free) :
    RunsOut s (.map v p) ↔
      free.length < missing (child allEntries s.mem) 3 s.cr3 (tablePath v) := by
  have hall : ∀ {k : Nat} {j : Fin 512}, k = 2 → allEntries j := fun _ ↦ rfl
  simp only [RunsOut, Request.log, Machine.mapVP2Log, List.mem_append, List.mem_singleton,
    reduceCtorEq, or_false]
  constructor
  · -- with frames enough none of the three levels runs out
    intro hlog
    by_contra hge
    obtain ⟨f₁, t₁, he₁, hs₁, ht₁, hm₁⟩ := nextTable_spec (k := 2) (i := getIndex v 39) h
      descend_nil rfl hall (Nat.not_lt.mp hge)
    rw [he₁] at hlog
    obtain ⟨f₂, t₂, he₂, hs₂, ht₂, hm₂⟩ := nextTable_spec (k := 1) hs₁.paged ht₁ rfl hall hm₁
    rw [he₂] at hlog
    rcases hlog with hlog | hlog | hlog
    · exact (nextTableLog_spec (k := 2) h descend_nil rfl hall rfl).1 (Nat.not_lt.mp hge) hlog
    · exact (nextTableLog_spec (k := 1) hs₁.paged ht₁ rfl hall rfl).1 hm₁ hlog
    · exact (nextTableLog_spec (k := 0) hs₂.paged ht₂ rfl hall rfl).1 hm₂ hlog
  · -- otherwise one of them does, the upper ones first
    intro hlt
    rcases (nextTableLog_spec (k := 2) (i := getIndex v 39) h descend_nil rfl hall rfl).2 hlt
      with hlog | ⟨f₁, t₁, s₁, he₁, h₁, ht₁, hlt₁⟩
    · exact .inl hlog
    rw [he₁]
    rcases (nextTableLog_spec (k := 1) h₁ ht₁ rfl hall rfl).2 hlt₁
      with hlog | ⟨f₂, t₂, s₂, he₂, h₂, ht₂, hlt₂⟩
    · exact .inr (.inl hlog)
    dsimp only
    rw [he₂]
    rcases (nextTableLog_spec (k := 0) h₂ ht₂ rfl hall rfl).2 hlt₂
      with hlog | ⟨f₃, t₃, s₃, -, -, -, hlt₃⟩
    · exact .inr (.inr hlog)
    · exact absurd hlt₃ (Nat.not_lt_zero _)

/-! ## NULL -/

/-- NULL means that no page is left exactly if page 0 is none of those that are. -/
theorem allocatePage_null_iff (h : FreeList s.alloc free) :
    (s.allocatePage.1 = 0 ↔ free = []) ↔ 0 ∉ free := by
  cases free with
  | nil =>
      have hz : s.allocatePage.1 = 0 := congrArg Prod.fst (allocatePage_nil h)
      exact iff_of_true (iff_of_true hz rfl) List.not_mem_nil
  | cons n free =>
      have ha : s.allocatePage.1 = n * 4096 := (allocatePage_spec h).1
      have hlt : ∀ m ∈ free, n < m := fun m hm ↦
        (List.pairwise_cons.mp h.ascending.sorted).1 m (List.mem_append_left _ hm)
      have hfree : 0 ∉ free := fun hm ↦ Nat.not_lt_zero n (hlt 0 hm)
      rw [ha, iff_false_right (List.cons_ne_nil n free), List.mem_cons, not_or]
      constructor
      · intro hn
        exact ⟨fun h0 ↦ hn (by omega), hfree⟩
      · rintro ⟨hn, -⟩ h0
        exact hn (by omega)

/-- What becomes of a shortage: NULL stands for it only while page 0 is not on the list, and every
call that runs out writes to frame 0 or maps it. -/
theorem outOfMemory (h : FreeList s.alloc free) :
    ((s.allocatePage.1 = 0 ↔ free = []) ↔ 0 ∉ free) ∧
      ∀ r, RunsOut s r → ¬ Clean (r.log s) :=
  ⟨allocatePage_null_iff h, fun _ hr ↦ hr.not_clean⟩

/-- A machine without a free page; its memory is full of ones. -/
def drained : Machine := { freeMachine 5 5 with mem := fun _ ↦ 1 }

theorem drained_freeList : FreeList drained.alloc [] := freeMachine_freeList (k := 0) (by decide)

theorem drained_runsOut (v : Nat) : RunsOut drained (.heap v) := List.mem_cons_self

theorem outOfMemory_drained :
    (drained.allocatePage.1 = 0 ↔ ([] : List Nat) = []) ∧
      ¬ Clean ((Request.heap heapStart).log drained) :=
  ⟨(outOfMemory drained_freeList).1.mpr List.not_mem_nil,
    (outOfMemory drained_freeList).2 _ (drained_runsOut heapStart)⟩

theorem kmalloc_cleared (s : Machine) {x : Nat} (h : phys s.kmalloc.1 ≤ x)
    (h' : x < phys s.kmalloc.1 + 4096) : s.kmalloc.2.mem x = 0 := by
  show (s.mapNew (kptr s.allocatePage.1)).mem.fill (phys (kptr s.allocatePage.1)) 4096 0 x = 0
  exact Memory.fill_apply_of_mem h h'

/-- `kmalloc` without a free page clears frame 0, and page 0 is handed out as NULL. -/
theorem outOfMemory_frameZero :
    (RunsOut drained .kmalloc ∧ ¬ Clean (Request.kmalloc.log drained) ∧ drained.mem 0 = 1 ∧
      drained.kmalloc.2.mem 0 = 0) ∧
    FreeList (freeMachine 0 5).alloc [0, 1, 2, 3, 4] ∧ (freeMachine 0 5).allocatePage.1 = 0 := by
  have hr : RunsOut drained .kmalloc := List.mem_cons_self
  refine ⟨⟨hr, hr.not_clean, rfl, ?_⟩, freeMachine_freeList (a := 0) (k := 5) (by decide), by decide⟩
  have hp : phys drained.kmalloc.1 = 0 := by decide
  exact kmalloc_cleared drained (Nat.le_of_eq hp) (by rw [hp]; decide)

end Sbunix
