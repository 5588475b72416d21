import Sbunix.Sys.Kprintf

/-!
# The list of processes (`sys/syscall.c`)

`listprocess` goes along the ring from `current` on and stops in front of `current`.  The process that
it stands on then has not been printed.
-/

namespace Sbunix

open Reasoning

/-- The number of a state in `process.h`. -/
def ProcessState.number : ProcessState → Nat
  | .new => 0
  | .ready => 1
  | .running => 2
  | .zombie => 3

/-- What `%s` prints of a state: the string at the address of its number, and nothing at NULL. -/
def stateText (m : Memory) (st : ProcessState) : Option CString :=
  if st.number = 0 then some [] else m.cstring (2 ^ 31) st.number

/-- The line of a process. -/
def processRow (m : Memory) (count : Nat) (p : Pcb) : Option (List ConsoleOp) :=
  (stateText m p.processState).map fun text ↦
    kprintf (cstr "\n %d  |%d    |%d   |%s     |%s")
      [.int count, .int (intWord p.pid), .int (intWord p.ppid), .str text, .str p.processName]

namespace Procs

/-- The loop of `listprocess` at `start`: the processes it prints, with their lines. -/
def listLoop (m : Memory) (s : Procs) : Nat → Nat → Nat → Option (List (Nat × List ConsoleOp))
  | 0, _, _ => none
  | fuel + 1, start, count =>
      if s.nextOf start ≠ s.current then
        (processRow m count (s.pcbs start)).bind fun row ↦
          (listLoop m s fuel (s.nextOf start) (count + 1)).map ((start, row) :: ·)
      else some []

/-- `listprocess()`: what it prints before the loop, and in it. -/
def listprocess (m : Memory) (s : Procs) (fuel : Nat) :
    Option (List ConsoleOp × List (Nat × List ConsoleOp)) :=
  (listLoop m s fuel s.current 0).map
    (kprintf (cstr "\n Number |PID    |PPID    |STATE    |NAME") [], ·)

variable {m : Memory} {s : Procs} {fuel x z count : Nat} {t r : List Nat}
  {rows : List (Nat × List ConsoleOp)}

/-- On the way to `current`, all processes but the last one are printed. -/
theorem listLoop_visits (h : Chain s.nextOf x (x :: t) s.current) (hnot : s.current ∉ t)
    (hrun : listLoop m s fuel x count = some rows) : rows.map Prod.fst = (x :: t).dropLast := by
  induction t generalizing x fuel count rows with
  | nil =>
      -- the loop is left in front of `current`, before the last process is printed
      cases fuel with
      | zero => cases hrun
      | succ fuel =>
          rw [listLoop, if_neg fun hne ↦ hne h.2] at hrun
          obtain rfl := Option.some.inj hrun
          rfl
  | cons y t ih =>
      cases fuel with
      | zero => cases hrun
      | succ fuel =>
          obtain ⟨-, hy, ht⟩ := h
          rw [List.mem_cons, not_or] at hnot
          rw [listLoop, hy, if_pos (Ne.symm hnot.1), Option.bind_eq_some_iff] at hrun
          obtain ⟨row, -, hmap⟩ := hrun
          obtain ⟨rest, hrest, rfl⟩ := Option.map_eq_some_iff.mp hmap
          rw [List.map_cons, ih ⟨rfl, ht⟩ hnot.2 hrest]
          rfl

/-- The loop gets to the last process where the states of the others can be printed. -/
theorem listLoop_isSome (h : Chain s.nextOf x (x :: t) s.current)
    (hread : ∀ a ∈ (x :: t).dropLast, (stateText m (s.pcbs a).processState).isSome)
    (hfuel : t.length < fuel) : (listLoop m s fuel x count).isSome := by
  induction t generalizing x fuel count with
  | nil =>
      obtain ⟨fuel, rfl⟩ := Nat.exists_eq_add_of_le' (show 1 ≤ fuel from hfuel)
      rw [listLoop, if_neg fun hne ↦ hne h.2]
      rfl
  | cons y t ih =>
      obtain ⟨fuel, rfl⟩ := Nat.exists_eq_add_of_le' (Nat.zero_lt_of_lt hfuel)
      obtain ⟨-, hy, ht⟩ := h
      rw [List.dropLast_cons_cons, List.forall_mem_cons] at hread
      obtain ⟨text, htext⟩ := Option.isSome_iff_exists.mp hread.1
      have hrest : (listLoop m s fuel y (count + 1)).isSome :=
        ih ⟨rfl, ht⟩ hread.2 (Nat.lt_of_succ_lt_succ hfuel)
      rw [listLoop, hy]
      split
      · rw [processRow, htext, Option.map_some, Option.bind_some, Option.isSome_map]
        exact hrest
      · rfl

/-- `listprocess` prints the processes from `current` to the last but one, if their states can be
printed. -/
theorem listprocess_visits (h : Ring s.nextOf s.current r)
    (hread : ∀ a ∈ (s.current :: r).dropLast, (stateText m (s.pcbs a).processState).isSome)
    (hfuel : r.length < fuel) : ∃ title rows, s.listprocess m fuel = some (title, rows) ∧
      rows.map Prod.fst = (s.current :: r).dropLast := by
  have hsome : (listLoop m s fuel s.current 0).isSome := listLoop_isSome h.ring hread hfuel
  obtain ⟨rows, hrows⟩ := Option.isSome_iff_exists.mp hsome
  have hnot : s.current ∉ r := (List.nodup_cons.mp h.nodup).1
  rw [listprocess, hrows]
  exact ⟨_, rows, rfl, listLoop_visits h.ring hnot hrows⟩

/-- The call comes to an end, with each process of the ring in one of the lines. -/
def ListsAll (m : Memory) (s : Procs) (r : List Nat) : Prop :=
  ∃ n, ∀ fuel, n ≤ fuel → ∃ title rows, s.listprocess m fuel = some (title, rows) ∧
    ∀ a ∈ s.current :: r, (rows.map Prod.fst).count a = 1

/-- In no ring, whatever its size, are all processes listed. -/
theorem listprocess_never (m : Memory) (h : Ring s.nextOf s.current r) : ¬ ListsAll m s r := by
  rintro ⟨n, hn⟩
  obtain ⟨title, rows, hrun, hcount⟩ := hn n (Nat.le_refl n)
  rw [listprocess, Option.map_eq_some_iff] at hrun
  obtain ⟨rows', hrows, heq⟩ := hrun
  obtain ⟨-, rfl⟩ := Prod.mk.inj heq
  have hnot : s.current ∉ r := (List.nodup_cons.mp h.nodup).1
  rw [listLoop_visits h.ring hnot hrows] at hcount
  -- the last process is in no line
  have hne : s.current :: r ≠ [] := List.cons_ne_nil s.current r
  have hlast := hcount _ (List.getLast_mem hne)
  have hnodup : ((s.current :: r).dropLast ++ [(s.current :: r).getLast hne]).Nodup := by
    rw [List.dropLast_concat_getLast]
    exact h.nodup
  have hzero := List.count_eq_zero_of_not_mem fun hm ↦
    (List.nodup_append.mp hnodup).2.2 _ hm _ List.mem_cons_self rfl
  exact absurd (hzero.symm.trans hlast) (by decide)

/-- Init and the kernel process. -/
def twoProcs : Procs :=
  ⟨fun a ↦ { next := if a = 0x1000 then 0x2000 else 0x1000 }, 0x1000, 0x2000, 0, 0, fun _ ↦ 0⟩

theorem listprocess_never_two : twoProcs.nextOf 0x1000 = 0x2000 ∧
    ¬ ListsAll (fun _ ↦ 0) twoProcs [0x1000] :=
  ⟨rfl, listprocess_never _ ⟨rfl, ⟨rfl, rfl, rfl⟩, by decide⟩⟩

/-- A process on its own. -/
def alone : Procs := ⟨fun _ ↦ { next := 0x1000 }, 0x1000, 0x1000, 0, 0, fun _ ↦ 0⟩

theorem ring_alone : Ring alone.nextOf alone.current [] :=
  ⟨rfl, ⟨rfl, rfl⟩, List.nodup_singleton _⟩

/-- No line is printed for it. -/
theorem not_listsAll_alone : Ring alone.nextOf alone.current [] ∧ ¬ ListsAll (fun _ ↦ 0) alone [] := by
  refine ⟨ring_alone, ?_⟩
  rintro ⟨n, hn⟩
  obtain ⟨title, rows, hrun, hcount⟩ := hn (n + 1) (Nat.le_succ n)
  obtain ⟨-, rfl⟩ := Prod.mk.inj (Option.some.inj hrun)
  exact absurd (hcount 0x1000 List.mem_cons_self) (by decide)

end Procs

end Sbunix
