import Sbunix.Sys.Ring

/-!
# Runs of the process calls

From the ring kernel → init → kernel that boot leaves, the current process makes one call after
another.  The calls made so far are kept, latest first; who has been created and who has exited is
read off that list, and so is the order in which the `next` pointers visit the processes from
`current`: a simple ring, reached over the processes that `waitpid` took off it.
-/

namespace Sbunix

open Reasoning Procs

/-- A call, and the process that makes it. -/
inductive Event where
  | fork (proc child : Nat)
  | yield (proc : Nat)
  | exit (proc : Nat)
  | waitpid (proc pid : Nat)
deriving DecidableEq, Repr

/-- Every process ever created, latest first. -/
def born (kern init : Nat) : List Event → List Nat
  | [] => [init, kern]
  | .fork _ c :: evs => c :: born kern init evs
  | _ :: evs => born kern init evs

def exited : List Event → List Nat
  | [] => []
  | .exit p :: evs => p :: exited evs
  | _ :: evs => exited evs

/-- One call.  The kernel process only yields or schedules. -/
inductive Step (kern : Nat) (s : Procs) : Event → Procs → Prop
  | fork (a : ForkArgs) (hu : s.current ≠ kern) :
      Step kern s (.fork s.current a.child) (s.forkSyscall a)
  | yield (sp : SwitchPoint) : Step kern s (.yield s.current) (s.yieldSyscall sp)
  | schedule (sp : SwitchPoint) (hk : s.current = kern) :
      Step kern s (.yield s.current) (s.schedule sp)
  | exit (fuel : Nat) (sp : SwitchPoint) {s' : Procs} (hu : s.current ≠ kern)
      (h : s.exitSyscall fuel sp = some s') : Step kern s (.exit s.current) s'
  | waitpid (pid : Nat) (sp : SwitchPoint) (hu : s.current ≠ kern) :
      Step kern s (.waitpid s.current pid) (s.waitpidSyscall pid sp)

/-- The state in which `start` enters the first user process: `mapProcessID`, `kernProcess`,
`userInitProcess` and `switchToRing3` from zeroed globals. -/
structure Booted (kern init : Nat) (s : Procs) : Prop where
  kern_ne : kern ≠ 0
  init_ne : init ≠ 0
  ne : kern ≠ init
  boot : ∃ (s₀ s₁ : Procs) (kstack cr3 initFunc fuel : Nat) (a : InitArgs),
    s₀.last = 0 ∧ s₀.zombie = 0 ∧ a.init = init ∧
    (s₀.mapProcessID.kernProcess kern kstack cr3 initFunc).userInitProcess a fuel = some s₁ ∧
    s = s₁.switchToRing3 init

/-- The states that calls of the processes reach from boot.  An exited process makes no more calls,
and a fork finds a page for the child's PCB: `kmalloc` returns one that is not in use. -/
inductive Run (kern init : Nat) : List Event → Procs → Prop
  | boot {s} (h : Booted kern init s) : Run kern init [] s
  | step {evs s e s'} (h : Run kern init evs s) (ha : s.current ∉ exited evs)
      (hf : ∀ p c, e = .fork p c → c ≠ 0 ∧ c ∉ born kern init evs) (hs : Step kern s e s') :
      Run kern init (e :: evs) s'

/-! ## The ring as the calls alone determine it -/

/-- The processes met from `current`: `tail` leads into the ring `entry :: ring`. -/
structure Loop where
  tail : List Nat
  entry : Nat
  ring : List Nat
deriving DecidableEq, Repr

namespace Loop

def nodes (l : Loop) : List Nat := l.tail ++ l.entry :: l.ring

def cur : Loop → Nat
  | ⟨[], e, _⟩ => e
  | ⟨x :: _, _, _⟩ => x

def fork (c : Nat) : Loop → Loop
  | ⟨[], e, r⟩ => ⟨[], e, c :: r⟩
  | ⟨x :: t, e, r⟩ => ⟨x :: c :: t, e, r⟩

def yield : Loop → Loop
  | ⟨_ :: t, e, r⟩ => ⟨t, e, r⟩
  | ⟨[], e, []⟩ => ⟨[], e, []⟩
  | ⟨[], e, y :: r⟩ => ⟨[], y, r ++ [e]⟩

/-- From the tail the search of `exitSyscall` does not end, and there is no state after it. -/
def exit : Loop → Loop
  | ⟨[], _, y :: r⟩ => ⟨[], y, r⟩
  | l => l

/-- The exchange that `waitpidSyscall` makes takes the successor off the ring. -/
def swap : Loop → Loop
  | ⟨[], e, []⟩ => ⟨[], e, []⟩
  | ⟨[], e, y :: r⟩ => ⟨[y], e, r⟩
  | ⟨[x], e, r⟩ => ⟨[], e, x :: r⟩
  | ⟨x :: y :: t, e, r⟩ => ⟨y :: x :: t, e, r⟩

def step : Event → Loop → Loop
  | .fork _ c, l => l.fork c
  | .yield _, l => l.yield
  | .exit _, l => l.exit
  | .waitpid _ 0, l => l
  | .waitpid _ (_ + 1), l => l.swap

end Loop

def loop (kern init : Nat) (evs : List Event) : Loop := evs.foldr Loop.step ⟨[], init, [kern]⟩

/-! ## Boot -/

variable {kern init : Nat} {evs : List Event} {s s' : Procs}

/-- What boot leaves: the ring, the two PCBs and the two process ids handed out. -/
structure BootState (kern init : Nat) (s : Procs) : Prop where
  current : s.current = init
  next_init : s.nextOf init = kern
  next_kern : s.nextOf kern = init
  last : s.last = 0
  zombie : s.zombie = 0
  pid_kern : (s.pcbs kern).pid = 0
  pid_init : (s.pcbs init).pid = 1
  state_kern : s.stateOf kern = .running
  state_init : s.stateOf init = .new
  slots : ∀ i < maxProcesses, s.pID i ≠ 0 ↔ i < 2

theorem Booted.state (h : Booted kern init s) : BootState kern init s := by
  obtain ⟨hk, hi, hne, s₀, s₁, kstack, cr3, initFunc, fuel, a, hl, hz, rfl, hu, rfl⟩ := h
  set k := s₀.mapProcessID.kernProcess kern kstack cr3 initFunc with hkdef
  have hslots : ∀ i < maxProcesses, k.getPID.2.pID i ≠ 0 ↔ i < 2 := by
    intro i hi'
    change (Function.update (Function.update s₀.mapProcessID.pID 0 1) 1 1) i ≠ 0 ↔ i < 2
    have hm : s₀.mapProcessID.pID i = 0 := if_pos hi'
    by_cases h1 : i = 1
    · simp [h1]
    · by_cases h0 : i = 0
      · simp [h0]
      · rw [Function.update_of_ne h1, Function.update_of_ne h0, hm]
        omega
  have hpid : k.getPID.1 = 1 := rfl
  have hkern : k.pcbs kern = _ := Function.update_self _ _ _
  unfold userInitProcess at hu
  dsimp only at hu
  rw [Option.map_eq_some_iff] at hu
  obtain ⟨temp, hfind, rfl⟩ := hu
  -- the kernel process is alone on the ring, so the search stops at once
  have hnk : ∀ f, (k.getPID.2.modify a.init f).nextOf kern = kern := by
    intro f
    rw [nextOf_modify, Function.update_of_ne hne, nextOf, getPID_pcbs, hkern]
  have htemp : temp = kern := by
    cases fuel with
    | zero => simp [findPred] at hfind
    | succ fuel =>
        rw [findPred] at hfind
        exact (Option.some.inj ((if_pos (hnk _)).symm.trans hfind)).symm
  subst htemp
  refine ⟨rfl, ?_, ?_, hl, hz, ?_, ?_, ?_, ?_, hslots⟩
  · change (((k.getPID.2.modify a.init _).setNext _ _).setNext a.init _).nextOf a.init = _
    rw [nextOf_setNext, Function.update_self]
    rfl
  · change (((k.getPID.2.modify a.init _).setNext _ _).setNext a.init _).nextOf temp = _
    rw [nextOf_setNext, Function.update_of_ne hne, nextOf_setNext, Function.update_self]
  · simp [switchToRing3, setNext, Procs.modify, hne, hkern]
  · simp [switchToRing3, setNext, Procs.modify, hne.symm, hpid]
  · simp [switchToRing3, stateOf, setNext, Procs.modify, hne, hkern]
  · simp [switchToRing3, stateOf, setNext, Procs.modify, hne.symm]

end Sbunix
