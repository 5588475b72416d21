import Sbunix.Sys.LineBuffer

/-!
# Lines (`sys/isr.c`)

A terminal hands out the lines that are typed: a character goes to the end of the line, backspace takes
the last one away, and enter completes the line while a reader waits.  The handler of the keyboard and
`scanfstdin`, with a key between any two steps of it, are such a terminal.
-/

namespace Sbunix

open Reasoning Keyboard

/-! ## The terminal -/

inductive TermKey where
  | shift (down : Bool)
  | erase
  | enter
  | char (value : UInt8)
  | other

/-- Keys that are for a line. -/
def TermKey.Types : TermKey → Prop
  | .erase | .enter | .char _ => True
  | _ => False

inductive TermPhase where
  | idle | editing | entered
deriving DecidableEq

/-- The line so far, and the lines that were handed out. -/
structure Terminal where
  text : CString
  shiftkey : Bool
  phase : TermPhase
  read : List CString

namespace Terminal

/-- The character of a key. -/
def char (t : Terminal) (value : UInt8) : UInt8 := if t.shiftkey then shiftChar value false else value

/-- What is typed ahead of a reader cannot be taken back. -/
def press (t : Terminal) : TermKey → Terminal
  | .shift down => { t with shiftkey := down }
  | .erase => if t.phase = .editing then { t with text := t.text.dropLast } else t
  | .enter => if t.phase = .editing then { t with phase := .entered } else t
  | .char value => { t with text := t.text ++ [t.char value] }
  | .other => t

/-- A reader asks for a line. -/
def ask (t : Terminal) : Terminal := { t with phase := .editing }

/-- The reader has its line. -/
def answer (t : Terminal) : Terminal where
  text := []
  shiftkey := t.shiftkey
  phase := .idle
  read := t.read ++ [t.text]

end Terminal

/-- The key of a scancode. -/
def termKey (scancode : UInt8) : TermKey :=
  if scancode = 0x2a ∨ scancode = 0x36 then .shift true
  else if scancode = 0xaa ∨ scancode = 0xb6 then .shift false
  else if ¬ Press scancode then .other
  else if scancode = 0x0e then .erase
  else if scancode = 0x1c then .enter
  else if Special scancode then .other
  else .char (keyValue scancode)

variable {s : Keyboard} {scancode : UInt8}

/-- What a key does to the keyboard. -/
def Keyboard.press (s : Keyboard) : TermKey → Keyboard
  | .shift down => { s with shiftkey := down }
  | .erase => if s.localEcho ∧ s.index > 0 then { s with index := s.index - 1 } else s
  | .enter => { s with scanFlag := false }
  | .char value => (s.append (if s.shiftkey then shiftChar value false else value)).1
  | .other => s

/-- No caps lock and no control, and no key without a character with shift. -/
structure SimpleKey (s : Keyboard) (scancode : UInt8) : Prop where
  controlkey : s.controlkey = false
  capskey : s.capskey = false
  control : scancode ≠ 0x1d
  caps : scancode ≠ 0x3a
  special : Press scancode → Special scancode → s.shiftkey = false

theorem SimpleKey.modifier (h : SimpleKey s scancode) (hmod : Modifier scancode) :
    (s.irqHandler1 scancode).1 = s.press (termKey scancode) := by
  obtain ⟨hctl, hcaps, hcontrol, hcapslock, hspecial⟩ := h
  obtain ⟨capskey, controlkey, shiftkey, scanFlag, buffer, index, localEcho⟩ := s
  obtain rfl : controlkey = false := hctl
  unfold Modifier at hmod
  -- control and caps lock are out
  rcases hmod with h | rfl | rfl | rfl | rfl | rfl | h
  · exact absurd h hcontrol
  · rfl
  · rfl
  · rfl
  · rfl
  · rfl
  · exact absurd h hcapslock

theorem not_shift (hmod : ¬ Modifier scancode) :
    ¬ (scancode = 0x2a ∨ scancode = 0x36) ∧ ¬ (scancode = 0xaa ∨ scancode = 0xb6) := by
  unfold Modifier at hmod
  tauto

theorem SimpleKey.pressed (h : SimpleKey s scancode) (hmod : ¬ Modifier scancode)
    (hpress : Press scancode) : (s.irqHandler1 scancode).1 = s.press (termKey scancode) := by
  obtain ⟨hshift, hrelease⟩ := not_shift hmod
  have htypes : s.Types scancode := ⟨h.controlkey, hmod, hpress⟩
  rw [termKey, if_neg hshift, if_neg hrelease, if_neg (not_not.mpr hpress)]
  by_cases hspec : Special scancode
  · have hup := h.special hpress hspec
    rw [irqHandler1_special htypes h.capskey hup hspec, if_pos hspec]
    by_cases herase : scancode = 0x0e
    · rw [if_pos herase, Keyboard.press]
      by_cases hline : s.localEcho = true ∧ s.index > 0
      · rw [if_pos ⟨herase, hline⟩, if_pos hline]
      · rw [if_neg fun h ↦ hline h.2, if_neg hline, if_neg (by rw [herase]; decide)]
    · rw [if_neg herase, if_neg fun h ↦ herase h.1]
      by_cases henter : scancode = 0x1c
      · rw [if_pos henter, if_pos henter]
        rfl
      · rw [if_neg henter, if_neg henter]
        rfl
  · have herase : scancode ≠ 0x0e := fun h ↦ hspec (.inl h)
    have henter : scancode ≠ 0x1c := fun h ↦ hspec (.inr (.inr (.inl h)))
    rw [if_neg herase, if_neg henter, if_neg hspec, irqHandler1_types htypes, h.capskey,
      if_neg Bool.false_ne_true, if_neg herase]
    obtain ⟨-, hspec⟩ := not_or.mp hspec
    obtain ⟨hnone, hspec⟩ := not_or.mp hspec
    obtain ⟨-, harrow⟩ := not_or.mp hspec
    rw [if_neg hnone, if_neg henter, if_neg harrow, Keyboard.press]
    cases s.shiftkey with
    | true => rfl
    | false => rfl

/-- A release has no effect. -/
theorem SimpleKey.released (h : SimpleKey s scancode) (hmod : ¬ Modifier scancode)
    (hpress : ¬ Press scancode) : (s.irqHandler1 scancode).1 = s.press (termKey scancode) := by
  obtain ⟨hshift, hrelease⟩ := not_shift hmod
  have hne (c : UInt8) (hc : Press c) : scancode ≠ c := fun he ↦ hpress (by rw [he]; exact hc)
  have hup : scancode ≠ 0x9d := fun h ↦ hmod (.inr (.inl h))
  have hnone : ¬ (scancode = 0x0f ∨ scancode = 0x01 ∨ scancode = 0x53) := by
    rintro (h | h | h)
    · exact hne 0x0f (by decide) h
    · exact hne 0x01 (by decide) h
    · exact hne 0x53 (by decide) h
  have harrow : ¬ (scancode = 0x48 ∨ scancode = 0x4b ∨ scancode = 0x50 ∨ scancode = 0x4d) := by
    rintro (h | h | h | h)
    · exact hne 0x48 (by decide) h
    · exact hne 0x4b (by decide) h
    · exact hne 0x50 (by decide) h
    · exact hne 0x4d (by decide) h
  rw [termKey, if_neg hshift, if_neg hrelease]
  unfold irqHandler1
  dsimp only
  rw [if_neg h.control, if_neg hup, h.controlkey, if_neg Bool.false_ne_true, if_neg hshift,
    if_neg hrelease, if_neg h.caps, h.capskey, if_neg Bool.false_ne_true, if_neg hpress,
    if_neg (hne 0x0e (by decide)), if_neg hnone, if_neg (hne 0x1c (by decide)), if_neg harrow,
    if_neg (not_and_of_not_left _ hpress), ite_self, if_pos hpress]
  rfl

theorem irqHandler1_press (h : SimpleKey s scancode) :
    (s.irqHandler1 scancode).1 = s.press (termKey scancode) := by
  by_cases hmod : Modifier scancode
  · exact h.modifier hmod
  by_cases hpress : Press scancode
  · exact h.pressed hmod hpress
  · exact h.released hmod hpress

/-! ## The keyboard and its reader as a terminal -/

/-- The keyboard with its reader and the terminal that they are to be, and the lines that the reader has
handed out. -/
structure Session where
  stdin : Stdin
  terminal : Terminal
  handed : List (List UInt8)

namespace Session

def step (s : Session) : StdinEvent → Session
  | .key scancode =>
      { s with
        stdin := s.stdin.step (.key scancode)
        terminal := s.terminal.press (termKey scancode) }
  | .scan =>
      match s.stdin.pc with
      | .idle => { s with stdin := s.stdin.scanfstdin, terminal := s.terminal.ask }
      | .copied =>
          { stdin := s.stdin.scanfstdin
            terminal := s.terminal.answer
            handed := s.handed ++ [s.stdin.line] }
      | _ => { s with stdin := s.stdin.scanfstdin }

/-- What the step of the reader says of the terminal. -/
def InPhase (s : Session) : Prop :=
  match s.stdin.pc with
  | .idle => s.terminal.phase = .idle ∧ s.stdin.localEcho = false ∧
      s.stdin.index = s.terminal.text.length
  | .waiting => s.terminal.phase = (if s.stdin.scanFlag then .editing else .entered) ∧
      s.stdin.localEcho = true ∧ s.stdin.index = s.terminal.text.length
  | .left => s.terminal.phase = .entered ∧ s.stdin.localEcho = false ∧
      s.stdin.index = s.terminal.text.length
  | .stored => s.terminal.phase = .entered ∧ s.stdin.localEcho = false ∧
      s.stdin.index = s.terminal.text.length + 1 ∧ s.stdin.buffer s.terminal.text.length = 0
  | .copied => s.terminal.phase = .entered ∧ s.stdin.localEcho = false ∧
      s.stdin.line = s.terminal.text ++ [0]

/-- The line of the terminal is in the buffer, and its lines with their NULs are those that the reader
has handed out. -/
structure Agrees (s : Session) : Prop where
  controlkey : s.stdin.controlkey = false
  capskey : s.stdin.capskey = false
  shiftkey : s.stdin.shiftkey = s.terminal.shiftkey
  room : s.terminal.text.length ≤ 511
  text : (List.range s.terminal.text.length).map s.stdin.buffer = s.terminal.text
  phase : s.InPhase
  handed : s.handed = s.terminal.read.map (· ++ [0])

/-- Nothing is typed from enter until the reader has its line, and there is room for what is typed and
for the NUL. -/
def Orderly (s : Session) : StdinEvent → Prop
  | .key scancode => SimpleKey s.stdin.toKeyboard scancode ∧
      ((termKey scancode).Types → s.terminal.phase ≠ .entered) ∧
        ∀ value, termKey scancode = .char value → s.terminal.text.length < 511
  | .scan => True

variable {s : Session} {key : TermKey} {e : StdinEvent} {evs : List StdinEvent}

theorem Agrees.pc_editing (h : s.Agrees) (he : s.terminal.phase = .editing) :
    s.stdin.pc = .waiting ∧ s.stdin.scanFlag = true := by
  have hphase := h.phase
  unfold InPhase at hphase
  rw [he] at hphase
  cases hpc : s.stdin.pc with
  | waiting =>
      rw [hpc] at hphase
      refine ⟨rfl, ?_⟩
      cases hflag : s.stdin.scanFlag with
      | true => rfl
      | false =>
          rw [hflag] at hphase
          cases hphase.1
  | _ =>
      rw [hpc] at hphase
      cases hphase.1

theorem Agrees.pc_idle (h : s.Agrees) (hi : s.terminal.phase = .idle) : s.stdin.pc = .idle := by
  have hphase := h.phase
  unfold InPhase at hphase
  rw [hi] at hphase
  cases hpc : s.stdin.pc with
  | idle => rfl
  | waiting =>
      rw [hpc] at hphase
      cases hflag : s.stdin.scanFlag with
      | _ =>
          rw [hflag] at hphase
          cases hphase.1
  | _ =>
      rw [hpc] at hphase
      cases hphase.1

/-- The session behind a key, in terms of what the key is. -/
def press (s : Session) (key : TermKey) : Session :=
  { s with
    stdin := { s.stdin with toKeyboard := s.stdin.toKeyboard.press key }
    terminal := s.terminal.press key }

theorem Agrees.idle_or_editing (h : s.Agrees) (hp : s.terminal.phase ≠ .entered) :
    (s.terminal.phase = .idle ∧ s.stdin.pc = .idle ∧ s.stdin.localEcho = false) ∨
      (s.terminal.phase = .editing ∧ s.stdin.pc = .waiting ∧ s.stdin.scanFlag = true ∧
        s.stdin.localEcho = true) := by
  have hphase := h.phase
  unfold InPhase at hphase
  cases hs : s.terminal.phase with
  | idle =>
      have hpc := h.pc_idle hs
      rw [hpc] at hphase
      exact .inl ⟨rfl, hpc, hphase.2.1⟩
  | editing =>
      obtain ⟨hpc, hflag⟩ := h.pc_editing hs
      rw [hpc] at hphase
      exact .inr ⟨rfl, hpc, hflag, hphase.2.1⟩
  | entered => exact absurd hs hp

/-- Before enter the index is the length of the line. -/
theorem Agrees.index (h : s.Agrees) (hp : s.terminal.phase ≠ .entered) :
    s.stdin.index = s.terminal.text.length := by
  have hphase := h.phase
  unfold InPhase at hphase
  rcases h.idle_or_editing hp with ⟨-, hpc, -⟩ | ⟨-, hpc, -⟩
  · rw [hpc] at hphase
    exact hphase.2.2
  · rw [hpc] at hphase
    exact hphase.2.2

/-- Backspace takes the last character from the buffer as well, or from neither. -/
theorem Agrees.erase (h : s.Agrees) (hp : s.terminal.phase ≠ .entered) : (s.press .erase).Agrees := by
  have hindex := h.index hp
  rcases h.idle_or_editing hp with ⟨hidle, hpc, hecho⟩ | ⟨hedit, hpc, hflag, hecho⟩
  · -- nothing is echoed, so nothing is erased
    have hkey : s.stdin.toKeyboard.press .erase = s.stdin.toKeyboard :=
      if_neg fun hc ↦ Bool.false_ne_true (hecho.symm.trans hc.1)
    have hterm : s.terminal.press .erase = s.terminal := if_neg (by rw [hidle]; decide)
    rw [press, hkey, hterm]
    exact h
  have hterm : s.terminal.press .erase = { s.terminal with text := s.terminal.text.dropLast } :=
    if_pos hedit
  rcases List.eq_nil_or_concat' s.terminal.text with htext | ⟨l, c, htext⟩
  · rw [htext] at hindex
    have hkey : s.stdin.toKeyboard.press .erase = s.stdin.toKeyboard :=
      if_neg fun hc ↦ absurd hc.2 (by rw [hindex]; exact Nat.lt_irrefl 0)
    rw [press, hkey, hterm, htext, List.dropLast_nil, ← htext]
    exact h
  · have hline := h.text
    have hroom := h.room
    rw [htext, List.length_append, List.length_singleton] at hindex hline hroom
    rw [List.range_succ, List.map_append] at hline
    have hkey : s.stdin.toKeyboard.press .erase =
        { s.stdin.toKeyboard with index := s.stdin.index - 1 } := if_pos ⟨hecho, by omega⟩
    rw [press, hkey, hterm, htext, List.dropLast_concat]
    refine ⟨h.controlkey, h.capskey, h.shiftkey, Nat.le_of_succ_le hroom,
      (List.append_inj' hline rfl).1, ?_, h.handed⟩
    unfold InPhase
    dsimp only
    rw [hpc, hflag, hindex]
    exact ⟨hedit, hecho, rfl⟩

/-- Enter completes the line of a reader that waits, and nothing else. -/
theorem Agrees.enter (h : s.Agrees) (hp : s.terminal.phase ≠ .entered) : (s.press .enter).Agrees := by
  have hindex := h.index hp
  rcases h.idle_or_editing hp with ⟨hidle, hpc, hecho⟩ | ⟨hedit, hpc, -, hecho⟩
  · have hterm : s.terminal.press .enter = s.terminal := if_neg (by rw [hidle]; decide)
    rw [press, hterm]
    refine ⟨h.controlkey, h.capskey, h.shiftkey, h.room, h.text, ?_, h.handed⟩
    show InPhase _
    unfold InPhase
    dsimp only
    rw [hpc]
    exact ⟨hidle, hecho, hindex⟩
  · have hterm : s.terminal.press .enter = { s.terminal with phase := .entered } := if_pos hedit
    rw [press, hterm]
    refine ⟨h.controlkey, h.capskey, h.shiftkey, h.room, h.text, ?_, h.handed⟩
    show InPhase _
    unfold InPhase
    dsimp only
    rw [hpc]
    exact ⟨rfl, hecho, hindex⟩

/-- A character goes to the end of both. -/
theorem Agrees.char {value : UInt8} (h : s.Agrees) (hp : s.terminal.phase ≠ .entered)
    (hroom : s.terminal.text.length < 511) : (s.press (.char value)).Agrees := by
  have hindex := h.index hp
  have hchar : (if s.stdin.shiftkey then shiftChar value false else value) = s.terminal.char value := by
    rw [Terminal.char, h.shiftkey]
  have hlen : (s.terminal.text ++ [s.terminal.char value]).length = s.terminal.text.length + 1 :=
    List.length_append
  refine ⟨h.controlkey, h.capskey, h.shiftkey, hlen.le.trans hroom, ?_, ?_, h.handed⟩
  · show (List.range (s.terminal.text ++ [s.terminal.char value]).length).map
      (Function.update s.stdin.buffer s.stdin.index _) = s.terminal.text ++ [s.terminal.char value]
    rw [hlen, hindex, hchar, range_map_update, h.text]
  · have hnext : s.stdin.index + 1 = (s.terminal.text ++ [s.terminal.char value]).length := by
      rw [hlen, hindex]
    rcases h.idle_or_editing hp with ⟨hidle, hpc, hecho⟩ | ⟨hedit, hpc, hflag, hecho⟩
    · show InPhase _
      unfold InPhase
      rw [show (s.press (.char value)).stdin.pc = .idle from hpc]
      exact ⟨hidle, hecho, hnext⟩
    · show InPhase _
      unfold InPhase
      rw [show (s.press (.char value)).stdin.pc = .waiting from hpc]
      refine ⟨?_, hecho, hnext⟩
      rw [show (s.press (.char value)).stdin.scanFlag = true from hflag]
      exact hedit

theorem Agrees.press (h : s.Agrees) (hp : key.Types → s.terminal.phase ≠ .entered)
    (hroom : ∀ value, key = .char value → s.terminal.text.length < 511) : (s.press key).Agrees := by
  cases key with
  | shift down => exact ⟨h.controlkey, h.capskey, rfl, h.room, h.text, h.phase, h.handed⟩
  | erase => exact h.erase (hp trivial)
  | enter => exact h.enter (hp trivial)
  | char value => exact h.char (hp trivial) (hroom value rfl)
  | other => exact h

/-- A step of the reader. -/
theorem Agrees.scan (h : s.Agrees) : (s.step .scan).Agrees := by
  have hphase := h.phase
  unfold InPhase at hphase
  unfold step Stdin.scanfstdin
  cases hpc : s.stdin.pc with
  | idle =>
      rw [hpc] at hphase
      obtain ⟨-, -, hindex⟩ := hphase
      exact ⟨h.controlkey, h.capskey, h.shiftkey, h.room, h.text, ⟨rfl, rfl, hindex⟩, h.handed⟩
  | waiting =>
      rw [hpc] at hphase
      obtain ⟨hterm, hecho, hindex⟩ := hphase
      dsimp only
      cases hflag : s.stdin.scanFlag with
      | true =>
          rw [if_pos rfl]
          exact h
      | false =>
          rw [hflag] at hterm
          rw [if_neg Bool.false_ne_true]
          exact ⟨h.controlkey, h.capskey, h.shiftkey, h.room, h.text, ⟨hterm, rfl, hindex⟩, h.handed⟩
  | left =>
      rw [hpc] at hphase
      obtain ⟨hterm, hecho, hindex⟩ := hphase
      -- the NUL goes behind the line
      have hline : (List.range s.terminal.text.length).map
          (Function.update s.stdin.buffer s.stdin.index 0) = s.terminal.text := by
        conv_rhs => rw [← h.text]
        refine List.map_congr_left fun i hi ↦ Function.update_of_ne ?_ 0 s.stdin.buffer
        rw [hindex]
        exact (List.mem_range.mp hi).ne
      refine ⟨h.controlkey, h.capskey, h.shiftkey, h.room, hline, ?_, h.handed⟩
      refine ⟨hterm, hecho, congrArg (· + 1) hindex, ?_⟩
      rw [← hindex]
      exact Function.update_self _ _ _
  | stored =>
      rw [hpc] at hphase
      obtain ⟨hterm, hecho, hindex, hnul⟩ := hphase
      refine ⟨h.controlkey, h.capskey, h.shiftkey, h.room, h.text, ⟨hterm, hecho, ?_⟩, h.handed⟩
      show (List.range s.stdin.index).map s.stdin.buffer = s.terminal.text ++ [0]
      rw [hindex, List.range_succ, List.map_append, h.text, List.map_singleton, hnul]
  | copied =>
      rw [hpc] at hphase
      obtain ⟨-, hecho, hline⟩ := hphase
      refine ⟨h.controlkey, h.capskey, h.shiftkey, Nat.zero_le _, rfl, ⟨rfl, hecho, rfl⟩, ?_⟩
      show s.handed ++ [s.stdin.line] = (s.terminal.read ++ [s.terminal.text]).map (· ++ [0])
      rw [List.map_append, h.handed, hline]
      rfl

theorem Agrees.step (h : s.Agrees) (he : s.Orderly e) : (s.step e).Agrees := by
  cases e with
  | scan => exact h.scan
  | key scancode =>
      obtain ⟨hsimple, htypes, hroom⟩ := he
      have hstep : s.step (.key scancode) = s.press (termKey scancode) := by
        rw [Session.press, ← irqHandler1_press hsimple]
        rfl
      rw [hstep]
      exact h.press htypes hroom

/-- All keys are up, and nothing is typed. -/
def start : Session where
  stdin := ⟨⟨false, false, false, false, fun _ ↦ 0, 0, false⟩, .idle, [], 0⟩
  terminal := ⟨[], false, .idle, []⟩
  handed := []

theorem start_agrees : start.Agrees :=
  ⟨rfl, rfl, rfl, Nat.zero_le _, rfl, ⟨rfl, rfl, rfl⟩, rfl⟩

end Session

/-- In every orderly run of keys and steps of the reader, in any order, the reader hands out the lines of
the terminal, each with its NUL. -/
theorem lines_handed (h : AllSteps Session.step Session.Orderly Session.start evs) :
    AllStates Session.step (fun s ↦ s.handed = s.terminal.read.map (· ++ [0])) Session.start evs := by
  have hrun := (AllSteps.invariant (Q := fun _ _ ↦ True)
    (fun s hs e he ↦ ⟨Session.Agrees.step hs he, trivial⟩) Session.start_agrees h).1
  exact fun pre post hl ↦ (hrun pre post hl).handed

/-- A line of two letters, with a third that is taken back. -/
def lsKeys : List StdinEvent :=
  [.scan, .key 0x26, .key 0x25, .scan, .key 0x0e, .key 0x1f, .key 0x1c, .scan, .scan, .scan, .scan]

theorem lines_handed_ls : (lsKeys.foldl Session.step Session.start).handed = [cstr "ls" ++ [0]] := by
  have hrun : AllSteps Session.step Session.Orderly Session.start lsKeys := by
    unfold lsKeys
    rw [allSteps_cons, allSteps_cons, allSteps_cons, allSteps_cons, allSteps_cons, allSteps_cons,
      allSteps_cons, allSteps_cons, allSteps_cons, allSteps_cons, allSteps_cons]
    refine ⟨trivial, ?_, ?_, trivial, ?_, ?_, ?_, trivial, trivial, trivial, trivial, allSteps_nil⟩
    all_goals
      exact ⟨⟨rfl, rfl, by decide, by decide, fun _ _ ↦ rfl⟩, fun _ ↦ by decide, fun _ _ ↦ by decide⟩
  have hlines := lines_handed hrun lsKeys [] (List.append_nil _).symm
  rw [hlines]
  decide

end Sbunix
