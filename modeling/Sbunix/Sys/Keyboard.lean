import Sbunix.Reasoning.Runs
import Sbunix.Sys.Console

/-!
# The keyboard (`sys/isr.c`)

The handler appends the characters of the keys to a buffer of 512 bytes and echoes them while a call
of `scanfstdin` waits.  Interrupts are on in `scanfstdin`, so a key may come between any two of its
steps.
-/

namespace Sbunix

open Reasoning

/-- The characters of the scancodes. -/
def kbdus : List UInt8 :=
  [0, 27] ++ cstr "1234567890-=\x08\tqwertyuiop[]\n" ++ [0] ++ cstr "asdfghjkl;'`" ++ [0] ++
    cstr "\\zxcvbnm,./" ++ [0] ++ cstr "*" ++ [0] ++ cstr " " ++ .replicate 16 0 ++ cstr "-" ++
    .replicate 3 0 ++ cstr "+" ++ .replicate 49 0

/-- The characters that shift replaces one by one. -/
def shiftKeys : List (UInt8 × UInt8) :=
  (cstr "1234567890-=[]\\;',./`").zip (cstr "!@#$%^&*()_+\x7b\x7d|:\"<>?~")

/-- The globals of `isr.c`. -/
structure Keyboard where
  capskey : Bool
  controlkey : Bool
  shiftkey : Bool
  scanFlag : Bool
  buffer : Nat → UInt8
  index : Nat
  localEcho : Bool

def keyValue (scancode : UInt8) : UInt8 := kbdus.getD scancode.toNat 0

/-- The character of a key with shift.  The last test holds of every value. -/
def shiftChar (value : UInt8) (capskey : Bool) : UInt8 :=
  match shiftKeys.lookup value with
  | some c => c
  | none =>
      if value ≥ 97 ∨ value ≤ 122 then if capskey = false then value - 32 else value else chr ' '

abbrev Press (scancode : UInt8) : Prop := scancode &&& 0x80 ≠ 0x80

namespace Keyboard

/-- `buffer[index] = character`, its echo and `index++`. -/
def append (s : Keyboard) (character : UInt8) : Keyboard × List ConsoleOp :=
  ({ s with buffer := Function.update s.buffer s.index character, index := s.index + 1 },
    if s.localEcho then kprintf (cstr "%c") [.int character.toNat] else [])

/-- `irq_handler1` for the scancode that it reads, and what it prints. -/
def irqHandler1 (s : Keyboard) (scancode : UInt8) : Keyboard × List ConsoleOp :=
  let value := keyValue scancode
  if scancode = 0x1d then ({ s with controlkey := true }, [])
  else if scancode = 0x9d then ({ s with controlkey := false }, [])
  else if s.controlkey then (s, [])
  else if scancode = 0x2a ∨ scancode = 0x36 then ({ s with shiftkey := true }, [])
  else if scancode = 0xaa ∨ scancode = 0xb6 then ({ s with shiftkey := false }, [])
  else if scancode = 0x3a then ({ s with capskey := !s.capskey }, [])
  -- caps lock prints the character and does not store it
  else if s.capskey then
    if Press scancode then (s, kprintf (cstr "%c") [.int ((value.toNat : Int) - 32)]) else (s, [])
  else if s.shiftkey then
    if Press scancode then s.append (shiftChar value s.capskey) else (s, [])
  else if scancode = 0x0e then
    if s.localEcho ∧ s.index > 0 then ({ s with index := s.index - 1 }, [.backspace]) else (s, [])
  -- tab, escape and delete
  else if scancode = 0x0f ∨ scancode = 0x01 ∨ scancode = 0x53 then (s, [])
  else if scancode = 0x1c then ({ s with scanFlag := false }, [])
  -- the arrows
  else if scancode = 0x48 ∨ scancode = 0x4b ∨ scancode = 0x50 ∨ scancode = 0x4d then (s, [])
  else if Press scancode ∧ ¬ s.shiftkey then s.append value
  else (s, [])

end Keyboard

/-! ## What a key does -/

/-- The keys of shift, control and caps lock. -/
def Modifier (scancode : UInt8) : Prop :=
  scancode = 0x1d ∨ scancode = 0x9d ∨ scancode = 0x2a ∨ scancode = 0x36 ∨ scancode = 0xaa ∨
    scancode = 0xb6 ∨ scancode = 0x3a

/-- The keys without a character. -/
def Special (scancode : UInt8) : Prop :=
  scancode = 0x0e ∨ (scancode = 0x0f ∨ scancode = 0x01 ∨ scancode = 0x53) ∨ scancode = 0x1c ∨
    scancode = 0x48 ∨ scancode = 0x4b ∨ scancode = 0x50 ∨ scancode = 0x4d

instance (scancode : UInt8) : Decidable (Modifier scancode) := inferInstanceAs (Decidable (_ ∨ _))

instance (scancode : UInt8) : Decidable (Special scancode) := inferInstanceAs (Decidable (_ ∨ _))

namespace Keyboard

/-- A press that is no command. -/
def Types (s : Keyboard) (scancode : UInt8) : Prop :=
  s.controlkey = false ∧ ¬ Modifier scancode ∧ Press scancode

/-- The key is stored in the buffer. -/
def Stores (s : Keyboard) (scancode : UInt8) : Prop :=
  s.Types scancode ∧ s.capskey = false ∧ (s.shiftkey = true ∨ ¬ Special scancode)

instance (s : Keyboard) (scancode : UInt8) : Decidable (s.Stores scancode) :=
  inferInstanceAs (Decidable ((_ ∧ _ ∧ _) ∧ _ ∧ _))

/-- What stays for a key that is neither stored nor erases nor ends a line. -/
structure SameLine (s s' : Keyboard) : Prop where
  scanFlag : s'.scanFlag = s.scanFlag
  buffer : s'.buffer = s.buffer
  index : s'.index = s.index
  localEcho : s'.localEcho = s.localEcho

end Keyboard

variable {s s' : Keyboard} {scancode : UInt8}

open Keyboard

/-- Nothing is printed, and the line stays. -/
def LeavesLine (s : Keyboard) (r : Keyboard × List ConsoleOp) : Prop := SameLine s r.1 ∧ r.2 = []

theorem LeavesLine.refl (s : Keyboard) : LeavesLine s (s, []) := ⟨⟨rfl, rfl, rfl, rfl⟩, rfl⟩

theorem LeavesLine.ite {p : Prop} [Decidable p] {a b : Keyboard × List ConsoleOp} (ha : LeavesLine s a)
    (hb : ¬ p → LeavesLine s b) : LeavesLine s (if p then a else b) := iteInduction (fun _ ↦ ha) hb

/-- The handler behind the tests of the modifiers. -/
theorem irqHandler1_types (h : s.Types scancode) : s.irqHandler1 scancode =
    if s.capskey then (s, printc (keyValue scancode - 32))
    else if s.shiftkey then s.append (shiftChar (keyValue scancode) s.capskey)
    else if scancode = 0x0e then
      if s.localEcho ∧ s.index > 0 then ({ s with index := s.index - 1 }, [.backspace]) else (s, [])
    else if scancode = 0x0f ∨ scancode = 0x01 ∨ scancode = 0x53 then (s, [])
    else if scancode = 0x1c then ({ s with scanFlag := false }, [])
    else if scancode = 0x48 ∨ scancode = 0x4b ∨ scancode = 0x50 ∨ scancode = 0x4d then (s, [])
    else if ¬ s.shiftkey then s.append (keyValue scancode)
    else (s, []) := by
  obtain ⟨hctl, hmod, hpress⟩ := h
  unfold Modifier at hmod
  rw [not_or, not_or, not_or, not_or, not_or, not_or] at hmod
  obtain ⟨h₁, h₂, h₃, h₄, h₅, h₆, h₇⟩ := hmod
  -- 32 less, as an `int` that is cut to a byte
  have hlow : ((((keyValue scancode).toNat : Int) - 32) % 256).toNat.toUInt8 =
      keyValue scancode - 32 := by
    apply UInt8.toNat_inj.mp
    rw [UInt8.toNat_sub]
    show _ % 256 = _
    have := (keyValue scancode).toNat_lt
    change _ = (256 - 32 + (keyValue scancode).toNat) % 256
    omega
  unfold irqHandler1
  dsimp only
  rw [if_neg h₁, if_neg h₂, if_neg (by rw [hctl]; decide), if_neg (not_or.mpr ⟨h₃, h₄⟩),
    if_neg (not_or.mpr ⟨h₅, h₆⟩), if_neg h₇, if_pos hpress, if_pos hpress, kprintf_char, hlow]
  simp only [eq_true hpress, true_and]

/-- Modifiers, releases and all keys with control leave the line alone. -/
theorem irqHandler1_quiet (h : ¬ s.Types scancode) : LeavesLine s (s.irqHandler1 scancode) := by
  have hmod : ∀ a b c, LeavesLine s ({ s with capskey := a, controlkey := b, shiftkey := c }, []) :=
    fun _ _ _ ↦ ⟨⟨rfl, rfl, rfl, rfl⟩, rfl⟩
  unfold irqHandler1
  dsimp only
  -- the tests of the modifiers and of control, in the order of the source
  refine .ite (hmod _ _ _) fun h₁ ↦ .ite (hmod _ _ _) fun h₂ ↦ .ite (.refl s) fun hctl ↦
    .ite (hmod _ _ _) fun h₃ ↦ .ite (hmod _ _ _) fun h₄ ↦ .ite (hmod _ _ _) fun h₅ ↦ ?_
  have hpress : ¬ Press scancode := by
    refine fun hpress ↦ h ⟨Bool.eq_false_of_not_eq_true hctl, ?_, hpress⟩
    rw [not_or] at h₃ h₄
    rintro (h | h | h | h | h | h | h)
    · exact h₁ h
    · exact h₂ h
    · exact h₃.1 h
    · exact h₃.2 h
    · exact h₄.1 h
    · exact h₄.2 h
    · exact h₅ h
  -- backspace and enter are presses
  have hne : ∀ c, Press c → scancode ≠ c := fun c hc he ↦ hpress (by rw [he]; exact hc)
  rw [if_neg hpress, if_neg hpress, if_neg (hne 0x0e (by decide)),
    if_neg (hne 0x1c (by decide)), if_neg (not_and_of_not_left _ hpress)]
  exact .ite (.refl s) fun _ ↦ .ite (.refl s) fun _ ↦ .ite (.refl s) fun _ ↦ .ite (.refl s) fun _ ↦
    .refl s

/-- No key but control sets `controlkey`. -/
theorem irqHandler1_controlkey (h : s.controlkey = false) (hsc : scancode ≠ 0x1d) :
    (s.irqHandler1 scancode).1.controlkey = false := by
  have hite : ∀ (p : Prop) [Decidable p] (a b : Keyboard × List ConsoleOp),
      a.1.controlkey = false → b.1.controlkey = false →
        (if p then a else b).1.controlkey = false :=
    fun p _ a b ha hb ↦ iteInduction
      (motive := fun r : Keyboard × List ConsoleOp ↦ r.1.controlkey = false) (fun _ ↦ ha) fun _ ↦ hb
  unfold irqHandler1
  dsimp only
  rw [if_neg hsc]
  repeat' apply hite
  all_goals first | exact h | rfl

theorem irqHandler1_stores (h : s.Stores scancode) : ∃ c, s.irqHandler1 scancode = s.append c := by
  obtain ⟨htypes, hcaps, hkey⟩ := h
  rw [irqHandler1_types htypes, hcaps, if_neg Bool.false_ne_true]
  cases hshift : s.shiftkey with
  | true => exact ⟨_, if_pos rfl⟩
  | false =>
      have hspecial : ¬ Special scancode := hkey.resolve_left (by rw [hshift]; decide)
      obtain ⟨h₁, hspecial⟩ := not_or.mp hspecial
      obtain ⟨h₂, hspecial⟩ := not_or.mp hspecial
      obtain ⟨h₃, h₄⟩ := not_or.mp hspecial
      refine ⟨keyValue scancode, ?_⟩
      rw [if_neg Bool.false_ne_true, if_neg h₁, if_neg h₂, if_neg h₃, if_neg h₄,
        if_pos Bool.false_ne_true]

/-- Caps lock prints and stores nothing. -/
theorem irqHandler1_caps (h : s.Types scancode) (hcaps : s.capskey = true) :
    s.irqHandler1 scancode = (s, printc (keyValue scancode - 32)) := by
  rw [irqHandler1_types h, hcaps, if_pos rfl]

/-- A key that types and is not stored, without caps lock. -/
theorem special_of_not_stores (h : s.Types scancode) (hcaps : s.capskey = false)
    (hstores : ¬ s.Stores scancode) : s.shiftkey = false ∧ Special scancode := by
  by_contra hc
  refine hstores ⟨h, hcaps, ?_⟩
  cases hshift : s.shiftkey with
  | true => exact .inl rfl
  | false => exact .inr fun hs ↦ hc ⟨hshift, hs⟩

/-- The keys without a character, when neither caps lock nor shift is on. -/
theorem irqHandler1_special (h : s.Types scancode) (hcaps : s.capskey = false)
    (hshift : s.shiftkey = false) (hkey : Special scancode) : s.irqHandler1 scancode =
      if scancode = 0x0e ∧ s.localEcho ∧ s.index > 0 then
        ({ s with index := s.index - 1 }, [.backspace])
      else if scancode = 0x1c then ({ s with scanFlag := false }, [])
      else (s, []) := by
  rw [irqHandler1_types h, hcaps, hshift, if_neg Bool.false_ne_true, if_neg Bool.false_ne_true]
  rcases hkey with rfl | (rfl | rfl | rfl) | rfl | rfl | rfl | rfl | rfl
  · by_cases herase : s.localEcho = true ∧ s.index > 0
    · rw [if_pos rfl, if_pos herase, if_pos ⟨rfl, herase⟩]
    · rw [if_pos rfl, if_neg herase, if_neg fun h ↦ herase h.2]
      rfl
  all_goals rfl

/-! ## Reading a line -/

/-- Where a call of `scanfstdin` is. -/
inductive ScanPc where
  | idle | waiting | left | stored | copied
deriving DecidableEq

/-- The keyboard and the reader, with the line that it has copied and its length. -/
structure Stdin extends Keyboard where
  pc : ScanPc
  line : List UInt8
  scanLength : Nat

/-- A scancode arrives, or the reader makes its next step. -/
inductive StdinEvent where
  | key (scancode : UInt8)
  | scan

namespace Stdin

/-- The steps of `scanfstdin`: `scanFlag = 1; localEcho = 1`, the test of the loop and
`localEcho = 0`, `buffer[index++] = '\0'`, the copy, `scanLength = index; index = 0`. -/
def scanfstdin (s : Stdin) : Stdin :=
  match s.pc with
  | .idle => { s with scanFlag := true, localEcho := true, pc := .waiting }
  | .waiting => if s.scanFlag then s else { s with localEcho := false, pc := .left }
  | .left =>
      { s with buffer := Function.update s.buffer s.index 0, index := s.index + 1, pc := .stored }
  | .stored => { s with line := (List.range s.index).map s.buffer, pc := .copied }
  | .copied => { s with scanLength := s.index, index := 0, pc := .idle }

def step (s : Stdin) : StdinEvent → Stdin
  | .key scancode => { s with toKeyboard := (s.irqHandler1 scancode).1 }
  | .scan => s.scanfstdin

end Stdin

end Sbunix
