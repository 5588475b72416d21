import Sbunix.Reasoning.ByteMemory
import Sbunix.Sys.Process

/-!
# The console (`sys/kprintf.c`)

The text screen has 25 rows of 80 cells, two bytes a cell.  `video` is where the next character goes
and `xp`, `yp` are the column and the row that go with it.  What `kprintf` prints is a list of calls
of `write`, `newline` and `car_return`, which are run on the screen.
-/

namespace Sbunix

open Reasoning

/-- The screen in the kernel's window. -/
def screenBase : Nat := 0xffffffff800B8000

/-- The attribute that goes with each character. -/
def color : UInt8 := 7

/-- The screen's memory and the globals of `kprintf.c`. -/
structure Console where
  mem : Memory
  video : Nat
  xp : Nat
  yp : Nat

inductive ConsoleOp where
  | write (c : UInt8)
  | newline
  | carReturn
  | scroll
  | clearScreen
  | backspace
deriving DecidableEq, Repr

namespace Console

def backspace (s : Console) : Console :=
  let mem := Function.update (Function.update s.mem (s.video - 1) 0) (s.video - 2) 0
  let s := { s with mem := mem, video := s.video - 2 }
  -- the column behind the last one, not the last one
  if s.xp = 0 ∧ s.yp > 1 then { s with xp := 80, yp := s.yp - 1 }
  else if s.xp > 0 then { s with xp := s.xp - 1 }
  else s

def clearScreen (s : Console) : Console where
  mem := s.mem.fill (screenBase + 160) (23 * 160) 0
  video := screenBase + 1 * 160
  xp := 0
  yp := 1

def scroll (s : Console) : Console :=
  -- row 23 is cleared, and the next character goes to row 22
  let tempV := screenBase + 160
  { s with
    mem := (s.mem.copy tempV (tempV + 160) (22 * 160)).fill (tempV + 22 * 160) 160 0
    yp := 22
    video := screenBase + 22 * 160 }

def write (s : Console) (c : UInt8) : Console :=
  let mem := Function.update (Function.update s.mem s.video c) (s.video + 1) color
  let s := { s with mem := mem, video := s.video + 2 }
  if s.xp < 80 then { s with xp := s.xp + 1 }
  else
    -- the character that wraps is not counted
    let s := { s with xp := 0 }
    if s.yp < 21 then { s with yp := s.yp + 1 } else s.scroll

def newline (s : Console) : Console :=
  let s := { s with video := s.video + 160 - s.xp * 2, xp := 0 }
  if s.yp < 22 then { s with yp := s.yp + 1 } else s.scroll

def carReturn (s : Console) : Console := { s with video := s.video - s.xp * 2, xp := 0 }

def step (s : Console) : ConsoleOp → Console
  | .write c => s.write c
  | .newline => s.newline
  | .carReturn => s.carReturn
  | .scroll => s.scroll
  | .clearScreen => s.clearScreen
  | .backspace => s.backspace

abbrev run (s : Console) (ops : List ConsoleOp) : Console := ops.foldl step s

end Console

/-! ## Formatted output -/

/-- A character constant. -/
def chr (c : Char) : UInt8 := c.toNat.toUInt8

/-- One digit of `convert`. -/
def digitChar (rem : Nat) : UInt8 :=
  if rem = 15 then chr 'f' else if rem = 14 then chr 'e' else if rem = 13 then chr 'd'
  else if rem = 12 then chr 'c' else if rem = 11 then chr 'b' else if rem = 10 then chr 'a'
  else (rem + 48).toUInt8

/-- The loop of `convert`, which fills `fmt[20]` from the last digit on. -/
def convertLoop (base : Nat) : Nat → Nat → CString
  | 0, _ => []
  | left + 1, dec =>
      digitChar (dec % base) :: if dec / base > 0 then convertLoop base left (dec / base) else []

/-- `convert(dec, base, type)` for the types that leave the digits in `x` or `d`. -/
def convert (dec base : Nat) : CString := (convertLoop base 20 dec).reverse

def prints (fmt : CString) : List ConsoleOp := fmt.map .write

/-- An `int` as an `unsigned long`. -/
def ulong (num : Int) : Nat := (num % 2 ^ 64).toNat

def printx (num : Int) : List ConsoleOp := prints (convert (ulong num) 16)

def printd (num : Int) : List ConsoleOp := prints (convert (ulong num) 10)

def printp (p : Nat) : List ConsoleOp := prints (cstr "0x") ++ prints (convert p 16)

def printc (c : UInt8) : List ConsoleOp := [.write c]

/-- An argument of `kprintf`. -/
inductive Arg where
  | int (n : Int)
  | str (s : CString)
  | ptr (p : Nat)

/-- What is printed for `%f`, and the arguments that are left. -/
def conversion (f : UInt8) : List Arg → List ConsoleOp × List Arg
  | .int n :: args =>
      if f = chr 'x' then (printx n, args)
      else if f = chr 'c' then (printc (n % 256).toNat.toUInt8, args)
      else if f = chr 'd' then (printd n, args)
      else ([], .int n :: args)
  | .str s :: args => if f = chr 's' then (prints s, args) else ([], .str s :: args)
  | .ptr p :: args => if f = chr 'p' then (printp p, args) else ([], .ptr p :: args)
  | [] => ([], [])

def charOp (c : UInt8) : ConsoleOp :=
  if c = chr '\n' then .newline else if c = chr '\r' then .carReturn else .write c

/-- `kprintf(fmt, ...)`. -/
def kprintf : CString → List Arg → List ConsoleOp
  | [], _ => []
  -- behind a last `%` the loop would go on past the end of the string
  | [c], _ => if c = chr '%' then [] else [charOp c]
  | c :: f :: fmt, args =>
      if c = chr '%' then (conversion f args).1 ++ kprintf fmt (conversion f args).2
      else charOp c :: kprintf (f :: fmt) args

theorem kprintf_char (n : Int) : kprintf (cstr "%c") [.int n] = printc (n % 256).toNat.toUInt8 := rfl

/-! ## Characters that fit on the line -/

/-- The memory with the characters `cs` and their attributes from `a` on. -/
def putCells (mem : Memory) (a : Nat) (cs : CString) : Memory := fun x ↦
  if a ≤ x ∧ x < a + 2 * cs.length then
    if (x - a) % 2 = 0 then cs.getD ((x - a) / 2) 0 else color
  else mem x

variable {s : Console} {cs : CString} {mem : Memory} {a x : Nat} {c : UInt8}

theorem putCells_nil : putCells mem a [] = mem := by
  funext x
  exact if_neg fun h ↦ Nat.lt_irrefl _ (h.1.trans_lt h.2)

theorem putCells_cons : putCells mem a (c :: cs) =
    putCells (Function.update (Function.update mem a c) (a + 1) color) (a + 2) cs := by
  funext x
  unfold putCells
  rw [List.length_cons]
  by_cases h₀ : x = a
  · subst h₀
    rw [if_pos (by omega), if_pos (by omega), if_neg (by omega),
      Function.update_of_ne (by omega), Function.update_self, Nat.sub_self]
    rfl
  · by_cases h₁ : x = a + 1
    · subst h₁
      rw [if_pos (by omega), if_neg (by omega), if_neg (by omega), Function.update_self]
    · rw [Function.update_of_ne h₁, Function.update_of_ne h₀]
      by_cases hx : a + 2 ≤ x ∧ x < a + 2 + 2 * cs.length
      · rw [if_pos (by omega), if_pos hx, show (x - a) % 2 = (x - (a + 2)) % 2 by omega,
          show (x - a) / 2 = (x - (a + 2)) / 2 + 1 by omega, List.getD_cons_succ]
      · rw [if_neg (by omega), if_neg hx]

theorem putCells_outside (h : x < a ∨ a + 2 * cs.length ≤ x) : putCells mem a cs x = mem x :=
  if_neg (by omega)

theorem run_prints (cs : CString) (s : Console) : s.run (prints cs) = cs.foldl Console.write s := by
  rw [Console.run, prints, List.foldl_map]
  rfl

theorem run_prints_append (pre post : CString) (c : UInt8) (s : Console) :
    s.run (prints (pre ++ c :: post)) = ((s.run (prints pre)).write c).run (prints post) := by
  rw [run_prints, run_prints, run_prints, List.foldl_append, List.foldl_cons]

/-- Up to column 80 the characters go to consecutive cells. -/
theorem run_prints_fit (h : s.xp + cs.length ≤ 80) : s.run (prints cs) =
    { s with
      mem := putCells s.mem s.video cs, video := s.video + 2 * cs.length,
      xp := s.xp + cs.length } := by
  rw [run_prints]
  induction cs generalizing s with
  | nil => rw [putCells_nil, List.foldl_nil, List.length_nil, Nat.mul_zero, Nat.add_zero, Nat.add_zero]
  | cons c cs ih =>
      rw [List.length_cons] at h
      have hw : s.write c = { s with
          mem := Function.update (Function.update s.mem s.video c) (s.video + 1) color,
          video := s.video + 2, xp := s.xp + 1 } := if_pos (show s.xp < 80 by omega)
      rw [List.foldl_cons, hw, ih (by dsimp only; omega), putCells_cons, List.length_cons]
      dsimp only
      congr 1
      · omega
      · omega

end Sbunix
