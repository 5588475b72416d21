import Sbunix.Sys.Digits

/-!
# Formatted output of a process (`libc/printf.c`)

The text that the `printf` of a process collects in `buffer`.  Its `convert` is that of the kernel, and
so is what it does with an `int`.
-/

namespace Sbunix

open Reasoning

namespace Printf

/-- `prints(fmt)` of a pointer, with NULL for no string. -/
def prints (m : Memory) (p : Nat) : Option CString :=
  if p = 0 then some [] else m.cstring (2 ^ 31) p

def printx (num : Int) : CString := convert (ulong num) 16

def printd (num : Int) : CString := convert (ulong num) 10

def printp (p : Nat) : CString := cstr "0x" ++ convert p 16

/-- What `%f` appends to the buffer for the argument `w`, and how many arguments it takes. -/
def conversion (m : Memory) (f : UInt8) (w : Nat) : Option (CString × Nat) :=
  if f = chr 'x' then some (printx (intWord w), 1)
  else if f = chr 's' then (prints m w).map (·, 1)
  else if f = chr 'c' then some ([(intWord w % 256).toNat.toUInt8], 1)
  else if f = chr 'p' then some (printp w, 1)
  else if f = chr 'd' then some (printd (intWord w), 1)
  else some ([], 0)

/-- What the loop of `printf` appends from the index `i` and the argument `a` on. -/
def loop (m : Memory) (fmt : Nat) (va : Nat → Nat) : Nat → Nat → Nat → Option CString
  | 0, _, _ => none
  | left + 1, i, a =>
      if m (fmt + i) = 0 then some []
      else if m (fmt + i) = chr '%' then
        match left with
        | 0 => none
        | left + 1 =>
            (conversion m (m (fmt + i + 1)) (va a)).bind fun (text, n) ↦
              (loop m fmt va left (i + 2) (a + n)).map (text ++ ·)
      else (loop m fmt va left (i + 1) a).map (m (fmt + i) :: ·)

variable {m : Memory} {va : Nat → Nat} {fmt left i a w : Nat} {f : UInt8} {text : CString}

theorem loop_percent (h : m (fmt + i) = chr '%') : loop m fmt va (left + 2) i a =
    (conversion m (m (fmt + i + 1)) (va a)).bind fun (text, n) ↦
      (loop m fmt va left (i + 2) (a + n)).map (text ++ ·) := by
  rw [loop, h, if_neg (by decide), if_pos rfl]

theorem loop_nul (h : m (fmt + i) = 0) : loop m fmt va (left + 1) i a = some [] := by
  cases left with
  | zero => rw [loop, if_pos h]
  | succ left => rw [loop, if_pos h]

/-! ## `%d` and `%x` -/

/-- What `kprintf` and `printf` emit for `%d` and `%x` of the `int` in the word `w`, in whatever memory
and format: its signed decimal representation, and at most 8 hexadecimal digits. -/
structure PrintsInt (w : Nat) : Prop where
  kernelDecimal : ∀ m, conversionAt m (chr 'd') w = some (Sbunix.prints (decimal (intWord w)), 1)
  kernelHex : ∀ m, conversionAt m (chr 'x') w = some (Sbunix.prints (hexadecimal (intWord w)), 1)
  decimal : ∀ m, conversion m (chr 'd') w = some (decimal (intWord w), 1)
  hex : ∀ m, conversion m (chr 'x') w = some (hexadecimal (intWord w), 1)
  short : (hexadecimal (intWord w)).length ≤ 8

theorem conversionAt_d : conversionAt m (chr 'd') w = some (Sbunix.printd (intWord w), 1) := rfl

theorem conversionAt_x : conversionAt m (chr 'x') w = some (Sbunix.printx (intWord w), 1) := rfl

end Printf

/-- They emit what they should exactly for the numbers that are not negative. -/
theorem printsInt_iff (w : Nat) : Printf.PrintsInt w ↔ 0 ≤ intWord w := by
  obtain ⟨hlow, hhigh⟩ := intWord_bounds w
  constructor
  · intro h
    have htext := (Prod.mk.inj (Option.some.inj (h.decimal fun _ ↦ 0))).1
    exact (convert_decimal_iff hlow hhigh).mp htext
  · intro h
    have hd := (convert_decimal_iff hlow hhigh).mpr h
    have hx := (convert_hexadecimal_iff hlow hhigh).mpr h
    refine ⟨fun m ↦ ?_, fun m ↦ ?_, fun m ↦ ?_, fun m ↦ ?_, length_hexadecimal _⟩
    · rw [Printf.conversionAt_d, printd, hd]
    · rw [Printf.conversionAt_x, printx, hx]
    · rw [← hd]
      rfl
    · rw [← hx]
      rfl

/-- The digits of `2 ^ 64 - 1` are printed for -1. -/
theorem not_printsInt_minus_one : ¬ Printf.PrintsInt (2 ^ 32 - 1) := by
  intro h
  have htext := (Prod.mk.inj (Option.some.inj (h.decimal fun _ ↦ 0))).1
  exact absurd htext (by decide)

end Sbunix
