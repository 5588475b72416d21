import Sbunix.Sys.Kprintf

/-!
# Digits (`convert` of `sys/kprintf.c` and `libc/printf.c`)

`convert` writes a number to any base up to 16, with the most significant digit first.
`printd` and `printx` give it an `int` that was made an `unsigned long`.
-/

namespace Sbunix

variable {base left dec r : Nat} {c : UInt8} {n : Int}

/-- The signed decimal representation. -/
def decimal (n : Int) : CString :=
  (if n < 0 then [chr '-'] else []) ++ (Nat.toDigits 10 n.natAbs).map chr

/-- The hexadecimal representation of the 32 bits of an `int`. -/
def hexadecimal (n : Int) : CString := (Nat.toDigits 16 (n % 2 ^ 32).toNat).map chr

theorem digitChar_eq (h : r < 16) : digitChar r = chr (Nat.digitChar r) := by
  have hall : ∀ r < 16, digitChar r = chr (Nat.digitChar r) := by decide
  exact hall r h

theorem convertLoop_eq (hb : 1 < base) (hb' : base ≤ 16) (hleft : 0 < left) (h : dec < base ^ left) :
    convertLoop base left dec = ((Nat.toDigits base dec).map chr).reverse := by
  induction left generalizing dec with
  | zero => exact absurd hleft (Nat.lt_irrefl 0)
  | succ left ih =>
      have hmod : dec % base < 16 := Nat.lt_of_lt_of_le (Nat.mod_lt _ (by omega)) hb'
      rw [convertLoop, digitChar_eq hmod]
      by_cases hlt : dec < base
      · rw [Nat.div_eq_of_lt hlt, if_neg (Nat.lt_irrefl 0), Nat.mod_eq_of_lt hlt,
          Nat.toDigits_of_lt_base hlt]
        rfl
      · have hle : base ≤ dec := Nat.le_of_not_lt hlt
        have hdiv : 0 < dec / base := Nat.div_pos hle (by omega)
        have hlast : 0 < left := by
          rcases Nat.eq_zero_or_pos left with rfl | hpos
          · rw [Nat.zero_add, Nat.pow_one] at h
            exact absurd h hlt
          · exact hpos
        have hpow : dec / base < base ^ left := by
          rw [Nat.div_lt_iff_lt_mul (by omega), ← Nat.pow_succ]
          exact h
        rw [if_pos hdiv, ih hlast hpow, Nat.toDigits_of_base_le hb hle, List.map_append,
          List.reverse_append]
        rfl

theorem convert_eq (hb : 1 < base) (hb' : base ≤ 16) (h : dec < base ^ 20) :
    convert dec base = (Nat.toDigits base dec).map chr := by
  rw [convert, convertLoop_eq hb hb' (by decide) h, List.reverse_reverse]

theorem ulong_lt (n : Int) : ulong n < 2 ^ 64 := by
  unfold ulong
  omega

theorem convert_ten (n : Int) : convert (ulong n) 10 = (Nat.toDigits 10 (ulong n)).map chr :=
  convert_eq (by decide) (by decide) (Nat.lt_trans (ulong_lt n) (by decide))

theorem convert_sixteen (n : Int) : convert (ulong n) 16 = (Nat.toDigits 16 (ulong n)).map chr :=
  convert_eq (by decide) (by decide) (Nat.lt_trans (ulong_lt n) (by decide))

theorem intWord_bounds (w : Nat) : -2 ^ 31 ≤ intWord w ∧ intWord w < 2 ^ 31 := by
  unfold intWord
  split
  · omega
  · omega

/-- The digits are the characters from 48 on. -/
theorem digits_bounds (h : c ∈ (Nat.toDigits 10 r).map chr) : 48 ≤ c.toNat ∧ c.toNat ≤ 57 := by
  obtain ⟨d, hd, rfl⟩ := List.mem_map.mp h
  have hdigit := Nat.isDigit_of_mem_toDigits (by decide) (by decide) hd
  rw [Char.isDigit, Bool.and_eq_true, decide_eq_true_eq, decide_eq_true_eq] at hdigit
  have hlow : 48 ≤ d.toNat := hdigit.1
  have hhigh : d.toNat ≤ 57 := hdigit.2
  have hval : (chr d).toNat = d.toNat % 256 := rfl
  omega

/-- No digit is a minus sign. -/
theorem minus_notMem : chr '-' ∉ (Nat.toDigits 10 r).map chr :=
  fun h ↦ absurd (digits_bounds h).1 (by decide)

theorem convert_decimal_iff (hlow : -2 ^ 31 ≤ n) (hhigh : n < 2 ^ 31) :
    convert (ulong n) 10 = decimal n ↔ 0 ≤ n := by
  rw [convert_ten, decimal]
  constructor
  · intro h
    by_contra hneg
    rw [if_pos (Int.not_le.mp hneg)] at h
    refine minus_notMem (r := ulong n) ?_
    rw [h]
    exact List.mem_cons_self
  · intro h
    have hnat : ulong n = n.natAbs := by
      unfold ulong
      omega
    rw [if_neg (Int.not_lt.mpr h), hnat, List.nil_append]

theorem length_hexadecimal (n : Int) : (hexadecimal n).length ≤ 8 := by
  rw [hexadecimal, List.length_map, Nat.length_toDigits_le_iff (by decide) (by decide)]
  omega

theorem convert_hexadecimal_iff (hlow : -2 ^ 31 ≤ n) (hhigh : n < 2 ^ 31) :
    convert (ulong n) 16 = hexadecimal n ↔ 0 ≤ n := by
  constructor
  · intro h
    have hlen := length_hexadecimal n
    rw [← h, convert_sixteen, List.length_map, Nat.length_toDigits_le_iff (by decide) (by decide)]
      at hlen
    -- sixteen digits for a negative number
    unfold ulong at hlen
    omega
  · intro h
    have hnat : ulong n = (n % 2 ^ 32).toNat := by
      unfold ulong
      omega
    rw [convert_sixteen, hexadecimal, hnat]

end Sbunix
