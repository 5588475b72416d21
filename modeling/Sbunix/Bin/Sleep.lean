import Sbunix.Sys.Convert
import Mathlib.Algebra.Group.Int.Defs

/-!
# The `sleep` program (`bin/sleep/sleep.c`)

The program reads its argument as a decimal number.  Each digit is multiplied by a power of ten that a
loop of its own counts up to, and the digit that follows is read ahead.  Arithmetic on an `int` goes
through a function `int`, which may do anything with a result that is out of range.
-/

namespace Sbunix

/-- The variables of `main`; `inx` is `in`. -/
structure SleepState where
  i : UInt8
  sec : Int := 0
  k : Int := 0
  m : Int := 1
  j : Nat := 0
  inx : Nat := 1

/-- The inner loop, on `m` and `j`. -/
def powerLoop (int : Int → Int) (argv1 : CString) (inx : Nat) : Nat → Int → Nat → Option (Int × Nat)
  | 0, _, _ => none
  | fuel + 1, m, j =>
      if j < argv1.length - inx then powerLoop int argv1 inx fuel (int (m * 10)) (j + 1)
      else some (m, j)

/-- The loop of `main`: what is in `sec` behind it. -/
def secondsLoop (int : Int → Int) (argv1 : CString) : Nat → SleepState → Option Int
  | 0, _ => none
  | fuel + 1, st =>
      (powerLoop int argv1 st.inx fuel st.m st.j).bind fun (m, _) ↦
        let k := int ((st.i.toInt8.toInt - 48) * m)
        let sec := int (st.sec + k)
        if st.inx = argv1.length then some sec
        else
          -- the digit of the next round
          let i := argv1.getD st.inx 0
          if i = 0 then some sec
          else secondsLoop int argv1 fuel { i, sec, k, m := 1, j := 0, inx := st.inx + 1 }

/-- `main(argc, argv)` up to the call of `sleep(sec)`.  The first byte is read from a copy of the
argument. -/
def seconds (int : Int → Int) (fuel : Nat) (argv1 : CString) : Option Int :=
  secondsLoop int argv1 fuel { i := argv1.headD 0 }

/-- `c` is a decimal digit. -/
def IsDigit (c : UInt8) : Prop := 48 ≤ c.toNat ∧ c.toNat ≤ 57

instance (c : UInt8) : Decidable (IsDigit c) := inferInstanceAs (Decidable (_ ∧ _))

variable {int : Int → Int} {argv1 p q s t : CString} {inx fuel j n e base : Nat} {c : UInt8} {m : Int}

/-! ## Numerals digit by digit -/

theorem numeral_append :
    numeral base (s ++ t) = numeral base s * base ^ t.length + numeral base t := by
  induction t using List.reverseRecOn with
  | nil => rw [List.append_nil, List.length_nil, Nat.pow_zero, Nat.mul_one]; rfl
  | append_singleton t c ih =>
      rw [← List.append_assoc, numeral_concat, numeral_concat, ih, List.length_append,
        List.length_singleton, Nat.pow_succ, Nat.add_mul, Nat.mul_assoc, Nat.add_assoc]

theorem digitVal_of_isDigit (h : IsDigit c) : c.toInt8.toInt - 48 = (digitVal c : Int) := by
  have hsigned : c.toInt8.toInt = (c.toNat : Int) :=
    BitVec.toInt_eq_toNat_of_lt (x := c.toBitVec) (show 2 * c.toNat < 2 ^ 8 by
      have := h.2
      omega)
  have hlow := h.1
  have hhigh := h.2
  rw [hsigned, digitVal, if_pos (by omega)]
  omega

/-- What the digits `s` count for with `n` digits behind them. -/
def placed (s : CString) (n : Nat) : Int := (numeral 10 s * 10 ^ n : Nat)

theorem placed_zero : placed s 0 = numeral 10 s := by rw [placed, Nat.pow_zero, Nat.mul_one]

/-! ## The loops -/

/-- What the inner loop makes of 1 in `n` rounds. -/
def powerOf (int : Int → Int) : Nat → Int
  | 0 => 1
  | n + 1 => int (powerOf int n * 10)

theorem powerLoop_eq (hn : j + n = argv1.length - inx) (hfuel : n < fuel) :
    powerLoop int argv1 inx fuel (powerOf int j) j = some (powerOf int (j + n), j + n) := by
  induction n generalizing fuel j with
  | zero =>
      obtain ⟨fuel, rfl⟩ := Nat.exists_eq_add_of_le' hfuel
      rw [powerLoop, if_neg (by omega)]
      rfl
  | succ n ih =>
      obtain ⟨fuel, rfl⟩ := Nat.exists_eq_add_of_le' (Nat.zero_lt_of_lt hfuel)
      have hnext : powerLoop int argv1 inx fuel (powerOf int (j + 1)) (j + 1) =
          some (powerOf int (j + 1 + n), j + 1 + n) := ih (by omega) (by omega)
      rw [Nat.add_right_comm] at hnext
      rw [powerLoop, if_pos (by omega)]
      exact hnext

section
variable (hint : ∀ n, -2 ^ 31 ≤ n → n < 2 ^ 31 → int n = n)
include hint

theorem int_natCast (h : n < 2 ^ 31) : int n = n := hint n (by omega) (by omega)

theorem powerOf_eq (h : 10 ^ n < 2 ^ 31) : powerOf int n = (10 ^ n : Nat) := by
  induction n with
  | zero => rfl
  | succ n ih =>
      have hn : 10 ^ n < 2 ^ 31 := by
        rw [Nat.pow_succ] at h
        omega
      have hnext := int_natCast hint h
      rw [Nat.pow_succ, Int.natCast_mul] at hnext
      rw [powerOf, ih hn, Nat.pow_succ, Int.natCast_mul]
      exact hnext

/-- A digit counts for what its place says, though the power of ten may have overflowed. -/
theorem digit_mul_powerOf (h : n * 10 ^ e < 2 ^ 31) :
    int (n * powerOf int e) = (n * 10 ^ e : Nat) := by
  rcases Nat.eq_zero_or_pos n with rfl | hpos
  · -- nothing but a zero is so far to the left
    rw [Nat.zero_mul, Int.natCast_zero, Int.zero_mul]
    exact int_natCast hint (by decide)
  · have he : 10 ^ e < 2 ^ 31 := (Nat.le_mul_of_pos_left _ hpos).trans_lt h
    rw [powerOf_eq hint he, ← Int.natCast_mul]
    exact int_natCast hint h

theorem round_eq (hc : IsDigit c) (h : numeral 10 (p ++ [c]) * 10 ^ n < 2 ^ 31) :
    int (placed p (n + 1) + int ((c.toInt8.toInt - 48) * powerOf int n)) = placed (p ++ [c]) n := by
  have hsum : numeral 10 (p ++ [c]) * 10 ^ n = numeral 10 p * 10 ^ (n + 1) + digitVal c * 10 ^ n := by
    rw [numeral_concat, Nat.add_mul, Nat.mul_assoc, Nat.pow_succ, Nat.mul_comm 10]
  have hdigit : digitVal c * 10 ^ n < 2 ^ 31 := by omega
  rw [digitVal_of_isDigit hc, digit_mul_powerOf hint hdigit, placed, ← Int.natCast_add, ← hsum]
  exact int_natCast hint h

/-- A round of the loop at the digit `c`, with `n` digits behind it and the digits `p` before it summed
up. -/
theorem secondsLoop_round (hc : IsDigit c) (hn : n = argv1.length - inx) (hfuel : n < fuel)
    (h : numeral 10 (p ++ [c]) * 10 ^ n < 2 ^ 31) {k : Int} : ∃ k',
    secondsLoop int argv1 (fuel + 1) { i := c, sec := placed p (n + 1), k, inx } =
      if inx = argv1.length then some (placed (p ++ [c]) n)
      else if argv1.getD inx 0 = 0 then some (placed (p ++ [c]) n)
      else secondsLoop int argv1 fuel
        { i := argv1.getD inx 0, sec := placed (p ++ [c]) n, k := k', inx := inx + 1 } := by
  have hpower : powerLoop int argv1 inx fuel (powerOf int 0) 0 = some (powerOf int (0 + n), 0 + n) :=
    powerLoop_eq (by rwa [Nat.zero_add]) hfuel
  rw [Nat.zero_add] at hpower
  refine ⟨int ((c.toInt8.toInt - 48) * powerOf int n), ?_⟩
  rw [secondsLoop]
  dsimp only
  rw [show powerLoop int argv1 inx fuel 1 0 = _ from hpower, Option.bind_some]
  dsimp only
  rw [round_eq hint hc h]

/-- From a digit on, the loop adds the digits that are left to those before it. -/
theorem secondsLoop_eq (hc : IsDigit c) (hq : ∀ c ∈ q, IsDigit c)
    (hval : numeral 10 (p ++ c :: q) < 2 ^ 31) (hfuel : q.length + 1 < fuel) {k : Int} :
    secondsLoop int (p ++ c :: q) fuel
      { i := c, sec := placed p (q.length + 1), k, inx := p.length + 1 } =
      some (numeral 10 (p ++ c :: q) : Int) := by
  obtain ⟨fuel, rfl⟩ := Nat.exists_eq_add_of_le' (Nat.zero_lt_of_lt hfuel)
  -- on the digits that are left; `sec` has those before them, each at its place
  induction q generalizing p c k fuel with
  | nil =>
      -- the last digit: `in` is the length
      have hn : 0 = (p ++ [c]).length - (p.length + 1) := by simp
      have hpos : 0 < fuel := by simpa using hfuel
      obtain ⟨k', hround⟩ := secondsLoop_round (k := k) hint hc hn hpos
        (by rwa [Nat.pow_zero, Nat.mul_one])
      rw [if_pos (by simp), placed_zero] at hround
      exact hround
  | cons d q ih =>
      rw [List.forall_mem_cons] at hq
      rw [List.length_cons] at hfuel
      have happend : p ++ c :: d :: q = (p ++ [c]) ++ d :: q := by simp
      have hlen : (p ++ c :: d :: q).length = p.length + 1 + (d :: q).length := by
        rw [happend, List.length_append, List.length_append, List.length_singleton]
      -- what is summed up so far is no more than the value
      have hle : numeral 10 (p ++ [c]) * 10 ^ (d :: q).length < 2 ^ 31 := by
        rw [happend, numeral_append] at hval
        exact (Nat.le_add_right _ _).trans_lt hval
      have hn : (d :: q).length = (p ++ c :: d :: q).length - (p.length + 1) := by omega
      have hroom : (d :: q).length < fuel := by
        rw [List.length_cons]
        omega
      obtain ⟨k', hround⟩ := secondsLoop_round (k := k) hint hc hn hroom hle
      have hget : (p ++ c :: d :: q).getD (p.length + 1) 0 = d := by
        rw [List.getD_append_right _ _ _ _ (Nat.le_succ _), Nat.succ_sub (Nat.le_refl _), Nat.sub_self]
        rfl
      have hd : d ≠ 0 := by
        rintro rfl
        exact absurd hq.1.1 (by decide)
      obtain ⟨fuel, rfl⟩ := Nat.exists_eq_add_of_le' (show 1 ≤ fuel by omega)
      have hrest := @ih (p ++ [c]) d hq.1 hq.2 (happend ▸ hval) k' fuel (by omega)
      rw [← happend, List.length_append, List.length_singleton] at hrest
      rw [if_neg (by rw [hlen, List.length_cons]; omega), hget, if_neg hd] at hround
      exact hround.trans hrest

/-- For every string of digits whose value is an `int`, the loop comes to an end with that value,
whatever an overflow gives. -/
theorem seconds_eq (hne : s ≠ []) (hs : ∀ c ∈ s, IsDigit c) (hval : numeral 10 s < 2 ^ 31)
    (hfuel : s.length < fuel) : seconds int fuel s = some (numeral 10 s : Int) := by
  cases s with
  | nil => exact absurd rfl hne
  | cons c q =>
      rw [List.forall_mem_cons] at hs
      have h := secondsLoop_eq (p := []) (k := 0) hint hs.1 hs.2 hval hfuel
      rw [placed, show numeral 10 [] = 0 from rfl, Nat.zero_mul] at h
      exact h

end

/-- The powers of ten of thirteen digits overflow. -/
theorem seconds_zeros : seconds (Int.bmod · (2 ^ 32)) 14 (cstr "0000000000012") = some 12 :=
  seconds_eq (fun _ hlow hhigh ↦ Int.bmod_eq_of_le hlow hhigh) (by decide) (by decide +kernel)
    (by decide) (by decide)

end Sbunix
