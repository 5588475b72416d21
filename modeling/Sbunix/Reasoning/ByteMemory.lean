import Mathlib.Data.Nat.Basic
import Mathlib.Data.Nat.Bitwise

/-!
# Byte-addressed memory

A memory is a function from addresses to bytes.  Words are little-endian: eight bytes are loaded
and stored at a time, and a range may be filled with one byte.
-/

namespace Reasoning

abbrev Memory := Nat → UInt8

namespace Memory

/-- The `n` bytes from `a` on, as a little-endian number. -/
def loadBytes (m : Memory) (a : Nat) : Nat → Nat
  | 0 => 0
  | n + 1 => (m a).toNat + 256 * loadBytes m (a + 1) n

def load64 (m : Memory) (a : Nat) : Nat := m.loadBytes a 8

def store64 (m : Memory) (a v : Nat) : Memory := fun x ↦
  if a ≤ x ∧ x < a + 8 then (v / 256 ^ (x - a)).toUInt8 else m x

def load32 (m : Memory) (a : Nat) : Nat := m.loadBytes a 4

def store32 (m : Memory) (a v : Nat) : Memory := fun x ↦
  if a ≤ x ∧ x < a + 4 then (v / 256 ^ (x - a)).toUInt8 else m x

def fill (m : Memory) (a n : Nat) (b : UInt8) : Memory := fun x ↦
  if a ≤ x ∧ x < a + n then b else m x

/-- The `n` bytes from `src` on are copied to `dest` one by one, the first one first. -/
def copy (m : Memory) (dest src : Nat) : Nat → Memory
  | 0 => m
  | n + 1 => copy (Function.update m dest (m src)) (dest + 1) (src + 1) n

def putBytes (m : Memory) (a : Nat) (l : List UInt8) : Memory := fun x ↦
  if a ≤ x ∧ x < a + l.length then l.getD (x - a) 0 else m x

/-- The bytes from `a` on up to a zero byte, which is among the first `n`. -/
def cstring (m : Memory) : Nat → Nat → Option (List UInt8)
  | 0, _ => none
  | n + 1, a => if m a = 0 then some [] else (cstring m n (a + 1)).map (m a :: ·)

/-- The memory of aligned words: word `w` is at address `8 * w`. -/
def ofWords (f : Nat → Nat) : Memory := fun x ↦ (f (x / 8) / 256 ^ (x % 8)).toUInt8

variable {m m' : Memory} {a b v n : Nat}

theorem loadBytes_congr (h : ∀ x, a ≤ x → x < a + n → m' x = m x) :
    m'.loadBytes a n = m.loadBytes a n := by
  induction n generalizing a with
  | zero => rfl
  | succ n ih =>
      rw [loadBytes, loadBytes, h a (Nat.le_refl a) (by omega),
        ih fun x hx hx' ↦ h x (by omega) (by omega)]

theorem load64_congr (h : ∀ x, a ≤ x → x < a + 8 → m' x = m x) : m'.load64 a = m.load64 a :=
  loadBytes_congr h

theorem loadBytes_zero (h : ∀ x, a ≤ x → x < a + n → m x = 0) : m.loadBytes a n = 0 := by
  induction n generalizing a with
  | zero => rfl
  | succ n ih =>
      rw [loadBytes, h a (Nat.le_refl a) (by omega), ih fun x hx hx' ↦ h x (by omega) (by omega)]
      rfl

theorem load64_zero (h : ∀ x, a ≤ x → x < a + 8 → m x = 0) : m.load64 a = 0 := loadBytes_zero h

theorem loadBytes_lt (m : Memory) (a n : Nat) : m.loadBytes a n < 256 ^ n := by
  induction n generalizing a with
  | zero => exact Nat.one_pos
  | succ n ih =>
      have h := ih (a + 1)
      have hb := (m a).toNat_lt
      rw [loadBytes, Nat.pow_succ]
      omega

theorem load64_lt (m : Memory) (a : Nat) : m.load64 a < 2 ^ 64 := loadBytes_lt m a 8

theorem store64_apply_of_lt {x : Nat} (h : x < a ∨ a + 8 ≤ x) : m.store64 a v x = m x :=
  if_neg (by omega)

theorem load64_store64_of_disjoint (h : b + 8 ≤ a ∨ a + 8 ≤ b) :
    (m.store64 a v).load64 b = m.load64 b :=
  load64_congr fun _ _ _ ↦ store64_apply_of_lt (by omega)

/-- The digits that `store64` writes are read back. -/
theorem loadBytes_store64 {k : Nat} (h : k + n ≤ 8) :
    (m.store64 a v).loadBytes (a + k) n = v / 256 ^ k % 256 ^ n := by
  induction n generalizing k with
  | zero => rw [loadBytes, Nat.pow_zero, Nat.mod_one]
  | succ n ih =>
      have hb : (m.store64 a v (a + k)).toNat = v / 256 ^ k % 256 := by
        rw [store64, if_pos (by omega), Nat.add_sub_cancel_left]
        rfl
      rw [loadBytes, hb, Nat.add_assoc, ih (by omega), Nat.pow_succ 256 n, Nat.mul_comm (256 ^ n),
        Nat.mod_mul, Nat.pow_succ, Nat.div_div_eq_div_mul]

theorem load64_store64 (hv : v < 2 ^ 64) : (m.store64 a v).load64 a = v := by
  have h := loadBytes_store64 (m := m) (a := a) (v := v) (k := 0) (n := 8) (Nat.le_refl 8)
  rw [Nat.pow_zero, Nat.div_one, Nat.mod_eq_of_lt (show v < 256 ^ 8 from hv)] at h
  exact h

theorem load32_congr (h : ∀ x, a ≤ x → x < a + 4 → m' x = m x) : m'.load32 a = m.load32 a :=
  loadBytes_congr h

theorem store32_apply_of_lt {x : Nat} (h : x < a ∨ a + 4 ≤ x) : m.store32 a v x = m x :=
  if_neg (by omega)

/-- The bytes of a number give the number back. -/
theorem loadBytes_of_digits (h : ∀ i < n, m (a + i) = (v / 256 ^ i).toUInt8) :
    m.loadBytes a n = v % 256 ^ n := by
  induction n generalizing a v with
  | zero => rw [loadBytes, Nat.pow_zero, Nat.mod_one]
  | succ n ih =>
      have hhead : (m a).toNat = v % 256 := by
        have hbyte : m a = (v / 256 ^ 0).toUInt8 := h 0 n.succ_pos
        rw [hbyte, Nat.pow_zero, Nat.div_one]
        rfl
      have htail : ∀ i < n, m (a + 1 + i) = (v / 256 / 256 ^ i).toUInt8 := fun i hi ↦ by
        rw [Nat.add_assoc, Nat.add_comm 1 i, h (i + 1) (Nat.succ_lt_succ hi), Nat.pow_succ,
          Nat.mul_comm, Nat.div_div_eq_div_mul]
      rw [loadBytes, hhead, ih htail, Nat.pow_succ, Nat.mul_comm (256 ^ n), Nat.mod_mul]

theorem load32_store32 (hv : v < 2 ^ 32) : (m.store32 a v).load32 a = v := by
  have h : ∀ i < 4, m.store32 a v (a + i) = (v / 256 ^ i).toUInt8 := fun i hi ↦ by
    rw [store32, if_pos (by omega), Nat.add_sub_cancel_left]
  rw [load32, loadBytes_of_digits h]
  exact Nat.mod_eq_of_lt hv

theorem fill_apply_of_mem {x : Nat} {c : UInt8} (h : a ≤ x) (h' : x < a + n) :
    m.fill a n c x = c := if_pos ⟨h, h'⟩

theorem fill_apply_of_lt {x : Nat} {c : UInt8} (h : x < a ∨ a + n ≤ x) : m.fill a n c x = m x :=
  if_neg (by omega)

/-- Bytes are copied down before they are overwritten. -/
theorem copy_apply {src x : Nat} (h : a ≤ src) : m.copy a src n x =
    if a ≤ x ∧ x < a + n then m (src + (x - a)) else m x := by
  induction n generalizing m a src with
  | zero => exact (if_neg (by omega)).symm
  | succ n ih =>
      rw [copy, ih (by omega)]
      by_cases hx : x = a
      · subst hx
        rw [if_neg (by omega), if_pos (by omega), Function.update_self, Nat.sub_self, Nat.add_zero]
      · by_cases hn : a + 1 ≤ x ∧ x < a + 1 + n
        · rw [if_pos hn, if_pos (by omega), Function.update_of_ne (by omega)]
          congr 1
          omega
        · rw [if_neg hn, if_neg (by omega), Function.update_of_ne hx]

theorem putBytes_apply_of_mem {l : List UInt8} {i : Nat} (h : i < l.length) :
    m.putBytes a l (a + i) = l.getD i 0 := by
  rw [putBytes, if_pos (by omega), Nat.add_sub_cancel_left]

theorem putBytes_apply_of_lt {l : List UInt8} {x : Nat} (h : x < a ∨ a + l.length ≤ x) :
    m.putBytes a l x = m x := if_neg (by omega)

theorem exists_cstring_nil : (∃ n, m.cstring n a = some []) ↔ m a = 0 := by
  constructor
  · rintro ⟨n, hn⟩
    cases n with
    | zero => cases hn
    | succ n =>
        rw [cstring] at hn
        by_contra h
        rw [if_neg h, Option.map_eq_some_iff] at hn
        obtain ⟨l, -, hl⟩ := hn
        cases hl
  · exact fun h ↦ ⟨1, if_pos h⟩

theorem exists_cstring_cons {c : UInt8} {l : List UInt8} :
    (∃ n, m.cstring n a = some (c :: l)) ↔ m a = c ∧ c ≠ 0 ∧ ∃ n, m.cstring n (a + 1) = some l := by
  constructor
  · rintro ⟨n, hn⟩
    cases n with
    | zero => cases hn
    | succ n =>
        rw [cstring] at hn
        by_cases h : m a = 0
        · rw [if_pos h] at hn
          cases hn
        · rw [if_neg h, Option.map_eq_some_iff] at hn
          obtain ⟨l', hl', he⟩ := hn
          obtain ⟨rfl, rfl⟩ := List.cons.inj he
          exact ⟨rfl, h, n, hl'⟩
  · rintro ⟨rfl, h, n, hn⟩
    exact ⟨n + 1, by rw [cstring, if_neg h, hn, Option.map_some]⟩

/-- Bytes without a zero are a string just when a zero comes behind them. -/
theorem exists_cstring_iff {l : List UInt8} (hl : ∀ i < l.length, m (a + i) = l.getD i 0)
    (hzero : 0 ∉ l) : (∃ n, m.cstring n a = some l) ↔ m (a + l.length) = 0 := by
  induction l generalizing a with
  | nil => exact exists_cstring_nil
  | cons c l ih =>
      rw [List.mem_cons, not_or] at hzero
      have hhead : m a = c := hl 0 (Nat.succ_pos _)
      have htail : ∀ i < l.length, m (a + 1 + i) = l.getD i 0 := fun i hi ↦ by
        rw [Nat.add_assoc, Nat.add_comm 1 i]
        exact hl (i + 1) (Nat.succ_lt_succ hi)
      rw [exists_cstring_cons, and_iff_right hhead, and_iff_right (Ne.symm hzero.1),
        ih htail hzero.2, List.length_cons, Nat.add_assoc, Nat.add_comm 1]

/-- Bytes with a zero behind them are the string that is read, when it is read that far. -/
theorem cstring_eq_some {l : List UInt8} (hl : ∀ i < l.length, m (a + i) = l.getD i 0)
    (hend : m (a + l.length) = 0) (hzero : 0 ∉ l) (hn : l.length < n) : m.cstring n a = some l := by
  induction l generalizing a n with
  | nil =>
      obtain ⟨n, rfl⟩ := Nat.exists_eq_add_of_le' (show 1 ≤ n from hn)
      exact if_pos hend
  | cons c l ih =>
      obtain ⟨n, rfl⟩ := Nat.exists_eq_add_of_le' (show 1 ≤ n from Nat.lt_of_le_of_lt (Nat.zero_le _) hn)
      rw [List.mem_cons, not_or] at hzero
      have hhead : m a = c := hl 0 (Nat.succ_pos _)
      have hrest : m.cstring n (a + 1) = some l := by
        refine ih (fun i hi ↦ ?_) ?_ hzero.2 (Nat.lt_of_succ_lt_succ hn)
        · rw [Nat.add_assoc, Nat.add_comm 1 i]
          exact hl (i + 1) (Nat.succ_lt_succ hi)
        · rw [Nat.add_assoc, Nat.add_comm 1]
          exact hend
      rw [cstring, hhead, if_neg (Ne.symm hzero.1), hrest, Option.map_some]

theorem putBytes_nil : m.putBytes a [] = m := by
  funext x
  exact if_neg fun h ↦ Nat.lt_irrefl _ (h.1.trans_lt h.2)

theorem putBytes_cons {c : UInt8} {l : List UInt8} :
    m.putBytes a (c :: l) = putBytes (Function.update m a c) (a + 1) l := by
  funext x
  unfold putBytes
  rw [List.length_cons]
  by_cases hx : x = a
  · subst hx
    rw [if_pos (by omega), if_neg (by omega), Function.update_self, Nat.sub_self]
    rfl
  · by_cases hin : a + 1 ≤ x ∧ x < a + 1 + l.length
    · rw [if_pos (by omega), if_pos hin, show x - a = x - (a + 1) + 1 by omega, List.getD_cons_succ]
    · rw [if_neg (by omega), if_neg hin, Function.update_of_ne hx]

theorem load64_fill_zero (h : a ≤ b) (h' : b + 8 ≤ a + n) : (m.fill a n 0).load64 b = 0 :=
  load64_zero fun _ _ _ ↦ fill_apply_of_mem (by omega) (by omega)

theorem load64_fill_of_disjoint {c : UInt8} (h : b + 8 ≤ a ∨ a + n ≤ b) :
    (m.fill a n c).load64 b = m.load64 b :=
  load64_congr fun _ _ _ ↦ fill_apply_of_lt (by omega)

theorem load64_ofWords {f : Nat → Nat} : (ofWords f).load64 (8 * n) = f n % 2 ^ 64 := by
  have h : (ofWords f).load64 (8 * n) = (store64 (fun _ ↦ 0) (8 * n) (f n)).load64 (8 * n) := by
    refine load64_congr fun x hx hx' ↦ ?_
    rw [ofWords, store64, if_pos ⟨hx, hx'⟩]
    rw [show x / 8 = n by omega, show x % 8 = x - 8 * n by omega]
  have hd := loadBytes_store64 (m := fun _ ↦ 0) (a := 8 * n) (v := f n) (k := 0) (n := 8)
    (Nat.le_refl 8)
  rw [Nat.pow_zero, Nat.div_one] at hd
  exact h.trans hd

end Memory

/-! ## Bits of aligned numbers -/

theorem and_low (x n : Nat) : x &&& (2 ^ n - 1) = x % 2 ^ n := Nat.and_two_pow_sub_one_eq_mod x n

/-- Clearing the low `n` bits of a number below `2 ^ (n + k)`. -/
theorem and_high {x n k : Nat} (h : x < 2 ^ (n + k)) :
    x &&& (2 ^ k - 1) * 2 ^ n = x / 2 ^ n * 2 ^ n := by
  refine Nat.eq_of_testBit_eq fun i ↦ ?_
  rw [Nat.testBit_and, Nat.testBit_mul_two_pow, Nat.testBit_mul_two_pow, Nat.testBit_div_two_pow,
    Nat.testBit_two_pow_sub_one]
  by_cases hi : n ≤ i
  · by_cases hk : i - n < k
    · simp [hi, hk]
    · have hx : x.testBit i = false :=
        Nat.testBit_lt_two_pow (Nat.lt_of_lt_of_le h (Nat.pow_le_pow_right (by omega) (by omega)))
      simp [hi, hk, hx]
  · simp [hi]

/-- A number that is a multiple of `2 ^ n` joins a smaller one without carry. -/
theorem or_low {x b n : Nat} (hx : 2 ^ n ∣ x) (hb : b < 2 ^ n) : x ||| b = x + b := by
  obtain ⟨k, rfl⟩ := hx
  exact (Nat.two_pow_add_eq_or_of_lt hb k).symm

theorem and_low_of_dvd {x c n : Nat} (hx : 2 ^ n ∣ x) (hc : c < 2 ^ n) : x &&& c = 0 := by
  obtain ⟨k, rfl⟩ := hx
  refine Nat.eq_of_testBit_eq fun i ↦ ?_
  rw [Nat.testBit_and, Nat.mul_comm, Nat.testBit_mul_two_pow, Nat.zero_testBit]
  by_cases hi : n ≤ i
  · rw [Nat.testBit_lt_two_pow (Nat.lt_of_lt_of_le hc (Nat.pow_le_pow_right (by omega) hi)),
      Bool.and_false]
  · simp [hi]

/-- Flags added to an aligned number are tested without it. -/
theorem or_low_and {x b c n : Nat} (hx : 2 ^ n ∣ x) (hc : c < 2 ^ n) :
    (x ||| b) &&& c = b &&& c := by
  rw [Nat.and_or_distrib_right, and_low_of_dvd hx hc, Nat.zero_or]

end Reasoning
