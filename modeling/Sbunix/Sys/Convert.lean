import Sbunix.Sys.Digits
import Mathlib.Algebra.Group.Nat.Defs
import Mathlib.Data.List.Induction

/-!
# The arrays of `convert` (`sys/kprintf.c`, `libc/printf.c`)

`convert` fills a local array of 20 bytes with the digits of a number, the last digit first, and copies
them the other way round to one of the globals `x` and `d`.  The function is in the kernel and in the
library of the processes.
-/

namespace Sbunix

open Reasoning

/-- The arrays `fmt`, `x` and `d`, the bytes that go out for the type `c` (to the screen in the kernel,
to `buffer` in a process), and the indices at which `fmt` is used. -/
structure DigitArrays where
  fmt : Memory
  x : Memory
  d : Memory
  out : CString := []
  used : List Nat := []

namespace DigitArrays

/-- `fmt[i]=c`. -/
def store (b : DigitArrays) (i : Nat) (c : UInt8) : DigitArrays :=
  { b with fmt := Function.update b.fmt i c, used := i :: b.used }

/-- What the second loop does with `fmt[i]`. -/
def copyDigit (b : DigitArrays) (type : UInt8) (i j : Nat) : DigitArrays :=
  let b := { b with used := i :: b.used }
  if type = chr 'c' then { b with out := b.out ++ [b.fmt i] }
  else if type = chr 'd' then { b with d := Function.update b.d j (b.fmt i) }
  else { b with x := Function.update b.x j (b.fmt i) }

/-- The global for a type other than `c`. -/
def destination (b : DigitArrays) (type : UInt8) : Memory := if type = chr 'd' then b.d else b.x

def withDestination (b : DigitArrays) (type : UInt8) (g : Memory) : DigitArrays :=
  if type = chr 'd' then { b with d := g } else { b with x := g }

end DigitArrays

/-- The first loop of `convert`: the index behind the digits. -/
def digitLoop (base : Nat) : Nat → Nat → Nat → DigitArrays → Option (Nat × DigitArrays)
  | 0, _, _, _ => none
  | fuel + 1, dec, i, b =>
      let b := b.store i (digitChar (dec % base))
      if dec / base > 0 then digitLoop base fuel (dec / base) (i + 1) b else some (i + 1, b)

/-- The second loop of `convert`: the index behind the copied bytes. -/
def reverseLoop (type : UInt8) : Nat → Nat → DigitArrays → Nat × DigitArrays
  | 0, j, b => (j, b)
  | i + 1, j, b => reverseLoop type i (j + 1) (b.copyDigit type i j)

/-- `convert(dec, base, type)`. -/
def convertAt (fuel dec base : Nat) (type : UInt8) (b : DigitArrays) : Option DigitArrays :=
  (digitLoop base fuel dec 0 b).map fun (i, b) ↦
    let (i, b) :=
      -- the `0x` of a pointer goes the other way round too
      if type = chr 'p' then (i + 2, (b.store i (chr 'x')).store (i + 1) (chr '0')) else (i, b)
    let (j, b) := reverseLoop type i 0 b
    let b := if type = chr 'x' then { b with x := Function.update b.x j 0 } else b
    if type = chr 'd' then { b with d := Function.update b.d j 0 } else b

namespace Libc

/-- `convert(dec, base, type)` of a process. -/
def convertAt (fuel dec base : Nat) (type : UInt8) (b : DigitArrays) : Option DigitArrays :=
  Sbunix.convertAt fuel dec base type b

end Libc

variable {base fuel dec i j r v : Nat} {b : DigitArrays} {type c : UInt8} {l s : CString} {g g' : Memory}

/-! ## The loops -/

/-- The first loop stores the digits from the index on, the last one first. -/
theorem digitLoop_eq (hb : 1 < base) (hb' : base ≤ 16) (hfuel : 0 < fuel) (h : dec < base ^ fuel) :
    let l := ((Nat.toDigits base dec).map chr).reverse
    digitLoop base fuel dec i b = some (i + l.length, { b with
      fmt := b.fmt.putBytes i l
      used := (List.range' i l.length).reverse ++ b.used }) := by
  intro l
  induction fuel generalizing dec i b with
  | zero => exact absurd hfuel (Nat.lt_irrefl 0)
  | succ fuel ih =>
      have hmod : dec % base < 16 := Nat.lt_of_lt_of_le (Nat.mod_lt _ (by omega)) hb'
      rw [digitLoop, digitChar_eq hmod]
      by_cases hlt : dec < base
      · -- the first digit of the number ends the loop
        have hl : l = [chr (Nat.digitChar dec)] := by
          dsimp only [l]
          rw [Nat.toDigits_of_lt_base hlt]
          rfl
        rw [Nat.div_eq_of_lt hlt, if_neg (Nat.lt_irrefl 0), Nat.mod_eq_of_lt hlt, hl,
          Memory.putBytes_cons, Memory.putBytes_nil]
        rfl
      · have hle : base ≤ dec := Nat.le_of_not_lt hlt
        have hpow : dec / base < base ^ fuel := by
          rw [Nat.div_lt_iff_lt_mul (by omega), ← Nat.pow_succ]
          exact h
        have hpos : 0 < fuel := by
          rcases Nat.eq_zero_or_pos fuel with rfl | hpos
          · rw [Nat.zero_add, Nat.pow_one] at h
            exact absurd h hlt
          · exact hpos
        have hl : l = chr (Nat.digitChar (dec % base)) ::
            ((Nat.toDigits base (dec / base)).map chr).reverse := by
          dsimp only [l]
          rw [Nat.toDigits_of_base_le hb hle, List.map_append, List.reverse_append]
          rfl
        rw [if_pos (Nat.div_pos hle (by omega)), ih hpos hpow, hl, Memory.putBytes_cons,
          List.length_cons, List.range'_succ, List.reverse_cons, List.append_assoc,
          Nat.add_right_comm i 1]
        rfl

namespace DigitArrays

theorem destination_with : (b.withDestination type g).destination type = g := by
  unfold destination withDestination
  split
  · rfl
  · rfl

theorem with_with :
    (b.withDestination type g).withDestination type g' = b.withDestination type g' := by
  unfold withDestination
  split
  · rfl
  · rfl

theorem fmt_with : (b.withDestination type g).fmt = b.fmt := by
  unfold withDestination
  split
  · rfl
  · rfl

theorem used_with : (b.withDestination type g).used = b.used := by
  unfold withDestination
  split
  · rfl
  · rfl

theorem with_used {u : List Nat} : { b.withDestination type g with used := u } =
    { b with used := u }.withDestination type g := by
  unfold withDestination
  split
  · rfl
  · rfl

theorem copyDigit_eq (hc : type ≠ chr 'c') : b.copyDigit type i j =
    { b with used := i :: b.used }.withDestination type
      (Function.update (b.destination type) j (b.fmt i)) := by
  unfold copyDigit withDestination destination
  rw [if_neg hc]
  split
  · rfl
  · rfl

end DigitArrays

/-- The second loop copies the digits in the other order. -/
theorem reverseLoop_eq (hc : type ≠ chr 'c') (hl : ∀ k < l.length, b.fmt k = l.getD k 0) :
    reverseLoop type l.length j b =
      (j + l.length, { b with used := List.range l.length ++ b.used }.withDestination type
        ((b.destination type).putBytes j l.reverse)) := by
  -- the digits are taken from the end of the array
  induction l using List.reverseRecOn generalizing j b with
  | nil =>
      rw [List.reverse_nil, Memory.putBytes_nil]
      unfold DigitArrays.withDestination DigitArrays.destination
      split
      · rfl
      · rfl
  | append_singleton l c ih =>
      have hlast : b.fmt l.length = c := by
        rw [hl l.length (by simp), List.getD_append_right _ _ _ _ (Nat.le_refl _), Nat.sub_self]
        rfl
      rw [List.length_append, List.length_singleton, reverseLoop, DigitArrays.copyDigit_eq hc, hlast, ih]
      · rw [DigitArrays.destination_with, DigitArrays.used_with, DigitArrays.with_used,
          DigitArrays.with_with, List.reverse_append, List.reverse_singleton, List.singleton_append,
          Memory.putBytes_cons, List.range_succ, List.append_assoc, Nat.add_assoc, Nat.add_comm 1]
        rfl
      · intro k hk
        rw [DigitArrays.fmt_with]
        have := hl k (by rw [List.length_append]; omega)
        rwa [List.getD_append _ _ _ _ hk] at this

/-- The digits and a NUL are in the global for the type behind the call, and in the local array the
other way round. -/
theorem convertAt_eq (hb : 1 < base) (hb' : base ≤ 16) (hdec : dec < base ^ 20) (hfuel : 20 ≤ fuel)
    (htype : type = chr 'd' ∨ type = chr 'x') :
    let s := convert dec base
    convertAt fuel dec base type b = some ({ b with
      fmt := b.fmt.putBytes 0 s.reverse
      used := List.range s.length ++ ((List.range' 0 s.length).reverse ++ b.used)
      }.withDestination type (Function.update ((b.destination type).putBytes 0 s) s.length 0)) := by
  intro s
  have hs : s = (Nat.toDigits base dec).map chr := convert_eq hb hb' hdec
  have hloop := digitLoop_eq (b := b) (i := 0) hb hb' (show 0 < fuel by omega)
    (hdec.trans_le (Nat.pow_le_pow_right (by omega) hfuel))
  dsimp only at hloop
  rw [← hs, Nat.zero_add, List.length_reverse] at hloop
  have hp : type ≠ chr 'p' := by rcases htype with rfl | rfl <;> decide
  have hc : type ≠ chr 'c' := by rcases htype with rfl | rfl <;> decide
  -- the array holds the digits from 0 on
  have hcopy := reverseLoop_eq (l := s.reverse) (j := 0) (b := { b with
      fmt := b.fmt.putBytes 0 s.reverse
      used := (List.range' 0 s.length).reverse ++ b.used }) hc fun k hk ↦ by
    have := Memory.putBytes_apply_of_mem (m := b.fmt) (a := 0) hk
    rwa [Nat.zero_add] at this
  rw [List.length_reverse, List.reverse_reverse, Nat.zero_add] at hcopy
  rw [convertAt, hloop, Option.map_some]
  dsimp only
  rw [if_neg hp, hcopy]
  dsimp only
  rcases htype with rfl | rfl
  · rfl
  · rfl

/-! ## What the digits say -/

/-- The value of a digit up to `f`. -/
def digitVal (c : UInt8) : Nat := if c.toNat < 58 then c.toNat - 48 else c.toNat - 87

/-- The number that digits stand for. -/
def numeral (base : Nat) (s : CString) : Nat := s.foldl (fun v c ↦ v * base + digitVal c) 0

/-- The digits of a number, without leading zeros. -/
structure IsNumeral (base v : Nat) (s : CString) : Prop where
  digits : ∀ c ∈ s, c ∈ (cstr "0123456789abcdef").take base
  value : numeral base s = v
  zero : v = 0 → s = cstr "0"
  leading : v ≠ 0 → ∃ c ∈ s.head?, c ≠ chr '0'

theorem numeral_concat : numeral base (s ++ [c]) = numeral base s * base + digitVal c := by
  rw [numeral, List.foldl_append]
  rfl

theorem digitVal_digitChar (h : r < 16) : digitVal (chr (Nat.digitChar r)) = r := by
  have hall : ∀ r < 16, digitVal (chr (Nat.digitChar r)) = r := by decide
  exact hall r h

theorem digitChar_mem (h : r < base) (hb : base ≤ 16) :
    chr (Nat.digitChar r) ∈ (cstr "0123456789abcdef").take base := by
  have hall : ∀ r < 16, (cstr "0123456789abcdef")[r]? = some (chr (Nat.digitChar r)) := by decide
  refine List.mem_of_getElem? (i := r) ?_
  rw [List.getElem?_take_of_lt h]
  exact hall r (h.trans_le hb)

theorem isNumeral_toDigits (hb : 1 < base) (hb' : base ≤ 16) :
    IsNumeral base v ((Nat.toDigits base v).map chr) := by
  induction v using Nat.base_induction base hb with
  | single m hm =>
      rw [Nat.toDigits_of_lt_base hm]
      have h16 := hm.trans_le hb'
      refine ⟨fun c hc ↦ ?_, ?_, ?_, fun hv ↦ ⟨_, rfl, ?_⟩⟩
      · rw [List.mem_singleton.mp hc]
        exact digitChar_mem hm hb'
      · rw [numeral, List.map_singleton, List.foldl_cons, Nat.zero_mul, Nat.zero_add,
          digitVal_digitChar h16]
        rfl
      · rintro rfl
        rfl
      · intro he
        rw [← digitVal_digitChar h16, he] at hv
        exact hv rfl
  | digit m k hk hm ih =>
      rw [← Nat.toDigits_append_toDigits hb hm hk, Nat.toDigits_of_lt_base hk, List.map_append]
      refine ⟨fun c hc ↦ ?_, ?_, fun hv ↦ ?_, fun _ ↦ ?_⟩
      · rcases List.mem_append.mp hc with hc | hc
        · exact ih.digits c hc
        · rw [List.mem_singleton.mp hc]
          exact digitChar_mem hk hb'
      · rw [List.map_singleton, numeral_concat, ih.value, digitVal_digitChar (hk.trans_le hb'),
          Nat.mul_comm]
      · have := Nat.mul_pos (Nat.zero_lt_of_lt hb) hm
        omega
      · obtain ⟨c, hc, hne⟩ := ih.leading hm.ne'
        exact ⟨c, List.mem_head?_append_of_mem_head? hc, hne⟩

theorem stringIn_terminated (hs : 0 ∉ s) :
    StringIn (Function.update (g.putBytes 0 s) s.length 0) 0 s := by
  refine stringIn_of_bytes (fun i hi ↦ ?_) ?_ hs
  · rw [Nat.zero_add, Function.update_of_ne hi.ne]
    have := Memory.putBytes_apply_of_mem (m := g) (a := 0) hi
    rwa [Nat.zero_add] at this
  · rw [Nat.zero_add, Function.update_self]

/-! ## The two functions -/

/-- A conversion comes to an end and leaves the digits of the number in the global for its type, with a
NUL; the other global stays, and the local array is used below 20 only. -/
def Converts (convert : Nat → Nat → Nat → UInt8 → DigitArrays → Option DigitArrays) (v base : Nat)
    (type : UInt8) (b : DigitArrays) : Prop :=
  ∃ b' s, (∀ fuel, 20 ≤ fuel → convert fuel v base type b = some b') ∧ IsNumeral base v s ∧
    StringIn (b'.destination type) 0 s ∧ (type = chr 'd' → b'.x = b.x) ∧
    (type = chr 'x' → b'.d = b.d) ∧ ∀ i ∈ b'.used, i ∈ b.used ∨ i < 20

theorem convertAt_converts (hv : v < 2 ^ 64) (hbase : base = 10 ∨ base = 16)
    (htype : type = chr 'd' ∨ type = chr 'x') (b : DigitArrays) :
    Converts convertAt v base type b ∧ Converts Libc.convertAt v base type b := by
  have h : Converts convertAt v base type b := by
    have hb : 1 < base := by omega
    have hb' : base ≤ 16 := by omega
    -- 20 digits are enough for 64 bits in either base
    have hpow : v < base ^ 20 := by
      rcases hbase with rfl | rfl
      · exact hv.trans (by decide)
      · exact hv.trans (by decide)
    have hs := convert_eq hb hb' hpow
    have hnum : IsNumeral base v (convert v base) := hs ▸ isNumeral_toDigits hb hb'
    have hlen : (convert v base).length ≤ 20 := by
      rw [hs, List.length_map, Nat.length_toDigits_le_iff hb (by decide)]
      exact hpow
    have hzero : 0 ∉ convert v base := fun h ↦
      absurd (List.mem_of_mem_take (hnum.digits 0 h)) (by decide)
    refine ⟨_, _, fun fuel hfuel ↦ convertAt_eq hb hb' hpow hfuel htype, hnum, ?_, ?_, ?_, ?_⟩
    · rw [DigitArrays.destination_with]
      exact stringIn_terminated hzero
    · rintro rfl
      rfl
    · rintro rfl
      rfl
    · rw [DigitArrays.used_with]
      intro i hi
      simp only [List.mem_append, List.mem_range, List.mem_reverse, List.mem_range'_1] at hi
      rcases hi with hi | hi | hi
      · exact .inr (hi.trans_le hlen)
      · exact .inr (by omega)
      · exact .inl hi
  exact ⟨h, h⟩

/-- Nothing has been converted yet. -/
def blankArrays : DigitArrays := ⟨fun _ ↦ 0, fun _ ↦ 0, fun _ ↦ 0, [], []⟩

theorem convertAt_converts_max : Converts convertAt (2 ^ 64 - 1) 10 (chr 'd') blankArrays ∧
    Converts Libc.convertAt (2 ^ 64 - 1) 10 (chr 'd') blankArrays :=
  convertAt_converts (by decide) (.inl rfl) (.inl rfl) blankArrays

end Sbunix
