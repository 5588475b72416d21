import Sbunix.Libc.CdRun
import Sbunix.Libc.SplitRun

/-!
# Strings in memory (`sys/string.c`, `libc/string.c`)

`strlen` and `strcmp` on strings that lie in memory.  The functions of the kernel are there once more,
word for word, in the library of the processes.  The loops run on fuel, and every function says which
bytes it reads.  An index is an `int`, which is enough for strings of less than 2 GiB.
-/

namespace Sbunix

open Reasoning

/-- What is read of strings: each time a pointer, and the index behind it. -/
abbrev Reads := List (Nat × Nat)

/-- The loop of `strlen` at the index `len`. -/
def strlenLoop (m : Memory) (a : Nat) : Nat → Nat → Option (Nat × Reads)
  | 0, _ => none
  | fuel + 1, len =>
      if m (a + len) = 0 then some (len, [(a, len)])
      else (strlenLoop m a fuel (len + 1)).map (Prod.map id ((a, len) :: ·))

/-- `strlen(a)`, and `_strlen_(a)`. -/
def strlen (m : Memory) (fuel a : Nat) : Option (Nat × Reads) := strlenLoop m a fuel 0

/-- The loop of `strcmp`: the offset at which it stops. -/
def compareLoop (m : Memory) (a b : Nat) : Nat → Nat → Option (Nat × Reads)
  | 0, _ => none
  | fuel + 1, len =>
      if m (a + len) = m (b + len) then
        if m (a + len) = 0 ∧ m (b + len) = 0 then
          some (len, [(a, len), (b, len), (a, len), (b, len)])
        else
          -- the byte of `b` is not looked at again behind the one of `a`
          (compareLoop m a b fuel (len + 1)).map
            (Prod.map id ([(a, len), (b, len), (a, len)] ++ ·))
      else some (len, [(a, len), (b, len)])

/-- `strcmp(a, b, len)` of pointers. -/
def strcmpAt (m : Memory) (fuel a b len : Nat) : Option (Int × Reads) :=
  (strlen m fuel a).bind fun (alen, r) ↦
    (strlen m fuel b).bind fun (blen, r') ↦
      if alen = blen then
        (compareLoop m a b fuel len).map fun (len, r'') ↦
          -- however the loop was left, its offset decides
          (if len = alen then 0 else -1, r ++ r' ++ r'')
      else some (-1, r ++ r')

namespace Libc

/-- `_strcmp(a, b, len)` of pointers. -/
def strcmpAt (m : Memory) (fuel a b len : Nat) : Option (Int × Reads) :=
  Sbunix.strcmpAt m fuel a b len

end Libc

variable {m : Memory} {a b len fuel : Nat} {s t u v : CString} {reads reads' : Reads}

theorem StringIn.drop (h : StringIn m a s) {n : Nat} (hn : n ≤ s.length) :
    StringIn m (a + n) (s.drop n) := by
  induction n generalizing a s with
  | zero => exact h
  | succ n ih =>
      cases s with
      | nil => cases hn
      | cons c s =>
          have := ih h.2.2 (Nat.le_of_succ_le_succ hn)
          rwa [Nat.add_assoc, Nat.add_comm 1 n] at this

/-- Every byte that is read is one of the two strings or the NUL of one. -/
def Inside (a b : Nat) (s t : CString) (reads : Reads) : Prop :=
  ∀ p ∈ reads, p.1 = a ∧ p.2 ≤ s.length ∨ p.1 = b ∧ p.2 ≤ t.length

theorem Inside.append (h : Inside a b s t reads) (h' : Inside a b s t reads') :
    Inside a b s t (reads ++ reads') := fun p hp ↦ (List.mem_append.mp hp).elim (h p) (h' p)

theorem Inside.first {i : Nat} (hi : i ≤ s.length) (h : Inside a b s t reads) :
    Inside a b s t ((a, i) :: reads) := List.forall_mem_cons.mpr ⟨.inl ⟨rfl, hi⟩, h⟩

theorem Inside.second {i : Nat} (hi : i ≤ t.length) (h : Inside a b s t reads) :
    Inside a b s t ((b, i) :: reads) := List.forall_mem_cons.mpr ⟨.inr ⟨rfl, hi⟩, h⟩

theorem inside_nil : Inside a b s t [] := fun _ h ↦ absurd h List.not_mem_nil

/-! ## `strlen` -/

/-- The loop counts the bytes that are left, and reads them and the NUL. -/
theorem strlenLoop_eq (hu : StringIn m (a + len) u) (hfuel : u.length < fuel) :
    strlenLoop m a fuel len =
      some (len + u.length, (List.range' len (u.length + 1)).map ((a, ·))) := by
  obtain ⟨fuel, rfl⟩ := Nat.exists_eq_add_of_le' (Nat.zero_lt_of_lt hfuel)
  induction u generalizing fuel len with
  | nil =>
      replace hu : m (a + len) = 0 := hu
      rw [strlenLoop, if_pos hu]
      rfl
  | cons c u ih =>
      obtain ⟨hc, hne, hu⟩ := hu
      have hlt : u.length < fuel := Nat.lt_of_succ_lt_succ hfuel
      obtain ⟨fuel, rfl⟩ := Nat.exists_eq_add_of_le' (Nat.zero_lt_of_lt hlt)
      rw [strlenLoop, if_neg (hc ▸ hne), ih hu fuel hlt, List.length_cons, List.range'_succ,
        Nat.add_right_comm len 1]
      rfl

theorem strlen_eq (hs : StringIn m a s) (hfuel : s.length < fuel) :
    strlen m fuel a = some (s.length, (List.range' 0 (s.length + 1)).map ((a, ·))) := by
  rw [strlen, strlenLoop_eq hs hfuel, Nat.zero_add]

theorem inside_strlen : Inside a b s t ((List.range' 0 (s.length + 1)).map ((a, ·)) ++
    (List.range' 0 (t.length + 1)).map ((b, ·))) := by
  refine Inside.append (fun p hp ↦ ?_) fun p hp ↦ ?_
  · obtain ⟨i, hi, rfl⟩ := List.mem_map.mp hp
    rw [List.mem_range'_1] at hi
    exact .inl ⟨rfl, by dsimp only; omega⟩
  · obtain ⟨i, hi, rfl⟩ := List.mem_map.mp hp
    rw [List.mem_range'_1] at hi
    exact .inr ⟨rfl, by dsimp only; omega⟩

/-! ## `strcmp` -/

/-- The loop goes as far as the rests of two strings of one length agree, and no further than their
NULs. -/
theorem compareLoop_eq (hu : StringIn m (a + len) u) (hv : StringIn m (b + len) v)
    (hs : len + u.length = s.length) (ht : len + v.length = t.length) (hst : s.length = t.length)
    (hfuel : u.length < fuel) : ∃ reads,
      compareLoop m a b fuel len = some (len + strcmpLoop u v, reads) ∧ Inside a b s t reads := by
  have huv : u.length = v.length := by omega
  have hls : len ≤ s.length := by omega
  have hlt : len ≤ t.length := by omega
  obtain ⟨fuel, rfl⟩ := Nat.exists_eq_add_of_le' (Nat.zero_lt_of_lt hfuel)
  -- on what is left of both strings
  induction u generalizing v fuel len with
  | nil =>
      -- both NULs at once
      obtain rfl := List.length_eq_zero_iff.mp huv.symm
      replace hu : m (a + len) = 0 := hu
      replace hv : m (b + len) = 0 := hv
      rw [compareLoop, if_pos (hu.trans hv.symm), if_pos ⟨hu, hv⟩]
      exact ⟨_, rfl, ((inside_nil.second hlt).first hls |>.second hlt).first hls⟩
  | cons c u ih =>
      cases v with
      | nil => cases huv
      | cons d v =>
          obtain ⟨hc, hne, hu⟩ := hu
          obtain ⟨hd, -, hv⟩ := hv
          rw [List.length_cons] at hs ht huv hfuel
          rw [compareLoop, hc, hd, strcmpLoop]
          by_cases hcd : c = d
          · -- a byte that is no NUL, so the loop goes on
            obtain ⟨fuel, rfl⟩ := Nat.exists_eq_add_of_le' (show 1 ≤ fuel by omega)
            have hu' : StringIn m (a + (len + 1)) u := hu
            have hv' : StringIn m (b + (len + 1)) v := hv
            obtain ⟨reads, hloop, hin⟩ := ih hu' hv' (by omega) (by omega) (by omega) (by omega)
              (by omega) fuel (by omega)
            rw [if_pos hcd, if_neg fun h ↦ hne h.1, hloop, if_pos hcd, Nat.add_right_comm len 1]
            exact ⟨_, rfl, ((hin.first hls).second hlt).first hls⟩
          · rw [if_neg hcd, if_neg hcd]
            exact ⟨_, rfl, (inside_nil.second hlt).first hls⟩

/-- On strings in memory, `strcmp` is what it is on lists of bytes. -/
theorem strcmpAt_eq (hs : StringIn m a s) (ht : StringIn m b t) (hlen : len ≤ s.length)
    (hsf : s.length < fuel) (htf : t.length < fuel) : ∃ reads,
      strcmpAt m fuel a b len = some (strcmpFrom s t len, reads) ∧ Inside a b s t reads := by
  rw [strcmpAt, strlen_eq hs hsf, Option.bind_some]
  dsimp only
  rw [strlen_eq ht htf, Option.bind_some, strcmpFrom]
  by_cases hst : s.length = t.length
  · have hds := List.length_drop (i := len) (l := s)
    have hdt := List.length_drop (i := len) (l := t)
    have hroom : (s.drop len).length < fuel := by omega
    obtain ⟨reads, hloop, hin⟩ := compareLoop_eq (s := s) (t := t) (hs.drop hlen)
      (ht.drop (hst ▸ hlen)) (by omega) (by omega) hst hroom
    rw [if_pos hst, hloop, Option.map_some]
    simp only [hst, true_and]
    exact ⟨_, rfl, hst ▸ inside_strlen.append hin⟩
  · rw [if_neg hst, if_neg fun h ↦ hst h.1]
    exact ⟨_, rfl, inside_strlen⟩

theorem strcmpFrom_eq_zero_iff (hlen : len ≤ s.length) : strcmpFrom s t len = 0 ↔
    s.length = t.length ∧ ∀ i, len ≤ i → s[i]? = t[i]? := by
  rw [strcmpFrom, Ne.ite_eq_left_iff (by decide)]
  refine and_congr_right fun hst ↦ ?_
  have hds := List.length_drop (i := len) (l := s)
  have hdt := List.length_drop (i := len) (l := t)
  -- the rests have one length too, so the loop gets to their end where they agree
  have hrest : len + strcmpLoop (s.drop len) (t.drop len) = s.length ↔ s.drop len = t.drop len := by
    rw [← strcmpLoop_eq_length (by omega)]
    omega
  rw [hrest]
  constructor
  · intro h i hi
    obtain ⟨k, rfl⟩ := Nat.exists_eq_add_of_le hi
    rw [← List.getElem?_drop, h, List.getElem?_drop]
  · refine fun h ↦ List.ext_getElem? fun k ↦ ?_
    rw [List.getElem?_drop, List.getElem?_drop, h (len + k) (Nat.le_add_right len k)]

theorem strcmpFrom_eq_neg_one (h : strcmpFrom s t len ≠ 0) : strcmpFrom s t len = -1 := by
  rw [strcmpFrom] at h ⊢
  split
  · next hc => exact absurd (if_pos hc) h
  · rfl

/-- A comparison of two strings from an offset on comes to an end inside of both, with 0 for strings
of one length that agree from there on and with -1 for any others. -/
def Compares (cmp : Memory → Nat → Nat → Nat → Nat → Option (Int × Reads)) (m : Memory) (a b : Nat)
    (s t : CString) (len : Nat) : Prop :=
  ∀ fuel, s.length < fuel → t.length < fuel → ∃ r reads,
    cmp m fuel a b len = some (r, reads) ∧ Inside a b s t reads ∧
      (r = 0 ↔ s.length = t.length ∧ ∀ i, len ≤ i → s[i]? = t[i]?) ∧ (r ≠ 0 → r = -1) ∧
      (len = 0 → (r = 0 ↔ s = t))

/-- Both functions compare any two strings from any offset in the first one on.  At the offset 0 this is
equality. -/
theorem strcmpAt_compares (hs : StringIn m a s) (ht : StringIn m b t) (hlen : len ≤ s.length) :
    Compares strcmpAt m a b s t len ∧ Compares Libc.strcmpAt m a b s t len := by
  have h : Compares strcmpAt m a b s t len := by
    intro fuel hsf htf
    obtain ⟨reads, hcmp, hin⟩ := strcmpAt_eq hs ht hlen hsf htf
    refine ⟨_, reads, hcmp, hin, strcmpFrom_eq_zero_iff hlen, strcmpFrom_eq_neg_one, ?_⟩
    rintro rfl
    exact strcmpFrom_zero
  exact ⟨h, h⟩

theorem stringIn_dots : StringIn (stringMemory (cstr "..")) 0x1000 (cstr "..") :=
  stringIn_stringMemory (by decide)

theorem strcmpAt_compares_dots :
    Compares strcmpAt (stringMemory (cstr "..")) 0x1000 0x1001 (cstr "..") (cstr ".") 1 ∧
      Compares Libc.strcmpAt (stringMemory (cstr "..")) 0x1000 0x1001 (cstr "..") (cstr ".") 1 :=
  strcmpAt_compares stringIn_dots (stringIn_dots.drop (n := 1) (by decide)) (by decide)

end Sbunix
