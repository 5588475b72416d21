import Sbunix.Libc.Strings
import Mathlib.Data.List.Infix

/-!
# Substrings (`sys/string.c`, `libc/string.c`)

`strstr` tries the positions one after the other, and stops before the last one at which there is room
for the other string.  The strings have less than 2 GiB, as the `int` of the positions needs.
-/

namespace Sbunix

open Reasoning

/-- The inner loop of `strstr` at the position `i` and the index `j`: whether it gets to the end of
`sub`. -/
def matchLoop (m : Memory) (str sub i : Nat) : Nat → Nat → Option (Bool × Reads)
  | 0, _ => none
  | fuel + 1, j =>
      if m (str + (i + j)) = m (sub + j) then
        if m (sub + (j + 1)) = 0 then some (true, [(str, i + j), (sub, j), (sub, j + 1)])
        else (matchLoop m str sub i fuel (j + 1)).map
          (Prod.map id ([(str, i + j), (sub, j), (sub, j + 1)] ++ ·))
      else some (false, [(str, i + j), (sub, j)])

/-- The outer loop at the position `i`, with `n` for `slen-sublen`. -/
def searchLoop (m : Memory) (str sub n : Nat) : Nat → Nat → Option (Int × Reads)
  | 0, _ => none
  | fuel + 1, i =>
      -- the position `n`, where `sub` would still fit, is not tried
      if i < n then
        (matchLoop m str sub i fuel 0).bind fun (found, r) ↦
          if found then some (1, r)
          else (searchLoop m str sub n fuel (i + 1)).map (Prod.map id (r ++ ·))
      else some (0, [])

/-- `strstr(str, sub)` of pointers. -/
def strstrAt (m : Memory) (fuel str sub : Nat) : Option (Int × Reads) :=
  (strlen m fuel str).bind fun (slen, r) ↦
    (strlen m fuel sub).bind fun (sublen, r') ↦
      if sublen ≤ slen then
        (searchLoop m str sub (slen - sublen) fuel 0).map (Prod.map id (r ++ r' ++ ·))
      else some (0, r ++ r')

namespace Libc

/-- `_strstr(str, sub)` of pointers. -/
def strstrAt (m : Memory) (fuel str sub : Nat) : Option (Int × Reads) :=
  Sbunix.strstrAt m fuel str sub

end Libc

variable {m : Memory} {str sub i j fuel : Nat} {s t u v : CString}

/-- The inner loop compares the rest of `sub` with what is at the position. -/
theorem matchLoop_eq (hu : StringIn m (str + (i + j)) u) (hv : StringIn m (sub + j) v)
    (hs : i + j + u.length = s.length) (ht : j + v.length = t.length) (hne : v ≠ [])
    (hfuel : v.length ≤ fuel) : ∃ reads,
      matchLoop m str sub i fuel j = some (decide (v <+: u), reads) ∧ Inside str sub s t reads := by
  obtain ⟨fuel, rfl⟩ := Nat.exists_eq_add_of_le' ((List.length_pos_of_ne_nil hne).trans_le hfuel)
  -- on what is left of `sub`
  induction v generalizing u fuel j with
  | nil => exact absurd rfl hne
  | cons d v ih =>
      obtain ⟨hd, hd0, hv⟩ := hv
      rw [List.length_cons] at ht hfuel
      have hsi : i + j ≤ s.length := by omega
      have htj : j ≤ t.length := by omega
      have htj' : j + 1 ≤ t.length := by omega
      rw [matchLoop]
      cases u with
      | nil =>
          -- the NUL of `str` is no byte of `sub`
          replace hu : m (str + (i + j)) = 0 := hu
          rw [hu, hd, if_neg hd0.symm, decide_eq_false (by simp)]
          exact ⟨_, rfl, (inside_nil.second htj).first hsi⟩
      | cons c u =>
          obtain ⟨hc, -, hu⟩ := hu
          rw [hc, hd]
          by_cases hcd : c = d
          · rw [if_pos hcd]
            cases v with
            | nil =>
                -- the end of `sub`
                replace hv : m (sub + (j + 1)) = 0 := hv
                rw [if_pos hv, decide_eq_true (by simp [hcd])]
                exact ⟨_, rfl, ((inside_nil.second htj').second htj).first hsi⟩
            | cons e v =>
                obtain ⟨fuel, rfl⟩ := Nat.exists_eq_add_of_le' (show 1 ≤ fuel by
                  rw [List.length_cons] at hfuel
                  omega)
                obtain ⟨reads, hloop, hin⟩ := ih (u := u) (j := j + 1) hu hv
                  (by rw [← hs, List.length_cons]; omega) (by omega) (List.cons_ne_nil e v) fuel
                  (by omega)
                have he : m (sub + (j + 1)) ≠ 0 := hv.1 ▸ hv.2.1
                rw [if_neg he, hloop]
                refine ⟨_, ?_, ((hin.second htj').second htj).first hsi⟩
                simp only [List.cons_prefix_cons, hcd, true_and]
                rfl
          · rw [if_neg hcd, decide_eq_false fun h ↦ hcd (List.cons_prefix_cons.mp h).1.symm]
            exact ⟨_, rfl, (inside_nil.second htj).first hsi⟩

theorem searchLoop_end {n : Nat} (h : n ≤ i) : searchLoop m str sub n (fuel + 1) i = some (0, []) := by
  rw [searchLoop, if_neg (Nat.not_lt.mpr h)]

theorem not_infix_dropLast (h : u.length ≤ t.length) (hne : t ≠ []) : ¬ t <:+: u.dropLast := fun hin ↦ by
  have hle := hin.length_le
  have hpos := List.length_pos_of_ne_nil hne
  rw [List.length_dropLast] at hle
  omega

theorem prefix_dropLast_iff (h : t.length < u.length) : t <+: u.dropLast ↔ t <+: u := by
  refine ⟨fun hp ↦ hp.trans (List.dropLast_prefix u), fun hp ↦ ?_⟩
  refine List.prefix_of_prefix_length_le hp (List.dropLast_prefix u) ?_
  rw [List.length_dropLast]
  omega

/-- The outer loop finds `sub` at the positions that are left, the last one left out. -/
theorem searchLoop_eq (hu : StringIn m (str + i) u) (ht : StringIn m sub t) (hne : t ≠ [])
    (hs : i + u.length = s.length) (hfuel : u.length + t.length < fuel) : ∃ reads,
      searchLoop m str sub (s.length - t.length) fuel i =
        some (if t <:+: u.dropLast then 1 else 0, reads) ∧ Inside str sub s t reads := by
  have hpos := List.length_pos_of_ne_nil hne
  obtain ⟨fuel, rfl⟩ := Nat.exists_eq_add_of_le' (Nat.zero_lt_of_lt hfuel)
  -- on what is left of `str`
  induction u generalizing fuel i with
  | nil =>
      rw [List.length_nil] at hs
      rw [searchLoop_end (by omega), if_neg (not_infix_dropLast (u := []) (Nat.zero_le t.length) hne)]
      exact ⟨_, rfl, inside_nil⟩
  | cons c u ih =>
      rw [List.length_cons] at hs hfuel
      by_cases hroom : t.length < u.length + 1
      · -- the last byte that is left is not part of an occurrence here
        have hu0 : u ≠ [] := List.ne_nil_of_length_pos (by omega)
        have hlen : t.length ≤ fuel := by omega
        obtain ⟨r, hmatch, hin⟩ := matchLoop_eq (s := s) (t := t) (j := 0) hu ht
          (by rw [List.length_cons]; omega) (Nat.zero_add _) hne hlen
        have hhead : t <+: c :: u.dropLast ↔ t <+: c :: u := by
          rw [← List.dropLast_cons_of_ne_nil hu0]
          exact prefix_dropLast_iff hroom
        rw [searchLoop, if_pos (by omega), hmatch, Option.bind_some, List.dropLast_cons_of_ne_nil hu0]
        dsimp only
        by_cases hp : t <+: c :: u
        · rw [decide_eq_true hp, if_pos rfl, if_pos (hhead.mpr hp).isInfix]
          exact ⟨_, rfl, hin⟩
        · obtain ⟨fuel, rfl⟩ := Nat.exists_eq_add_of_le' (show 1 ≤ fuel by omega)
          obtain ⟨r', hloop, hin'⟩ := ih (i := i + 1) hu.2.2 (by omega) fuel (by omega)
          rw [decide_eq_false hp, if_neg Bool.false_ne_true, hloop]
          refine ⟨_, ?_, hin.append hin'⟩
          simp only [List.infix_cons_iff, hhead, hp, false_or]
          rfl
      · rw [searchLoop_end (by omega), if_neg (not_infix_dropLast (Nat.not_lt.mp hroom) hne)]
        exact ⟨_, rfl, inside_nil⟩

/-- `strstr` finds a string in all but the last byte of the other one. -/
theorem strstrAt_eq (hs : StringIn m str s) (ht : StringIn m sub t) (hne : t ≠ [])
    (hfuel : s.length + t.length < fuel) : ∃ reads,
      strstrAt m fuel str sub = some (if t <:+: s.dropLast then 1 else 0, reads) ∧
        Inside str sub s t reads := by
  rw [strstrAt, strlen_eq hs (by omega), Option.bind_some]
  dsimp only
  rw [strlen_eq ht (by omega), Option.bind_some]
  dsimp only
  by_cases hle : t.length ≤ s.length
  · obtain ⟨reads, hloop, hin⟩ := searchLoop_eq (i := 0) hs ht hne (Nat.zero_add _) hfuel
    rw [if_pos hle, hloop]
    exact ⟨_, rfl, inside_strlen.append hin⟩
  · rw [if_neg hle, if_neg (not_infix_dropLast (Nat.le_of_not_le hle) hne)]
    exact ⟨_, rfl, inside_strlen⟩

/-! ## What is found -/

/-- A search comes to an end inside of both strings, with 1 exactly when the second one is somewhere in
the first one. -/
def Finds (search : Memory → Nat → Nat → Nat → Option (Int × Reads)) (m : Memory) (str sub : Nat)
    (s t : CString) : Prop :=
  ∀ fuel, s.length + t.length < fuel → ∃ r reads, search m fuel str sub = some (r, reads) ∧
    Inside str sub s t reads ∧ (r = 1 ↔ t <:+: s)

theorem infix_iff_suffix_or_dropLast : t <:+: s ↔ t <:+ s ∨ t <:+: s.dropLast := by
  rcases List.eq_nil_or_concat' s with rfl | ⟨s, c, rfl⟩
  · rw [List.dropLast_nil, List.infix_nil, List.suffix_nil, or_self]
  · rw [List.infix_concat_iff, List.dropLast_concat]

theorem finds_iff (hs : StringIn m str s) (ht : StringIn m sub t) (hne : t ≠ []) :
    Finds strstrAt m str sub s t ↔ (t <:+ s → t <:+: s.dropLast) := by
  have hone : (if t <:+: s.dropLast then (1 : Int) else 0) = 1 ↔ t <:+: s.dropLast :=
    Ne.ite_eq_left_iff (by decide)
  constructor
  · intro h hsuf
    obtain ⟨r, reads, hrun, -, hr⟩ := h _ (Nat.lt_succ_self _)
    obtain ⟨reads', hrun', -⟩ := strstrAt_eq hs ht hne (Nat.lt_succ_self _)
    obtain ⟨rfl, -⟩ := Prod.mk.inj (Option.some.inj (hrun.symm.trans hrun'))
    exact hone.mp (hr.mpr hsuf.isInfix)
  · intro h fuel hfuel
    obtain ⟨reads, hrun, hin⟩ := strstrAt_eq hs ht hne hfuel
    refine ⟨_, reads, hrun, hin, hone.trans ⟨fun hd ↦ ?_, fun hi ↦ ?_⟩⟩
    · exact infix_iff_suffix_or_dropLast.mpr (.inr hd)
    · exact (infix_iff_suffix_or_dropLast.mp hi).elim h id

theorem stringIn_file : StringIn (stringMemory (cstr "a.elf")) 0x1000 (cstr "a.elf") :=
  stringIn_stringMemory (by decide)

theorem stringIn_extension : StringIn (stringMemory (cstr "a.elf")) 0x1001 (cstr ".elf") :=
  stringIn_file.drop (n := 1) (by decide)

/-- Both functions answer right exactly for a string that is not at the end of the other one, or is
somewhere before the end as well. -/
theorem strstrAt_finds_iff (hs : StringIn m str s) (ht : StringIn m sub t) (hne : t ≠ []) :
    (Finds strstrAt m str sub s t ↔ (t <:+ s → t <:+: s.dropLast)) ∧
      (Finds Libc.strstrAt m str sub s t ↔ (t <:+ s → t <:+: s.dropLast)) :=
  ⟨finds_iff hs ht hne, finds_iff hs ht hne⟩

theorem strstrAt_finds_iff_extension :
    let m := stringMemory (cstr "a.elf")
    (Finds strstrAt m 0x1000 0x1001 (cstr "a.elf") (cstr ".elf") ↔
        (cstr ".elf" <:+ cstr "a.elf" → cstr ".elf" <:+: (cstr "a.elf").dropLast)) ∧
      (Finds Libc.strstrAt m 0x1000 0x1001 (cstr "a.elf") (cstr ".elf") ↔
        (cstr ".elf" <:+ cstr "a.elf" → cstr ".elf" <:+: (cstr "a.elf").dropLast)) :=
  strstrAt_finds_iff stringIn_file stringIn_extension (by decide)

/-- The extension of a file name is not found. -/
theorem not_finds_extension :
    let m := stringMemory (cstr "a.elf")
    ¬ Finds strstrAt m 0x1000 0x1001 (cstr "a.elf") (cstr ".elf") ∧
      ¬ Finds Libc.strstrAt m 0x1000 0x1001 (cstr "a.elf") (cstr ".elf") := by
  intro m
  have h : ¬ Finds strstrAt m 0x1000 0x1001 (cstr "a.elf") (cstr ".elf") := fun hf ↦
    absurd ((finds_iff stringIn_file stringIn_extension (by decide)).mp hf (by decide)) (by decide)
  exact ⟨h, h⟩

end Sbunix
