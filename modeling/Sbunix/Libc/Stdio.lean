import Sbunix.Libc.Printf
import Sbunix.Sys.Kprintf

/-!
# Output byte by byte (`libc/stdio.c`, `libc/string.c`)

`put_s` sends a string to the console one byte at a time, each as a string of its own in the two bytes
of `p`, and tests for the NUL behind the byte that it has sent.  `_strcpy_` copies up to the NUL.
-/

namespace Sbunix

open Reasoning

/-- `put_ch(str)`, with `p` the array that the byte goes through: what is printed, and the memory behind
the call. -/
def putCh (va : Nat → Nat) (p : Nat) (m : Memory) (str : UInt8) : Option (List ConsoleOp × Memory) :=
  let m := Function.update m p str
  (writeSyscall m va 1 p 1).map fun (_, r) ↦ (r.ops, m)

/-- The loop of `put_s(str)` at the index `i`, `left` before the index, an `int`, overflows. -/
def putSLoop (va : Nat → Nat) (p str : Nat) : Nat → Nat → Memory → Option (List ConsoleOp × Memory)
  | 0, _, _ => none
  | left + 1, i, m =>
      (putCh va p m (m (str + i))).bind fun (ops, m) ↦
        if m (str + i + 1) ≠ 0 then
          (putSLoop va p str left (i + 1) m).map fun (rest, m) ↦ (ops ++ rest, m)
        else some (ops, m)

/-- `put_s(str)`. -/
def putS (va : Nat → Nat) (p : Nat) (m : Memory) (str : Nat) : Option (List ConsoleOp × Memory) :=
  putSLoop va p str (2 ^ 31) 0 m

/-- The loop of `_strcpy_(src, dest)` at the index `i`, `left` before the index overflows. -/
def strcpyLoop (src dest : Nat) : Nat → Nat → Memory → Option Memory
  | 0, _, _ => none
  | left + 1, i, m =>
      if m (src + i) ≠ 0 then
        strcpyLoop src dest left (i + 1) (Function.update m (dest + i) (m (src + i)))
      else some (Function.update m (dest + i) 0)

/-- `_strcpy_(src, dest)`. -/
def strcpy (m : Memory) (src dest : Nat) : Option Memory := strcpyLoop src dest (2 ^ 31) 0 m

variable {va : Nat → Nat} {p str i left a n src dest : Nat} {m m' : Memory} {c : UInt8}
  {s : CString}

/-! ## Strings in memory -/

theorem StringIn.congr (h : StringIn m a s) (hm : ∀ x, a ≤ x → x ≤ a + s.length → m' x = m x) :
    StringIn m' a s := by
  induction s generalizing a with
  | nil => exact (hm a (Nat.le_refl a) (Nat.le_refl _)).trans h
  | cons c s ih =>
      obtain ⟨hc, hne, hs⟩ := h
      rw [List.length_cons] at hm
      refine ⟨(hm a (Nat.le_refl a) (by omega)).trans hc, hne, ih hs fun x hx hx' ↦ ?_⟩
      apply hm
      · omega
      · omega

theorem StringIn.zero_notMem (h : StringIn m a s) : 0 ∉ s := by
  induction s generalizing a with
  | nil => exact List.not_mem_nil
  | cons c s ih =>
      rw [List.mem_cons, not_or]
      exact ⟨Ne.symm h.2.1, ih h.2.2⟩

/-- The string at an address is there up to its first zero. -/
theorem stringIn_takeWhile (hm : ∀ i < s.length, m (a + i) = s.getD i 0) (hnul : m (a + s.length) = 0) :
    StringIn m a (s.takeWhile (· ≠ 0)) := by
  induction s generalizing a with
  | nil => exact hnul
  | cons c s ih =>
      have hhead : m a = c := hm 0 s.length.succ_pos
      by_cases hc : c = 0
      · rw [List.takeWhile_cons_of_neg (by simp [hc])]
        exact hhead.trans hc
      · rw [List.takeWhile_cons_of_pos (by simp [hc])]
        refine ⟨hhead, hc, ih (fun i hi ↦ ?_) ?_⟩
        · rw [Nat.add_assoc, Nat.add_comm 1]
          exact hm (i + 1) (Nat.succ_lt_succ hi)
        · rw [Nat.add_assoc, Nat.add_comm 1]
          exact hnul

/-! ## Output -/

/-- A byte that is no percent sign is printed as it is, and a NUL not at all. -/
theorem putCh_eq (hp : m (p + 1) = 0) (hc : c ≠ chr '%') :
    putCh va p m c = some (([c].filter (· ≠ 0)).map charOp, Function.update m p c) := by
  have hnext : Function.update m p c (p + 1) = 0 := by
    rw [Function.update_of_ne (Nat.succ_ne_self p), hp]
  have hs : StringIn (Function.update m p c) p ([c].filter (· ≠ 0)) := by
    by_cases h0 : c = 0
    · show StringIn (Function.update m p c) p _
      rw [List.filter_cons_of_neg (by simp [h0])]
      exact (Function.update_self p c m).trans h0
    · rw [List.filter_cons_of_pos (by simp [h0])]
      exact ⟨Function.update_self p c m, h0, hnext⟩
  have hplain : chr '%' ∉ [c].filter (· ≠ 0) := fun h ↦
    hc (List.mem_singleton.mp (List.mem_of_mem_filter h)).symm
  have hlen : ([c].filter (· ≠ 0)).length < 2 ^ 31 :=
    Nat.lt_of_le_of_lt (List.length_filter_le _ _) (by decide : 1 < 2 ^ 31)
  obtain ⟨ht, hk⟩ := typed_plain hplain
  have hargs : VaArgs (Function.update m p c) va 0 [] := trivial
  obtain ⟨r, hr, hops, -⟩ := kprintfAt_eq hs hargs ht hlen (by rwa [hk, List.length_map])
  show (writeSyscall (Function.update m p c) va 1 p 1).map _ = _
  rw [writeSyscall, if_pos (.inl rfl), hr]
  show some (r.ops, _) = _
  rw [hops, hk]

/-- The loop sends the byte at its index, and the string behind it. -/
theorem putSLoop_eq (hs : StringIn m (str + i + 1) s) (hc : m (str + i) = c)
    (hp : m (p + 1) = 0) (hout : p < str + i ∨ str + i + 1 + s.length < p)
    (hplain : chr '%' ∉ c :: s) (hleft : s.length < left) :
    ∃ b, putSLoop va p str left i m =
      some ((([c].filter (· ≠ 0)) ++ s).map charOp, Function.update m p b) := by
  induction s generalizing i m c left with
  | nil =>
      obtain ⟨left, rfl⟩ : ∃ n, left = n + 1 := Nat.exists_eq_add_of_le' hleft
      have hnul : Function.update m p c (str + i + 1) = 0 := by
        rw [Function.update_of_ne (by simp only [List.length_nil] at hout; omega)]
        exact hs
      refine ⟨c, ?_⟩
      rw [putSLoop, hc, putCh_eq hp (fun h ↦ hplain (h ▸ List.mem_cons_self)), Option.bind_some]
      dsimp only
      rw [if_neg (not_not.mpr hnul), List.append_nil]
  | cons d s ih =>
      obtain ⟨left, rfl⟩ : ∃ n, left = n + 1 := Nat.exists_eq_add_of_le' (Nat.zero_lt_of_lt hleft)
      rw [List.length_cons] at hout hleft
      obtain ⟨hd, hne, hs⟩ := hs
      have hkeep (x : Nat) (hx : x ≠ p) : Function.update m p c x = m x := Function.update_of_ne hx c m
      have hd' : Function.update m p c (str + (i + 1)) = d := by
        rw [hkeep _ (by omega)]
        exact hd
      -- the bytes that are still to come are not those of `p`
      obtain ⟨b, hb⟩ := ih (i := i + 1) (m := Function.update m p c) (c := d)
        (hs.congr fun x hx hx' ↦ hkeep x (by omega)) hd' ((hkeep _ (Nat.succ_ne_self p)).trans hp)
        (by omega) (fun h ↦ hplain (List.mem_cons_of_mem c h)) (Nat.lt_of_succ_lt_succ hleft)
      refine ⟨b, ?_⟩
      have hnext : Function.update m p c (str + i + 1) ≠ 0 := by
        show Function.update m p c (str + (i + 1)) ≠ 0
        rw [hd']
        exact hne
      rw [putSLoop, hc, putCh_eq hp (fun h ↦ hplain (h ▸ List.mem_cons_self)), Option.bind_some]
      dsimp only
      have hfilter : [d].filter (· ≠ 0) = [d] := List.filter_cons_of_pos (by simp [hne])
      rw [if_pos hnext, hb, Option.map_some, Function.update_idem, hfilter, List.map_append,
        List.map_append]
      rfl

/-- `put_s` sends its first byte in any case, and then what comes before the next NUL. -/
theorem putS_eq (hs : StringIn m (str + 1) s) (hp : m (p + 1) = 0)
    (hout : p < str ∨ str + 1 + s.length < p) (hplain : chr '%' ∉ m str :: s)
    (hlen : s.length < 2 ^ 31) :
    ∃ b, putS va p m str =
      some ((([m str].filter (· ≠ 0)) ++ s).map charOp, Function.update m p b) :=
  putSLoop_eq (i := 0) hs rfl hp hout hplain hlen

/-! ## Copies -/

/-- A copy that does not run into its source leaves the string, with its NUL, and nothing else. -/
theorem strcpyLoop_eq (hs : StringIn m (src + i) s) (hout : dest ≤ src ∨ src + s.length < dest)
    (hleft : s.length < left) :
    strcpyLoop src dest left i m = some (m.putBytes (dest + i) (s ++ [0])) := by
  induction s generalizing i m left with
  | nil =>
      obtain ⟨left, rfl⟩ : ∃ n, left = n + 1 := Nat.exists_eq_add_of_le' hleft
      have hnul : m (src + i) = 0 := hs
      rw [strcpyLoop, if_neg (not_not.mpr hnul), List.nil_append, Memory.putBytes_cons,
        Memory.putBytes_nil]
  | cons c s ih =>
      obtain ⟨left, rfl⟩ : ∃ n, left = n + 1 := Nat.exists_eq_add_of_le' (Nat.zero_lt_of_lt hleft)
      rw [List.length_cons] at hout hleft
      obtain ⟨hc, hne, hs⟩ := hs
      have hrest : StringIn (Function.update m (dest + i) c) (src + (i + 1)) s :=
        hs.congr fun x hx hx' ↦ Function.update_of_ne (by omega) c m
      rw [strcpyLoop, hc, if_pos hne, ih hrest (by omega) (Nat.lt_of_succ_lt_succ hleft),
        List.cons_append, Memory.putBytes_cons]
      rfl

theorem strcpy_eq (hs : StringIn m src s) (hout : dest ≤ src ∨ src + s.length < dest)
    (hlen : s.length < 2 ^ 31) : strcpy m src dest = some (m.putBytes dest (s ++ [0])) :=
  strcpyLoop_eq (i := 0) hs hout hlen

/-- The string that is copied is there. -/
theorem stringIn_putBytes (hzero : 0 ∉ s) : StringIn (m.putBytes a (s ++ [0])) a s := by
  have hlen : (s ++ [(0 : UInt8)]).length = s.length + 1 := List.length_append
  apply stringIn_of_bytes
  · intro i hi
    rw [Memory.putBytes_apply_of_mem (by omega), List.getD_append _ _ _ _ hi]
  · rw [Memory.putBytes_apply_of_mem (by omega), List.getD_append_right _ _ _ _ (Nat.le_refl _),
      Nat.sub_self]
    rfl
  · exact hzero

end Sbunix
