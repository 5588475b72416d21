import Sbunix.Sys.Console

/-!
# The format of `kprintf` (`sys/kprintf.c`, `sys/syscall.c`)

`kprintf` reads its format from memory byte by byte, and the variable arguments are words.  Behind a
percent sign it goes on two bytes further whatever the next one is, so a percent sign at the end takes
it past the NUL.  `writeSyscall` hands the bytes of its caller to it as the format.
-/

namespace Sbunix

open Reasoning

/-- The string `s` at an address. -/
def StringIn (m : Memory) (a : Nat) : CString → Prop
  | [] => m a = 0
  | c :: s => m a = c ∧ c ≠ 0 ∧ StringIn m (a + 1) s

/-- `va_arg(args,int)` of a word. -/
def intWord (w : Nat) : Int :=
  if w % 2 ^ 32 < 2 ^ 31 then (w % 2 ^ 32 : Nat) else (w % 2 ^ 32 : Nat) - 2 ^ 32

/-- `prints(fmt)` of a pointer, with NULL for no string. -/
def printsAt (m : Memory) (p : Nat) : Option (List ConsoleOp) :=
  if p = 0 then some [] else (m.cstring (2 ^ 31) p).map prints

/-- What `%f` prints for the argument `w`, and how many arguments it takes. -/
def conversionAt (m : Memory) (f : UInt8) (w : Nat) : Option (List ConsoleOp × Nat) :=
  if f = chr 'x' then some (printx (intWord w), 1)
  else if f = chr 's' then (printsAt m w).map (·, 1)
  else if f = chr 'c' then some (printc (intWord w % 256).toNat.toUInt8, 1)
  else if f = chr 'p' then some (printp w, 1)
  else if f = chr 'd' then some (printd (intWord w), 1)
  else some ([], 0)

/-- What a call prints, and the indices at which it reads its format. -/
structure Printed where
  ops : List ConsoleOp
  reads : List Nat

/-- The loop of `kprintf` at the index `i` and the argument `a`, `left` before the index, an `int`,
overflows. -/
def kprintfLoop (m : Memory) (fmt : Nat) (va : Nat → Nat) : Nat → Nat → Nat → Option Printed
  | 0, _, _ => none
  | left + 1, i, a =>
      if m (fmt + i) = 0 then some ⟨[], [i]⟩
      else if m (fmt + i) = chr '%' then
        match left with
        | 0 => none
        | left + 1 =>
            (conversionAt m (m (fmt + i + 1)) (va a)).bind fun (ops, n) ↦
              (kprintfLoop m fmt va left (i + 2) (a + n)).map fun r ↦
                ⟨ops ++ r.ops, i :: (i + 1) :: r.reads⟩
      else
        (kprintfLoop m fmt va left (i + 1) a).map fun r ↦
          ⟨charOp (m (fmt + i)) :: r.ops, i :: r.reads⟩

/-- `kprintf(fmt, ...)` with its format in memory. -/
def kprintfAt (m : Memory) (fmt : Nat) (va : Nat → Nat) : Option Printed :=
  kprintfLoop m fmt va (2 ^ 31) 0 0

/-- `writeSyscall(fd, str, count)`; `va` is what lies where `kprintf` looks for its arguments. -/
def writeSyscall (m : Memory) (va : Nat → Nat) (fd : Int) (str : Nat) (count : Int) :
    Option (Nat × Printed) :=
  if fd = 1 ∨ fd = 2 then (kprintfAt m str va).map (ulong count, ·)
  else some (ulong (-1), ⟨[], []⟩)

variable {m : Memory} {va : Nat → Nat} {fmt left i a str : Nat} {f c : UInt8} {s : CString}
  {args : List Arg} {x : Arg} {r : Printed}

theorem stringIn_of_bytes {m : Memory} {a : Nat} (h : ∀ i < s.length, m (a + i) = s.getD i 0)
    (hnul : m (a + s.length) = 0) (hs : 0 ∉ s) : StringIn m a s := by
  induction s generalizing a with
  | nil => exact hnul
  | cons c s ih =>
      rw [List.mem_cons, not_or] at hs
      refine ⟨h 0 s.length.succ_pos, Ne.symm hs.1, ih (fun i hi ↦ ?_) ?_ hs.2⟩
      · rw [Nat.add_assoc, Nat.add_comm 1]
        exact h (i + 1) (Nat.succ_lt_succ hi)
      · rw [Nat.add_assoc, Nat.add_comm 1]
        exact hnul

/-! ## Formats whose conversions meet their arguments -/

/-- The word of an argument; NULL is passed for a string as well. -/
def VaArg (m : Memory) (w : Nat) : Arg → Prop
  | .int n => intWord w = n
  | .str s => if w = 0 then s = [] else StringIn m w s
  | .ptr p => w = p

/-- The first argument is one for `%f`. -/
def Meets (f : UInt8) : List Arg → Prop
  | .int _ :: _ => f ≠ chr 's' ∧ f ≠ chr 'p'
  | .str _ :: _ => f ≠ chr 'x' ∧ f ≠ chr 'c' ∧ f ≠ chr 'd' ∧ f ≠ chr 'p'
  | .ptr _ :: _ => f ≠ chr 'x' ∧ f ≠ chr 'c' ∧ f ≠ chr 'd' ∧ f ≠ chr 's'
  | [] => f ≠ chr 'x' ∧ f ≠ chr 'c' ∧ f ≠ chr 'd' ∧ f ≠ chr 's' ∧ f ≠ chr 'p'

/-- Every conversion of a format meets an argument, and no percent sign is the last byte. -/
def Typed : CString → List Arg → Prop
  | [], _ => True
  | [c], _ => c ≠ chr '%'
  | c :: f :: fmt, args =>
      if c = chr '%' then Meets f args ∧ Typed fmt (conversion f args).2 else Typed (f :: fmt) args

/-- The arguments are the words from `a` on. -/
def VaArgs (m : Memory) (va : Nat → Nat) : Nat → List Arg → Prop
  | _, [] => True
  | a, x :: args => VaArg m (va a) x ∧ VaArgs m va (a + 1) args

theorem StringIn.cstring (h : StringIn m a s) (n : Nat) :
    m.cstring n a = if s.length < n then some s else none := by
  induction n generalizing a s with
  | zero => rfl
  | succ n ih =>
      cases s with
      | nil => exact if_pos h
      | cons c s =>
          obtain ⟨hc, hne, hs⟩ := h
          rw [Memory.cstring, hc, if_neg hne, ih hs, List.length_cons]
          by_cases hn : s.length < n
          · rw [if_pos hn, if_pos (Nat.succ_lt_succ hn)]
            rfl
          · rw [if_neg hn, if_neg (mt Nat.lt_of_succ_lt_succ hn)]
            rfl

theorem printsAt_eq {w : Nat} (h : VaArg m w (.str s)) :
    printsAt m w = if s.length < 2 ^ 31 then some (prints s) else none := by
  unfold printsAt
  by_cases hw : w = 0
  · obtain rfl : s = [] := by rwa [VaArg, if_pos hw] at h
    rw [if_pos hw, if_pos (show ([] : CString).length < 2 ^ 31 by decide)]
    rfl
  · have hs : StringIn m w s := by rwa [VaArg, if_neg hw] at h
    rw [if_neg hw, hs.cstring]
    split
    · rfl
    · rfl

/-- A conversion prints its argument, unless that is a string of 2^31 bytes or more. -/
theorem conversionAt_eq (hargs : VaArgs m va a args) (hf : Meets f args) : ∃ n,
    (conversionAt m f (va a) = some ((conversion f args).1, n) ∨
      conversionAt m f (va a) = none ∧ 2 ^ 31 ≤ (conversion f args).1.length) ∧
      VaArgs m va (a + n) (conversion f args).2 := by
  unfold conversionAt
  cases args with
  | nil =>
      obtain ⟨hx, hc, hd, hs, hp⟩ := hf
      rw [if_neg hx, if_neg hs, if_neg hc, if_neg hp, if_neg hd]
      exact ⟨0, .inl rfl, trivial⟩
  | cons x args =>
      obtain ⟨hx, hrest⟩ := hargs
      cases x with
      | int n =>
          obtain rfl : intWord (va a) = n := hx
          obtain ⟨hs, hp⟩ := hf
          rw [if_neg hs, if_neg hp]
          unfold conversion
          split
          · exact ⟨1, .inl rfl, hrest⟩
          · split
            · exact ⟨1, .inl rfl, hrest⟩
            · split
              · exact ⟨1, .inl rfl, hrest⟩
              · exact ⟨0, .inl rfl, rfl, hrest⟩
      | str s =>
          obtain ⟨hfx, hfc, hfd, hfp⟩ := hf
          rw [if_neg hfx, if_neg hfc, if_neg hfp, if_neg hfd, printsAt_eq hx]
          unfold conversion
          split
          · refine ⟨1, ?_, hrest⟩
            split
            · exact .inl rfl
            · next hlong =>
                have hops : (prints s).length = s.length := List.length_map _
                exact .inr ⟨rfl, (Nat.le_of_not_lt hlong).trans_eq hops.symm⟩
          · exact ⟨0, .inl rfl, hx, hrest⟩
      | ptr p =>
          obtain rfl : va a = p := hx
          obtain ⟨hfx, hfc, hfd, hfs⟩ := hf
          rw [if_neg hfx, if_neg hfs, if_neg hfc, if_neg hfd]
          unfold conversion
          split
          · exact ⟨1, .inl rfl, hrest⟩
          · exact ⟨0, .inl rfl, rfl, hrest⟩

theorem kprintfLoop_nul (h : m (fmt + i) = 0) :
    kprintfLoop m fmt va (left + 1) i a = some ⟨[], [i]⟩ := by
  cases left with
  | zero => rw [kprintfLoop, if_pos h]
  | succ left => rw [kprintfLoop, if_pos h]

theorem kprintfLoop_char (hc : m (fmt + i) = c) (hne : c ≠ 0) (hp : c ≠ chr '%') :
    kprintfLoop m fmt va (left + 1) i a = (kprintfLoop m fmt va left (i + 1) a).map fun r ↦
      ⟨charOp c :: r.ops, i :: r.reads⟩ := by
  cases left with
  | zero =>
      rw [kprintfLoop.eq_def]
      dsimp only
      rw [hc, if_neg hne, if_neg hp]
  | succ left => rw [kprintfLoop, hc, if_neg hne, if_neg hp]

theorem kprintfLoop_percent (h : m (fmt + i) = chr '%') :
    kprintfLoop m fmt va (left + 2) i a =
      (conversionAt m (m (fmt + i + 1)) (va a)).bind fun (ops, n) ↦
        (kprintfLoop m fmt va left (i + 2) (a + n)).map fun r ↦
          ⟨ops ++ r.ops, i :: (i + 1) :: r.reads⟩ := by
  rw [kprintfLoop, h, if_neg (by decide), if_pos rfl]

/-- Where the loop comes to an end, it has printed what `kprintf` prints of the format and its
arguments, and has not read behind the NUL. -/
theorem kprintfLoop_some (hs : StringIn m (fmt + i) s) (hargs : VaArgs m va a args) (ht : Typed s args)
    (h : kprintfLoop m fmt va left i a = some r) :
    r.ops = kprintf s args ∧ s.length < left ∧ ∀ j ∈ r.reads, j ≤ i + s.length := by
  induction s, args using kprintf.induct generalizing left i a r with
  | case1 args =>
      cases left with
      | zero => cases h
      | succ left =>
          rw [kprintfLoop_nul hs] at h
          obtain rfl := Option.some.inj h
          exact ⟨rfl, Nat.succ_pos left, fun j hj ↦ (List.mem_singleton.mp hj).le⟩
  | case2 args =>
      -- no percent sign is the last byte
      exact absurd rfl ht
  | case3 c args hc =>
      obtain ⟨hm, hne, hnul⟩ := hs
      change m (fmt + (i + 1)) = 0 at hnul
      match left with
      | 0 => cases h
      | 1 =>
          -- the NUL is out of reach
          rw [kprintfLoop_char hm hne hc] at h
          cases h
      | left + 2 =>
          rw [kprintfLoop_char hm hne hc, kprintfLoop_nul hnul] at h
          obtain rfl := Option.some.inj h
          refine ⟨?_, Nat.succ_lt_succ left.succ_pos, fun j hj ↦ ?_⟩
          · rw [kprintf, if_neg hc]
          · rw [List.mem_pair] at hj
            rw [List.length_singleton]
            omega
  | case4 f fmt' args ih =>
      obtain ⟨hm, hne, hf, -, hs⟩ := hs
      rw [Typed, if_pos rfl] at ht
      match left with
      | 0 => cases h
      | 1 =>
          -- the byte behind the percent sign is out of reach
          rw [kprintfLoop.eq_def] at h
          dsimp only at h
          rw [hm, if_neg hne, if_pos rfl] at h
          cases h
      | left + 2 =>
          obtain ⟨n, hconv | ⟨hconv, -⟩, hrest⟩ := conversionAt_eq hargs ht.1
          · rw [kprintfLoop_percent hm, hf, hconv, Option.bind_some, Option.map_eq_some_iff] at h
            obtain ⟨r, hr, rfl⟩ := h
            obtain ⟨hops, hleft, hreads⟩ := ih (show StringIn m (fmt + (i + 2)) fmt' from hs) hrest ht.2 hr
            refine ⟨?_, Nat.succ_lt_succ (Nat.succ_lt_succ hleft), fun j hj ↦ ?_⟩
            · rw [kprintf, if_pos rfl, ← hops]
            · rw [List.length_cons, List.length_cons]
              rcases List.mem_cons.mp hj with rfl | hj
              · omega
              · rcases List.mem_cons.mp hj with rfl | hj
                · omega
                · have := hreads j hj
                  omega
          · -- a string that is too long ends the call
            rw [kprintfLoop_percent hm, hf, hconv] at h
            cases h
  | case5 c f fmt' args hc ih =>
      cases left with
      | zero => cases h
      | succ left =>
          obtain ⟨hm, hne, hs⟩ := hs
          rw [Typed, if_neg hc] at ht
          rw [kprintfLoop_char hm hne hc, Option.map_eq_some_iff] at h
          obtain ⟨r, hr, rfl⟩ := h
          obtain ⟨hops, hleft, hreads⟩ :=
            ih (show StringIn m (fmt + (i + 1)) (f :: fmt') from hs) hargs ht hr
          refine ⟨?_, Nat.succ_lt_succ hleft, fun j hj ↦ ?_⟩
          · rw [kprintf, if_neg hc, ← hops]
          · rw [List.length_cons]
            rcases List.mem_cons.mp hj with rfl | hj
            · omega
            · have := hreads j hj
              omega

/-- The loop comes to an end as long as neither its index nor the one of a string overflows. -/
theorem kprintfLoop_isSome (hs : StringIn m (fmt + i) s) (hargs : VaArgs m va a args)
    (ht : Typed s args) (hleft : s.length < left) (hlen : (kprintf s args).length < 2 ^ 31) :
    (kprintfLoop m fmt va left i a).isSome := by
  induction s, args using kprintf.induct generalizing left i a with
  | case1 args =>
      obtain ⟨left, rfl⟩ := Nat.exists_eq_add_of_le' (show 1 ≤ left by omega)
      rw [kprintfLoop_nul hs]
      rfl
  | case2 args => exact absurd rfl ht
  | case3 c args hc =>
      rw [List.length_singleton] at hleft
      obtain ⟨left, rfl⟩ := Nat.exists_eq_add_of_le' (show 2 ≤ left by omega)
      obtain ⟨hm, hne, hnul⟩ := hs
      change m (fmt + (i + 1)) = 0 at hnul
      rw [kprintfLoop_char hm hne hc, kprintfLoop_nul hnul]
      rfl
  | case4 f fmt' args ih =>
      rw [List.length_cons, List.length_cons] at hleft
      obtain ⟨left, rfl⟩ := Nat.exists_eq_add_of_le' (show 2 ≤ left by omega)
      obtain ⟨hm, -, hf, -, hs⟩ := hs
      rw [Typed, if_pos rfl] at ht
      rw [kprintf, if_pos rfl, List.length_append] at hlen
      obtain ⟨n, hconv | ⟨-, hlong⟩, hrest⟩ := conversionAt_eq hargs ht.1
      · rw [kprintfLoop_percent hm, hf, hconv, Option.bind_some, Option.isSome_map]
        exact ih hs hrest ht.2 (by omega) (by omega)
      · exact absurd hlong (by omega)
  | case5 c f fmt' args hc ih =>
      rw [List.length_cons] at hleft
      obtain ⟨left, rfl⟩ := Nat.exists_eq_add_of_le' (show 1 ≤ left by omega)
      obtain ⟨hm, hne, hs⟩ := hs
      rw [Typed, if_neg hc] at ht
      rw [kprintf, if_neg hc, List.length_cons] at hlen
      rw [kprintfLoop_char hm hne hc, Option.isSome_map]
      exact ih hs hargs ht (Nat.lt_of_succ_lt_succ hleft) (by omega)

/-- `kprintf` prints what the format says, and stays inside it. -/
theorem kprintfAt_eq (hs : StringIn m fmt s) (hargs : VaArgs m va 0 args) (ht : Typed s args)
    (hfmt : s.length < 2 ^ 31) (hlen : (kprintf s args).length < 2 ^ 31) : ∃ r,
      kprintfAt m fmt va = some r ∧ r.ops = kprintf s args ∧ ∀ j ∈ r.reads, j ≤ s.length := by
  have hs₀ : StringIn m (fmt + 0) s := hs
  obtain ⟨r, hr⟩ := Option.isSome_iff_exists.mp (kprintfLoop_isSome hs₀ hargs ht hfmt hlen)
  obtain ⟨hops, -, hreads⟩ := kprintfLoop_some hs₀ hargs ht hr
  exact ⟨r, hr, hops, fun j hj ↦ Nat.zero_add s.length ▸ hreads j hj⟩

/-! ## Bytes that are no format -/

theorem typed_plain (h : chr '%' ∉ s) : Typed s [] ∧ kprintf s [] = s.map charOp := by
  induction s with
  | nil => exact ⟨trivial, rfl⟩
  | cons c s ih =>
      rw [List.mem_cons, not_or] at h
      obtain ⟨ht, hk⟩ := ih h.2
      cases s with
      | nil => exact ⟨Ne.symm h.1, by rw [kprintf, if_neg (Ne.symm h.1)]; rfl⟩
      | cons f s =>
          rw [Typed, if_neg (Ne.symm h.1), kprintf, if_neg (Ne.symm h.1), hk]
          exact ⟨ht, rfl⟩

/-- No argument that is 0 makes a conversion print a percent sign. -/
theorem conversionAt_zero : ∃ ops n, conversionAt m f 0 = some (ops, n) ∧
    ConsoleOp.write (chr '%') ∉ ops := by
  unfold conversionAt
  split
  · exact ⟨_, _, rfl, by decide⟩
  · split
    · exact ⟨_, _, rfl, List.not_mem_nil⟩
    · split
      · exact ⟨_, _, rfl, by decide⟩
      · split
        · exact ⟨_, _, rfl, by decide⟩
        · split
          · exact ⟨_, _, rfl, by decide⟩
          · exact ⟨_, _, rfl, List.not_mem_nil⟩

theorem charOp_ne_percent (h : c ≠ chr '%') : charOp c ≠ .write (chr '%') := by
  unfold charOp
  split
  · exact ConsoleOp.noConfusion
  · split
    · exact ConsoleOp.noConfusion
    · exact fun he ↦ h (ConsoleOp.write.inj he)

/-- Where all arguments are 0, no percent sign is printed at all. -/
theorem kprintfLoop_zero (h : kprintfLoop m fmt (fun _ ↦ 0) left i a = some r) :
    ConsoleOp.write (chr '%') ∉ r.ops := by
  induction left, i, a using kprintfLoop.induct m fmt generalizing r with
  | case1 i a => cases h
  | case2 left i a hnul =>
      rw [kprintfLoop_nul hnul] at h
      obtain rfl := Option.some.inj h
      exact List.not_mem_nil
  | case3 i a hnul hp =>
      rw [kprintfLoop, if_neg hnul, if_pos hp] at h
      cases h
  | case4 i a hnul hp left ih =>
      obtain ⟨ops, n, hconv, hops⟩ := conversionAt_zero (m := m) (f := m (fmt + i + 1))
      rw [kprintfLoop_percent hp, hconv, Option.bind_some, Option.map_eq_some_iff] at h
      obtain ⟨r', hr', rfl⟩ := h
      rw [List.mem_append, not_or]
      exact ⟨hops, ih n hr'⟩
  | case5 left i a hnul hp ih =>
      rw [kprintfLoop_char rfl hnul hp, Option.map_eq_some_iff] at h
      obtain ⟨r', hr', rfl⟩ := h
      rw [List.mem_cons, not_or]
      exact ⟨(charOp_ne_percent hp).symm, ih hr'⟩

/-- Whatever lies in the place of the arguments, `writeSyscall(1, s, n)` sends the bytes of `s` to the
console, and `kprintf` does not read behind their NUL. -/
def WritesVerbatim (m : Memory) (str : Nat) (s : CString) : Prop :=
  ∀ va, ∃ r, writeSyscall m va 1 str s.length = some (ulong s.length, r) ∧ r.ops = s.map charOp ∧
    ∀ i ∈ r.reads, i ≤ s.length

theorem writeSyscall_eq (s : CString) : writeSyscall m va 1 str s.length =
    (kprintfAt m str va).map (ulong s.length, ·) := if_pos (.inl rfl)

theorem WritesVerbatim.no_percent (h : WritesVerbatim m str s) : chr '%' ∉ s := by
  intro hp
  obtain ⟨r, hr, hops, -⟩ := h fun _ ↦ 0
  rw [writeSyscall_eq, Option.map_eq_some_iff] at hr
  obtain ⟨r', hloop, heq⟩ := hr
  obtain ⟨-, rfl⟩ := Prod.mk.inj heq
  have hop : charOp (chr '%') ∈ s.map charOp := List.mem_map_of_mem hp
  rw [← hops] at hop
  exact kprintfLoop_zero hloop hop

/-- Bytes are written as they are exactly when none of them is a percent sign, and the index of
`kprintf` does not overflow on the way. -/
theorem writesVerbatim_iff (hs : StringIn m str s) :
    WritesVerbatim m str s ↔ chr '%' ∉ s ∧ s.length < 2 ^ 31 := by
  constructor
  · have hargs : VaArgs m (fun _ ↦ 0) 0 [] := trivial
    refine fun h ↦ ⟨h.no_percent, ?_⟩
    obtain ⟨r, hr, -⟩ := h fun _ ↦ 0
    rw [writeSyscall_eq, Option.map_eq_some_iff] at hr
    obtain ⟨r', hloop, -⟩ := hr
    exact (kprintfLoop_some (i := 0) hs hargs (typed_plain h.no_percent).1 hloop).2.1
  · rintro ⟨hp, hlen⟩ va
    obtain ⟨ht, hk⟩ := typed_plain hp
    obtain ⟨r, hr, hops, hreads⟩ : ∃ r, kprintfAt m str va = some r ∧ r.ops = kprintf s [] ∧ _ :=
      kprintfAt_eq hs trivial ht hlen (by rwa [hk, List.length_map])
    refine ⟨r, ?_, hops.trans hk, hreads⟩
    rw [writeSyscall_eq, hr]
    rfl

/-- A memory with a string at 0x1000. -/
def stringMemory (s : CString) : Memory := fun x ↦ s.getD (x - 0x1000) 0

theorem stringIn_stringMemory (hs : 0 ∉ s) : StringIn (stringMemory s) 0x1000 s := by
  refine stringIn_of_bytes (fun i _ ↦ ?_) ?_ hs
  · rw [stringMemory, Nat.add_sub_cancel_left]
  · rw [stringMemory, Nat.add_sub_cancel_left, List.getD_eq_default _ _ (Nat.le_refl _)]

theorem writesVerbatim_hi : WritesVerbatim (stringMemory (cstr "hi\n")) 0x1000 (cstr "hi\n") := by
  have hs : StringIn (stringMemory (cstr "hi\n")) 0x1000 (cstr "hi\n") :=
    stringIn_stringMemory (by decide)
  exact (writesVerbatim_iff hs).mpr ⟨by decide, by decide⟩

theorem not_writesVerbatim_percent :
    ¬ WritesVerbatim (stringMemory (cstr "100%")) 0x1000 (cstr "100%") :=
  fun h ↦ h.no_percent (by decide)

end Sbunix
