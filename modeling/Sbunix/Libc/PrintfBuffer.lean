import Sbunix.Libc.Printf

/-!
# The buffer of `printf` (`libc/printf.c`)

The helpers of `printf` store their characters in `buffer` at the global `index`, which they count up
without looking at the 512 bytes that there are.  At the end comes a NUL, and `index` is 0 again.
-/

namespace Sbunix

open Reasoning

namespace Printf

/-- `buffer` and `index`, with the indices that were stored to. -/
structure Output where
  buffer : Memory
  index : Nat
  stored : List Nat := []

namespace Output

/-- `buffer[index]=c; index++`. -/
def printc (o : Output) (c : UInt8) : Output where
  buffer := Function.update o.buffer o.index c
  index := o.index + 1
  stored := o.index :: o.stored

/-- The loop of the other helpers, up to the NUL of their string. -/
def append (o : Output) (s : CString) : Output := s.foldl printc o

def printx (o : Output) (num : Int) : Output := o.append (convert (ulong num) 16)

def printd (o : Output) (num : Int) : Output := o.append (convert (ulong num) 10)

/-- `prints(fmt)` of a pointer. -/
def prints (o : Output) (m : Memory) (p : Nat) : Option Output :=
  if p = 0 then some o else (m.cstring (2 ^ 31) p).map o.append

def printp (o : Output) (p : Nat) : Output := (o.append (cstr "0x")).append (convert p 16)

/-- `%f` of the argument `w`, and how many arguments it takes. -/
def conversion (o : Output) (m : Memory) (f : UInt8) (w : Nat) : Option (Output × Nat) :=
  if f = chr 'x' then some (o.printx (intWord w), 1)
  else if f = chr 's' then (o.prints m w).map (·, 1)
  else if f = chr 'c' then some (o.printc (intWord w % 256).toNat.toUInt8, 1)
  else if f = chr 'p' then some (o.printp w, 1)
  else if f = chr 'd' then some (o.printd (intWord w), 1)
  else some (o, 0)

/-- The loop of `printf` at the index `i` of the format and the argument `a`. -/
def loop (m : Memory) (fmt : Nat) (va : Nat → Nat) : Nat → Nat → Nat → Output → Option Output
  | 0, _, _, _ => none
  | left + 1, i, a, o =>
      if m (fmt + i) = 0 then some o
      else if m (fmt + i) = chr '%' then
        match left with
        | 0 => none
        | left + 1 =>
            (o.conversion m (m (fmt + i + 1)) (va a)).bind fun (o, n) ↦
              loop m fmt va left (i + 2) (a + n) o
      -- a newline is stored as any other character
      else loop m fmt va left (i + 1) a (o.printc (m (fmt + i)))

/-- `printf(fmt, ...)` up to the call of `put_s(buffer)`. -/
def printf (m : Memory) (fmt : Nat) (va : Nat → Nat) (o : Output) : Option Output :=
  (loop m fmt va (2 ^ 31) 0 0 o).map fun o ↦
    { buffer := Function.update o.buffer o.index 0, index := 0, stored := o.index :: o.stored }

variable {o : Output} {s t : CString} {m : Memory} {fmt left i a w : Nat} {va : Nat → Nat} {f : UInt8}

/-! ## What is in the buffer -/

theorem append_eq : o.append s = { buffer := o.buffer.putBytes o.index s, index := o.index + s.length,
                                   stored := (List.range' o.index s.length).reverse ++ o.stored } := by
  induction s generalizing o with
  | nil =>
      rw [Memory.putBytes_nil]
      rfl
  | cons c s ih =>
      rw [append, List.foldl_cons]
      refine ih.trans ?_
      rw [Memory.putBytes_cons, List.length_cons, List.range'_succ, List.reverse_cons, List.append_assoc,
        Nat.add_comm s.length, ← Nat.add_assoc]
      rfl

theorem append_append : (o.append s).append t = o.append (s ++ t) := List.foldl_append.symm

/-- A conversion appends its text. -/
theorem conversion_eq : o.conversion m f w =
    (Printf.conversion m f w).map fun (text, n) ↦ (o.append text, n) := by
  unfold conversion Printf.conversion
  split
  · rfl
  · split
    · rw [prints, Printf.prints]
      split
      · rfl
      · rw [Option.map_map, Option.map_map]
        rfl
    · split
      · rfl
      · split
        · rw [printp, append_append]
          rfl
        · split
          · rfl
          · rfl

/-- The loop appends the text of the format. -/
theorem loop_eq : loop m fmt va left i a o = (Printf.loop m fmt va left i a).map o.append := by
  induction left, i, a using Printf.loop.induct m fmt generalizing o with
  | case1 i a => rfl
  | case2 left i a hnul =>
      rw [loop.eq_def, Printf.loop.eq_def]
      dsimp only
      rw [if_pos hnul, if_pos hnul]
      rfl
  | case3 i a hnul hp =>
      -- no byte is left for the one behind the percent sign
      rw [loop, Printf.loop, if_neg hnul, if_pos hp, if_neg hnul, if_pos hp]
      rfl
  | case4 i a hnul hp left ih =>
      rw [loop, Printf.loop, if_neg hnul, if_pos hp, if_neg hnul, if_pos hp, conversion_eq]
      cases Printf.conversion m (m (fmt + i + 1)) (va a) with
      | none => rfl
      | some r =>
          rw [Option.map_some, Option.bind_some, Option.bind_some]
          dsimp only
          rw [ih, Option.map_map]
          refine congrFun (congrArg Option.map ?_) _
          exact funext fun text ↦ append_append
  | case5 left i a hnul hp ih =>
      rw [loop.eq_def, Printf.loop.eq_def]
      dsimp only
      rw [if_neg hnul, if_neg hp, if_neg hnul, if_neg hp, ih, Option.map_map]
      rfl

/-- The text of a call is in the buffer, and its NUL behind it. -/
theorem printf_eq : printf m fmt va o = (Printf.loop m fmt va (2 ^ 31) 0 0).map fun text ↦
    { buffer := Function.update (o.buffer.putBytes o.index text) (o.index + text.length) 0
      index := 0
      stored := (o.index + text.length) ::
        ((List.range' o.index text.length).reverse ++ o.stored) } := by
  rw [printf, loop_eq, Option.map_map]
  refine congrFun (congrArg Option.map (funext fun text ↦ ?_)) _
  rw [Function.comp_apply, append_eq]

end Output

/-! ## How long the text is -/

/-- How many characters `%f` becomes. -/
def conversionLength (f : UInt8) : List Arg → Nat
  | .int n :: _ =>
      if f = chr 'x' then (Nat.toDigits 16 (ulong n)).length
      else if f = chr 'c' then 1
      else if f = chr 'd' then (Nat.toDigits 10 (ulong n)).length
      else 0
  | .str s :: _ => if f = chr 's' then s.length else 0
  | .ptr p :: _ => if f = chr 'p' then 2 + (Nat.toDigits 16 p).length else 0
  | [] => 0

/-- How many characters a format becomes with its arguments. -/
def textLength : CString → List Arg → Nat
  | [], _ => 0
  | [c], _ => if c = chr '%' then 0 else 1
  | c :: f :: fmt, args =>
      if c = chr '%' then
        conversionLength f args + textLength fmt (Sbunix.conversion f args).2
      else textLength (f :: fmt) args + 1

variable {s text : CString} {args : List Arg} {m : Memory} {fmt left i a w : Nat} {va : Nat → Nat}
  {f : UInt8}

theorem conversionLength_eq (hva : ∀ a, va a < 2 ^ 64) (hargs : VaArgs m va a args) :
    conversionLength f args = (Sbunix.conversion f args).1.length := by
  cases args with
  | nil => rfl
  | cons x args =>
      cases x with
      | int n =>
          rw [conversionLength, Sbunix.conversion]
          split
          · rw [Sbunix.printx, Sbunix.prints, convert_sixteen, List.length_map, List.length_map]
          · split
            · rfl
            · split
              · rw [Sbunix.printd, Sbunix.prints, convert_ten, List.length_map, List.length_map]
              · rfl
      | str s =>
          rw [conversionLength, Sbunix.conversion]
          split
          · exact (List.length_map _).symm
          · rfl
      | ptr p =>
          rw [conversionLength, Sbunix.conversion]
          split
          · obtain rfl : va a = p := hargs.1
            rw [Sbunix.printp, Sbunix.prints, Sbunix.prints, List.length_append, List.length_map,
              List.length_map, convert_eq (by decide) (by decide) ((hva a).trans (by decide)),
              List.length_map]
            rfl
          · rfl

theorem textLength_eq (hva : ∀ a, va a < 2 ^ 64) (hargs : VaArgs m va a args) (ht : Typed s args) :
    textLength s args = (kprintf s args).length := by
  induction s, args using kprintf.induct generalizing a with
  | case1 args => rfl
  | case2 args => exact absurd rfl ht
  | case3 c args hc =>
      rw [textLength, kprintf, if_neg hc, if_neg hc]
      rfl
  | case4 f fmt' args ih =>
      rw [Typed, if_pos rfl] at ht
      obtain ⟨n, -, hrest⟩ := conversionAt_eq hargs ht.1
      rw [textLength, kprintf, if_pos rfl, if_pos rfl, List.length_append, ih hrest ht.2,
        conversionLength_eq hva hargs]
  | case5 c f fmt' args hc ih =>
      rw [Typed, if_neg hc] at ht
      rw [textLength, kprintf, if_neg hc, if_neg hc, List.length_cons, ih hargs ht]

/-- The kernel prints the text of a conversion. -/
theorem conversionAt_eq_map : conversionAt m f w =
    (conversion m f w).map fun (text, n) ↦ (Sbunix.prints text, n) := by
  unfold conversionAt conversion
  split
  · rfl
  · split
    · rw [printsAt, prints]
      split
      · rfl
      · rw [Option.map_map, Option.map_map]
        rfl
    · split
      · rfl
      · split
        · rw [printp, Option.map_some, Sbunix.printp, Sbunix.prints, Sbunix.prints, ← List.map_append]
          rfl
        · split
          · rfl
          · rfl

/-- The text has a character for each operation of the kernel on the screen. -/
theorem loop_length : (loop m fmt va left i a).map List.length =
    (kprintfLoop m fmt va left i a).map (·.ops.length) := by
  induction left, i, a using loop.induct m fmt with
  | case1 i a => rfl
  | case2 left i a hnul =>
      rw [loop_nul hnul, kprintfLoop_nul hnul]
      rfl
  | case3 i a hnul hp =>
      rw [loop, kprintfLoop, if_neg hnul, if_pos hp, if_neg hnul, if_pos hp]
      rfl
  | case4 i a hnul hp left ih =>
      rw [loop_percent hp, kprintfLoop_percent hp, conversionAt_eq_map]
      cases conversion m (m (fmt + i + 1)) (va a) with
      | none => rfl
      | some r =>
          have hrest := congrArg (Option.map (r.1.length + ·)) (ih r.2)
          rw [Option.map_some, Option.bind_some, Option.bind_some]
          dsimp only
          rw [Option.map_map, Option.map_map] at hrest ⊢
          refine Eq.trans ?_ (hrest.trans ?_)
          · exact congrFun (congrArg Option.map (funext fun _ ↦ List.length_append)) _
          · refine congrFun (congrArg Option.map (funext fun r' ↦ ?_)) _
            simp only [Function.comp_apply, Sbunix.prints, List.length_append, List.length_map]
  | case5 left i a hnul hp ih =>
      have hrest := congrArg (Option.map (· + 1)) ih
      rw [loop.eq_def, kprintfLoop_char rfl hnul hp]
      dsimp only
      rw [if_neg hnul, if_neg hp]
      rw [Option.map_map, Option.map_map] at hrest ⊢
      exact hrest

/-- What a typed format becomes, if the loop comes to an end. -/
theorem loop_some (hs : StringIn m fmt s) (hargs : VaArgs m va 0 args) (ht : Typed s args)
    (hva : ∀ a, va a < 2 ^ 64) (h : loop m fmt va (2 ^ 31) 0 0 = some text) :
    text.length = textLength s args ∧ s.length < 2 ^ 31 := by
  have hlength : (loop m fmt va (2 ^ 31) 0 0).map List.length =
      (kprintfLoop m fmt va (2 ^ 31) 0 0).map (·.ops.length) := loop_length
  rw [h, Option.map_some, eq_comm, Option.map_eq_some_iff] at hlength
  obtain ⟨r, hr, hl⟩ := hlength
  obtain ⟨hops, hlen, -⟩ := kprintfLoop_some (i := 0) hs hargs ht hr
  exact ⟨by rw [← hl, hops, textLength_eq hva hargs ht], hlen⟩

/-- It comes to an end as long as neither the format nor the text is too long for an `int`. -/
theorem loop_isSome (hs : StringIn m fmt s) (hargs : VaArgs m va 0 args) (ht : Typed s args)
    (hva : ∀ a, va a < 2 ^ 64) (hfmt : s.length < 2 ^ 31) (hlen : textLength s args < 2 ^ 31) :
    (loop m fmt va (2 ^ 31) 0 0).isSome := by
  have hlength : (loop m fmt va (2 ^ 31) 0 0).map List.length =
      (kprintfLoop m fmt va (2 ^ 31) 0 0).map (·.ops.length) := loop_length
  rw [textLength_eq hva hargs ht] at hlen
  rw [← Option.isSome_map (f := List.length), hlength, Option.isSome_map]
  exact kprintfLoop_isSome (i := 0) hs hargs ht hfmt hlen

/-- A call that finds `index` at 0 comes to its end with stores below 512 only, and with `index` at 0
again. -/
def StaysInside (m : Memory) (fmt : Nat) (va : Nat → Nat) : Prop :=
  ∀ buffer, ∃ o, Output.printf m fmt va { buffer, index := 0 } = some o ∧ (∀ i ∈ o.stored, i < 512) ∧
    o.index = 0

theorem StaysInside.short (h : StaysInside m fmt va) (hs : StringIn m fmt s)
    (hargs : VaArgs m va 0 args) (ht : Typed s args) (hva : ∀ a, va a < 2 ^ 64) :
    textLength s args < 512 ∧ s.length < 2 ^ 31 := by
  obtain ⟨o, ho, hin, -⟩ := h fun _ ↦ 0
  rw [Output.printf_eq, Option.map_eq_some_iff] at ho
  obtain ⟨text, htext, rfl⟩ := ho
  obtain ⟨hl, hlen⟩ := loop_some hs hargs ht hva htext
  -- the NUL is behind the text
  have hnul := hin (0 + text.length) List.mem_cons_self
  exact ⟨by omega, hlen⟩

/-- Whatever a format and its arguments are, `printf` stays inside its buffer exactly where the
characters are at most 511, and the index of the format does not overflow. -/
theorem staysInside_iff (hs : StringIn m fmt s) (hargs : VaArgs m va 0 args) (ht : Typed s args)
    (hva : ∀ a, va a < 2 ^ 64) :
    StaysInside m fmt va ↔ textLength s args < 512 ∧ s.length < 2 ^ 31 := by
  refine ⟨fun h ↦ h.short hs hargs ht hva, ?_⟩
  rintro ⟨hshort, hlen⟩ buffer
  obtain ⟨text, htext⟩ := Option.isSome_iff_exists.mp
    (loop_isSome hs hargs ht hva hlen (hshort.trans (by decide)))
  obtain ⟨hl, -⟩ := loop_some hs hargs ht hva htext
  rw [Output.printf_eq, htext]
  refine ⟨_, rfl, fun i hi ↦ ?_, rfl⟩
  simp only [List.mem_cons, List.append_nil, List.mem_reverse, List.mem_range'_1] at hi
  omega

theorem staysInside_decimal : StaysInside (stringMemory [chr '%', chr 'd']) 0x1000 (fun _ ↦ 7) ↔
    textLength [chr '%', chr 'd'] [.int 7] < 512 ∧ [chr '%', chr 'd'].length < 2 ^ 31 := by
  have hseven : intWord 7 = 7 := by decide
  have ht : Typed [chr '%', chr 'd'] [.int 7] := by
    rw [Typed, if_pos rfl]
    exact ⟨⟨by decide, by decide⟩, trivial⟩
  exact staysInside_iff (stringIn_stringMemory (by decide)) ⟨hseven, trivial⟩ ht
    fun _ ↦ Nat.lt_of_succ_le (by decide)

/-- 512 characters leave no room for the NUL. -/
theorem not_staysInside_plain {s : CString} (hp : chr '%' ∉ s) (hzero : 0 ∉ s) (hlen : 512 ≤ s.length) :
    ¬ StaysInside (stringMemory s) 0x1000 (fun _ ↦ 0) := by
  obtain ⟨ht, hk⟩ := typed_plain hp
  have hva : ∀ a : Nat, (fun _ ↦ 0 : Nat → Nat) a < 2 ^ 64 := fun _ ↦ Nat.two_pow_pos 64
  have hargs : VaArgs (stringMemory s) (fun _ ↦ 0) 0 [] := trivial
  intro h
  have hshort := (h.short (stringIn_stringMemory hzero) hargs ht hva).1
  rw [textLength_eq hva hargs ht, hk, List.length_map] at hshort
  omega

theorem not_staysInside_full :
    ¬ StaysInside (stringMemory (List.replicate 512 (chr 'a'))) 0x1000 (fun _ ↦ 0) :=
  not_staysInside_plain (fun h ↦ absurd (List.eq_of_mem_replicate h) (by decide))
    (fun h ↦ absurd (List.eq_of_mem_replicate h) (by decide)) List.length_replicate.ge

end Printf

end Sbunix
