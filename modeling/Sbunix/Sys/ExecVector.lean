import Sbunix.Sys.ExecRun
import Sbunix.Sys.TarArchive
import Sbunix.Reasoning.Blocks

/-!
# The strings that `execveSyscall` reads

The file name and the strings of `argv` are copied to the rows of `userstack`.  Where they can be read
without a fault, and are shorter than a row, the rows hold them afterwards.
-/

namespace Sbunix

open Reasoning Kernel KernelM Machine

variable {k k' : Kernel} {s : Machine} {fuel a b x n i j p argv : Nat} {c d : UInt8}
  {l t name : CString} {u u' : UserStack} {args : List CString}

/-! ## Numbers in memory -/

/-- The `n` low bytes of `x`. -/
def leBytes : Nat → Nat → List UInt8
  | 0, _ => []
  | n + 1, x => x.toUInt8 :: leBytes n (x / 256)

theorem length_leBytes (n x : Nat) : (leBytes n x).length = n := by
  induction n generalizing x with
  | zero => rfl
  | succ n ih => rw [leBytes, List.length_cons, ih]

theorem readBytes_leBytes (h : BytesAt s a (leBytes n x)) (hx : x < 256 ^ n) :
    s.readBytes a n = some x := by
  induction n generalizing a x with
  | zero =>
      obtain rfl : x = 0 := Nat.lt_one_iff.mp hx
      rfl
  | succ n ih =>
      have hdiv : x / 256 < 256 ^ n := Nat.div_lt_of_lt_mul (by rwa [Nat.mul_comm, ← Nat.pow_succ])
      have hbyte : x.toUInt8.toNat = x % 256 := rfl
      rw [readBytes, h.head, Option.bind_some, ih h.tail hdiv, Option.map_some, hbyte,
        Nat.mod_add_div]

/-! ## Reading without a fault -/

theorem KernelM.loadByte_eq (h : k.readByte a = some c) (hn : 0 < n) :
    loadByte fuel a n k = some (.done c k) := by
  obtain ⟨n, rfl⟩ := Nat.exists_eq_add_of_le' hn
  rw [loadByte]
  dsimp only
  rw [h]

theorem KernelM.loadBytes_eq (h : BytesAt k.toMachine a (leBytes n x)) (hx : x < 256 ^ n)
    (ha : a + n ≤ 2 ^ 64) (hf : 0 < fuel) : loadBytes fuel a n k = some (.done x k) := by
  induction n generalizing a x with
  | zero => exact pure_done.mpr ⟨Nat.lt_one_iff.mp hx, rfl⟩
  | succ n ih =>
      have hdiv : x / 256 < 256 ^ n := Nat.div_lt_of_lt_mul (by rwa [Nat.mul_comm, ← Nat.pow_succ])
      have hbyte : x.toUInt8.toNat = x % 256 := rfl
      refine bind_done.mpr ⟨x.toUInt8, k, ?_,
        bind_done.mpr ⟨x / 256, k, ih h.tail hdiv (by omega), ?_⟩⟩
      · rw [Nat.mod_eq_of_lt (by omega)]
        exact loadByte_eq h.head hf
      · exact pure_done.mpr ⟨by rw [hbyte, Nat.mod_add_div], rfl⟩

theorem KernelM.loadString_eq (h : StringAt k.toMachine a l) (ha : a + l.length < 2 ^ 64)
    (hf : 0 < fuel) (hn : l.length < n) : loadString fuel a n k = some (.done l k) := by
  obtain ⟨hbytes, hzero⟩ := h
  obtain ⟨n, rfl⟩ := Nat.exists_eq_add_of_le' (Nat.lt_of_le_of_lt (Nat.zero_le _) hn)
  induction l generalizing a n with
  | nil =>
      refine bind_done.mpr ⟨0, k, ?_, ?_⟩
      · rw [Nat.mod_eq_of_lt (Nat.lt_of_le_of_lt (Nat.le_add_right a _) ha)]
        exact loadByte_eq hbytes.head hf
      · rw [if_pos rfl]
        exact pure_done.mpr ⟨rfl, rfl⟩
  | cons b l ih =>
      rw [List.mem_cons, not_or] at hzero
      rw [List.length_cons] at ha hn
      obtain ⟨n, rfl⟩ := Nat.exists_eq_add_of_le' (show 1 ≤ n by omega)
      refine bind_done.mpr ⟨b, k, ?_, ?_⟩
      · rw [Nat.mod_eq_of_lt (by omega)]
        exact loadByte_eq hbytes.head hf
      · rw [if_neg (Ne.symm hzero.1)]
        refine bind_done.mpr ⟨l, k, ?_, pure_done.mpr ⟨rfl, rfl⟩⟩
        exact ih (by omega) hbytes.tail hzero.2 n (by omega)

/-! ## The rows of `userstack` -/

/-- The first rows hold these strings. -/
def RowsAt (u : UserStack) (args : List CString) : Prop :=
  ∀ i t, args[i]? = some t → u.row i = some t ∧ t.length < 50

theorem UserStack.stringAt_eq (h : ∀ i, i < t.length → u (x + i) = t.getD i 0)
    (hend : u (x + t.length) = 0) (hzero : 0 ∉ t) (hn : t.length < n) :
    u.stringAt x n = some t := by
  induction t generalizing x n with
  | nil =>
      obtain ⟨n, rfl⟩ := Nat.exists_eq_add_of_le' (show 1 ≤ n by omega)
      rw [UserStack.stringAt, if_pos (show u x = 0 from hend)]
  | cons b t ih =>
      obtain ⟨n, rfl⟩ := Nat.exists_eq_add_of_le' (show 1 ≤ n by omega)
      rw [List.mem_cons, not_or] at hzero
      have hb : u x = b := h 0 (Nat.succ_pos _)
      have hrest : u.stringAt (x + 1) n = some t := by
        refine ih (fun i hi ↦ ?_) ?_ hzero.2 (Nat.lt_of_succ_lt_succ hn)
        · rw [Nat.add_assoc, Nat.add_comm 1]
          exact h (i + 1) (Nat.succ_lt_succ hi)
        · rwa [Nat.add_assoc, Nat.add_comm 1]
      rw [UserStack.stringAt, hb, if_neg (Ne.symm hzero.1), hrest, Option.map_some]

theorem UserStack.stringAt_congr (h : u.stringAt x n = some t)
    (hu : ∀ y, x ≤ y → y ≤ x + t.length → u' y = u y) : u'.stringAt x n = some t := by
  induction n generalizing x t with
  | zero => cases h
  | succ n ih =>
      rw [UserStack.stringAt] at h ⊢
      rw [hu x (Nat.le_refl x) (Nat.le_add_right x _)]
      split
      · rename_i h0
        rwa [if_pos h0] at h
      · rename_i h0
        rw [if_neg h0] at h
        obtain ⟨t, ht, rfl⟩ := Option.map_eq_some_iff.mp h
        rw [List.length_cons] at hu
        rw [ih ht fun y hy hy' ↦ hu y (by omega) (by omega), Option.map_some]

/-- A string that fits into its row is the next one that the rows hold. -/
theorem RowsAt.copyRow (h : RowsAt u args) (ht : t.length < 50) (hzero : 0 ∉ t)
    (hroom : args.length < 10) :
    ∃ u', u.copyRow args.length t = some u' ∧ RowsAt u' (args ++ [t]) := by
  rw [UserStack.copyRow, if_pos (by omega)]
  refine ⟨_, rfl, fun i r hi ↦ ?_⟩
  rcases Nat.lt_trichotomy i args.length with hlt | rfl | hgt
  · -- a row before: its string ends before the row that is written
    rw [List.getElem?_append_left hlt] at hi
    obtain ⟨hrow, hr⟩ := h i r hi
    refine ⟨UserStack.stringAt_congr hrow fun y hy hy' ↦ ?_, hr⟩
    exact if_neg (by omega)
  · -- the row itself, with the NUL behind the string
    rw [List.getElem?_concat_length] at hi
    obtain rfl := Option.some.inj hi
    refine ⟨UserStack.stringAt_eq (fun i hi ↦ ?_) ?_ hzero (by omega), ht⟩
    · rw [if_pos (by omega), Nat.add_sub_cancel_left]
    · rw [if_pos (by omega), Nat.add_sub_cancel_left, List.getD_eq_getElem?_getD,
        List.getElem?_eq_none (Nat.le_refl _), Option.getD_none]
  · rw [List.getElem?_eq_none (by rw [List.length_append]; exact hgt)] at hi
    cases hi

/-! ## The vector -/

/-- A vector of strings from index `i` of `argv` on, with an empty one behind them; `B` says which
bytes stand where. -/
def VectorAt (B : Nat → List UInt8 → Prop) (argv : Nat) : Nat → List CString → Prop
  | i, [] => ∃ p, B (argv + 8 * i) (leBytes 8 p) ∧ p < 2 ^ 47 ∧ B p [0]
  | i, t :: args => (∃ p, B (argv + 8 * i) (leBytes 8 p) ∧ p < 2 ^ 47 ∧ B p (t ++ [0]) ∧ 0 ∉ t) ∧
      t ≠ [] ∧ VectorAt B argv (i + 1) args

/-- The loop over `argv` copies the strings of the vector to the rows, and stops behind them. -/
theorem copyArgs_eq {before : List CString}
    (h : VectorAt (BytesAt k.toMachine) argv before.length args) (hargs : ∀ t ∈ args, t.length < 50)
    (hlt : argv + 8 * (before.length + args.length) + 8 ≤ 2 ^ 64)
    (hroom : before.length + args.length ≤ 10) (hf : 50 ≤ fuel) (hn : args.length < n)
    (hu : RowsAt u before) :
    ∃ u', copyArgs fuel argv n before.length u k =
        some (.done (before.length + args.length, u') k) ∧ RowsAt u' (before ++ args) := by
  obtain ⟨n, rfl⟩ := Nat.exists_eq_add_of_le' (Nat.lt_of_le_of_lt (Nat.zero_le _) hn)
  induction args generalizing before n u with
  | nil =>
      -- the empty string ends the loop, with nothing copied
      obtain ⟨p, hp, hlow, hend⟩ := h
      have ht : StringAt k.toMachine p [] := ⟨hend, List.not_mem_nil⟩
      rw [List.length_nil] at hlt
      refine ⟨u, bind_done.mpr ⟨p, k, ?_, bind_done.mpr ⟨[], k, ?_, ?_⟩⟩, by rwa [List.append_nil]⟩
      · exact loadBytes_eq hp (Nat.lt_trans hlow (by decide)) (by omega) (by omega)
      · refine loadString_eq ht (Nat.lt_trans hlow (by decide)) (by omega) ?_
        rw [List.length_nil]
        omega
      · rw [if_neg (by decide)]
        exact pure_done.mpr ⟨rfl, rfl⟩
  | cons t args ih =>
      obtain ⟨⟨p, hp, hlow, ht⟩, hne, hrest⟩ := h
      have hlen := hargs t List.mem_cons_self
      rw [List.length_cons] at hlt hroom hn
      obtain ⟨n, rfl⟩ := Nat.exists_eq_add_of_le' (show 1 ≤ n by omega)
      have hpointer : loadBytes fuel (argv + 8 * before.length) 8 k = some (.done p k) :=
        loadBytes_eq hp (Nat.lt_trans hlow (by decide)) (by omega) (by omega)
      have hstring : loadString fuel p fuel k = some (.done t k) :=
        loadString_eq ht (by omega) (by omega) (by omega)
      obtain ⟨u₁, hcopy, hu₁⟩ := hu.copyRow hlen ht.2 (by omega)
      have hlength : (before ++ [t]).length = before.length + 1 := List.length_append
      rw [← hlength] at hrest
      obtain ⟨u', hrun, hu'⟩ := ih hrest (fun x hx ↦ hargs x (List.mem_cons_of_mem t hx))
        (by omega) (by omega) hu₁ n (by omega)
      rw [hlength] at hrun
      rw [← List.append_cons] at hu'
      refine ⟨u', bind_done.mpr ⟨p, k, hpointer, bind_done.mpr ⟨t, k, hstring, ?_⟩⟩, hu'⟩
      rw [if_pos (mt strcmp_eq_zero_iff.mp hne)]
      -- the pointer and the string are read once more
      refine bind_done.mpr ⟨p, k, hpointer, bind_done.mpr ⟨t, k, hstring, bind_done.mpr ⟨u₁, k,
        ask_done.mpr ⟨hcopy, rfl⟩, ?_⟩⟩⟩
      rw [hrun, List.length_cons, Nat.add_assoc, Nat.add_comm 1]

end Sbunix
