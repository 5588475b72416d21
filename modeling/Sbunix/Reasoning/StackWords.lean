import Sbunix.Reasoning.ByteMemory

/-!
# A stack of words in memory

The stack grows down, eight bytes a word.  Its contents are the list of words from the top of the stack
on, and registers that are pushed and then popped in the opposite order come back.
-/

namespace Reasoning

namespace Memory

/-- The word at `a`. -/
@[irreducible] def word (m : Memory) (a : Nat) : UInt64 := UInt64.ofNat (m.load64 a)

/-- The words of the list stand in memory from `a` on. -/
def Words (m : Memory) (a : Nat) : List UInt64 → Prop
  | [] => True
  | w :: ws => m.word a = w ∧ m.Words (a + 8) ws

variable {m m' : Memory} {a : Nat} {w : UInt64} {us ws : List UInt64}

theorem word_store64 (m : Memory) (a : Nat) (w : UInt64) : (m.store64 a w.toNat).word a = w := by
  rw [word, load64_store64 w.toNat_lt, UInt64.ofNat_toNat]

theorem Words.congr (hw : m.Words a ws) (h : ∀ x, a ≤ x → x < a + 8 * ws.length → m' x = m x) :
    m'.Words a ws := by
  induction ws generalizing a with
  | nil => trivial
  | cons w ws ih =>
      rw [List.length_cons] at h
      have hload : m'.load64 a = m.load64 a := load64_congr fun x hx hx' ↦ h x hx (by omega)
      refine ⟨?_, ih hw.2 fun x hx hx' ↦ h x (by omega) (by omega)⟩
      rw [word, hload, ← word]
      exact hw.1

theorem words_append :
    m.Words a (us ++ ws) ↔ m.Words a us ∧ m.Words (a + 8 * us.length) ws := by
  induction us generalizing a with
  | nil => exact ⟨fun h ↦ ⟨trivial, h⟩, And.right⟩
  | cons u us ih =>
      have hlen : a + 8 + 8 * us.length = a + 8 * (u :: us).length := by
        rw [List.length_cons]
        omega
      rw [List.cons_append, Words, Words, ih, hlen, and_assoc]

theorem Words.set (us : List UInt64) (hw : m.Words a (us ++ w :: ws)) (v : UInt64) :
    (m.store64 (a + 8 * us.length) v.toNat).Words a (us ++ v :: ws) := by
  obtain ⟨hu, -, hws⟩ := words_append.mp hw
  refine words_append.mpr ⟨hu.congr fun x _ hx ↦ store64_apply_of_lt (.inl hx),
    word_store64 _ _ v, hws.congr fun x hx _ ↦ store64_apply_of_lt (.inr hx)⟩

end Memory

/-- Registers, and a stack pointer into a memory. -/
structure StackMachine (ρ : Type*) where
  regs : ρ → UInt64
  sp : UInt64
  mem : Memory

namespace StackMachine

variable {ρ : Type*} {s t : StackMachine ρ} {v : UInt64} {vs ws : List UInt64} {r : ρ} {rs : List ρ}
  {f : ρ → UInt64}

def push (s : StackMachine ρ) (v : UInt64) : StackMachine ρ :=
  { s with sp := s.sp - 8, mem := s.mem.store64 (s.sp - 8).toNat v.toNat }

def top (s : StackMachine ρ) : UInt64 := s.mem.word s.sp.toNat

def drop (s : StackMachine ρ) (n : UInt64) : StackMachine ρ := { s with sp := s.sp + n }

def pop [DecidableEq ρ] (s : StackMachine ρ) (r : ρ) : StackMachine ρ :=
  { s.drop 8 with regs := Function.update s.regs r s.top }

/-- `s` with the words `vs` on the stack, the last one on top. -/
structure Pushed (s : StackMachine ρ) (vs : List UInt64) (t : StackMachine ρ) : Prop where
  regs : t.regs = s.regs
  sp : t.sp.toNat + 8 * vs.length = s.sp.toNat
  words : t.mem.Words t.sp.toNat vs.reverse
  mem : ∀ x, x < t.sp.toNat ∨ s.sp.toNat ≤ x → t.mem x = s.mem x

theorem push_sp (h : 8 ≤ s.sp.toNat) (v : UInt64) : (s.push v).sp.toNat + 8 = s.sp.toNat := by
  have hsub : (s.sp - 8).toNat = s.sp.toNat - 8 :=
    UInt64.toNat_sub_of_le _ _ (UInt64.le_iff_toNat_le.mpr h)
  rw [push, hsub]
  omega

theorem pushed_push (h : 8 ≤ s.sp.toNat) (v : UInt64) : Pushed s [v] (s.push v) := by
  have hsp := push_sp h v
  refine ⟨rfl, hsp, ⟨Memory.word_store64 _ _ v, trivial⟩, fun x hx ↦ ?_⟩
  have hdis : x < (s.push v).sp.toNat ∨ (s.push v).sp.toNat + 8 ≤ x := by omega
  exact Memory.store64_apply_of_lt hdis

theorem Pushed.trans {u : StackMachine ρ} (h : Pushed s vs t) (h' : Pushed t ws u) :
    Pushed s (vs ++ ws) u := by
  have hsp := h.sp
  have hsp' := h'.sp
  refine ⟨h'.regs.trans h.regs, ?_, ?_, fun x hx ↦ ?_⟩
  · rw [List.length_append]
    omega
  · rw [List.reverse_append, Memory.words_append, List.length_reverse, hsp']
    refine ⟨h'.words, h.words.congr fun x hx _ ↦ h'.mem x (.inr hx)⟩
  · rw [h'.mem x (by omega), h.mem x (by omega)]

theorem pushed_pushAll (h : 8 * vs.length ≤ s.sp.toNat) : Pushed s vs (vs.foldl push s) := by
  induction vs generalizing s with
  | nil => exact ⟨rfl, rfl, trivial, fun _ _ ↦ rfl⟩
  | cons v vs ih =>
      rw [List.length_cons] at h
      have hsp := push_sp (s := s) (by omega) v
      exact (pushed_push (by omega) v).trans (ih (by omega))

/-- The words under those that were pushed are still there. -/
theorem Pushed.under (h : Pushed s vs t) (hw : s.mem.Words s.sp.toNat ws) :
    t.mem.Words t.sp.toNat (vs.reverse ++ ws) := by
  rw [Memory.words_append, List.length_reverse, h.sp]
  exact ⟨h.words, hw.congr fun x hx _ ↦ h.mem x (.inr hx)⟩

theorem drop_sp {n : UInt64} (h : s.sp.toNat + n.toNat < 2 ^ 64) :
    (s.drop n).sp.toNat = s.sp.toNat + n.toNat := by
  rw [drop, UInt64.toNat_add]
  exact Nat.mod_eq_of_lt h

variable [DecidableEq ρ]

@[simp] theorem pop_mem (s : StackMachine ρ) (r : ρ) : (s.pop r).mem = s.mem := rfl

theorem pop_sp (h : s.sp.toNat + 8 < 2 ^ 64) (r : ρ) : (s.pop r).sp.toNat = s.sp.toNat + 8 :=
  drop_sp h

/-- `s` after its words have been loaded into the registers `rs`, from the top of the stack on. -/
structure Popped (s : StackMachine ρ) (rs : List ρ) (f : ρ → UInt64) (t : StackMachine ρ) : Prop where
  regs : ∀ r, t.regs r = if r ∈ rs then f r else s.regs r
  sp : t.sp.toNat = s.sp.toNat + 8 * rs.length
  mem : t.mem = s.mem

theorem popped_popAll (hw : s.mem.Words s.sp.toNat (rs.map f))
    (h : s.sp.toNat + 8 * rs.length < 2 ^ 64) : Popped s rs f (rs.foldl pop s) := by
  induction rs generalizing s with
  | nil => exact ⟨fun r ↦ (if_neg List.not_mem_nil).symm, rfl, rfl⟩
  | cons r rs ih =>
      rw [List.length_cons] at h
      have hsp : (s.pop r).sp.toNat = s.sp.toNat + 8 := pop_sp (by omega) r
      have hpop : (s.pop r).mem.Words (s.pop r).sp.toNat (rs.map f) := hsp ▸ hw.2
      have hrest := ih hpop (by omega)
      refine ⟨fun x ↦ ?_, ?_, hrest.mem⟩
      · rw [List.foldl_cons, hrest.regs x]
        -- a register that is loaded again later has its value from there
        by_cases hx : x ∈ rs
        · rw [if_pos hx, if_pos (List.mem_cons_of_mem r hx)]
        · rw [if_neg hx]
          by_cases hxr : x = r
          · rw [if_pos (hxr ▸ List.mem_cons_self), hxr]
            exact (Function.update_self r _ _).trans hw.1
          · rw [if_neg (fun hm ↦ (List.mem_cons.mp hm).elim hxr hx)]
            exact Function.update_of_ne hxr _ _
      · rw [List.foldl_cons, hrest.sp, hsp, List.length_cons]
        omega

end StackMachine

end Reasoning
