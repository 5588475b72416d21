import Sbunix.Sys.MapPage

/-!
# Accesses through the page tables

What the processor does with an address: the window leads to physical memory, every other address
through the four levels under CR3.  `memcpy` copies byte by byte through that translation.
-/

namespace Sbunix

open Reasoning

namespace Machine

/-- The entry of the page that holds `v`, present at every level. -/
def walk (s : Machine) (v : Nat) : Option Nat := pageAt allEntries s.mem s.cr3 (pagePath v)

/-- The physical address that a read of `v` goes to; `none` is a page fault.  The window is taken to be
mapped to its end, as it is with 2 GiB of memory. -/
def translate (s : Machine) (v : Nat) : Option Nat :=
  if kernBase ≤ v then some (v - kernBase) else (s.walk v).map fun e ↦ frame e + v % 4096

/-- The physical address that a write to `v` goes to: the page needs its W bit. -/
def translateWrite (s : Machine) (v : Nat) : Option Nat :=
  if kernBase ≤ v then some (v - kernBase)
  else (s.walk v).bind fun e ↦ if e &&& wBit ≠ 0 then some (frame e + v % 4096) else none

def readByte (s : Machine) (v : Nat) : Option UInt8 := (s.translate v).map s.mem

def writeByte (s : Machine) (v : Nat) (b : UInt8) : Option Machine :=
  (s.translateWrite v).map fun a ↦ { s with mem := Function.update s.mem a b }

/-- `memcpy(dest, src, len)`; `none` when an access faults. -/
def memcpy (s : Machine) (dest src : Nat) : Nat → Option Machine
  | 0 => some s
  | len + 1 =>
      (s.readByte src).bind fun b ↦
        (s.writeByte dest b).bind fun s ↦ s.memcpy (dest + 1) (src + 1) len

end Machine

variable {U : Fin 512 → Bool} {mem mem' : Memory} {s s' : Machine} {r v : Nat} {free : List Nat}

/-! ## What a translation depends on -/

/-- Memories that agree on a set of frames. -/
def SameOn (S : Set Nat) (mem mem' : Memory) : Prop :=
  ∀ x, x / 4096 * 4096 ∈ S → mem' x = mem x

theorem SameOn.entry {S : Set Nat} (h : SameOn S mem mem') {t : Nat} (ht : 4096 ∣ t) (hS : t ∈ S)
    (i : Fin 512) : entry mem' t i = entry mem t i := by
  refine entry_congr (fun x hx hx' ↦ h x ?_) i
  obtain ⟨k, rfl⟩ := ht
  rwa [show x / 4096 * 4096 = 4096 * k by omega]

/-- A table depends on its own page. -/
theorem entry_page {t : Nat} (ht : 4096 ∣ t) (h : ∀ x, x / 4096 * 4096 = t → mem' x = mem x)
    (i : Fin 512) : entry mem' t i = entry mem t i := by
  have hs : SameOn {t} mem mem' := fun x hx ↦ h x (Set.mem_singleton_iff.mp hx)
  exact hs.entry ht rfl i

theorem pageAt_congr (hd : ∀ t ∈ tableFrames U mem r, 4096 ∣ t)
    (h : SameOn (tableFrames U mem r) mem mem') (q : List (Fin 512)) :
    pageAt U mem' r q = pageAt U mem r q :=
  leaf_congr (fun _ u hu ↦ child_congr (h.entry (hd u hu) hu) _)
    (fun u hu ↦ pageEntry_congr (h.entry (hd u hu) hu)) q

theorem tableFrames_congr (hd : ∀ t ∈ tableFrames U mem r, 4096 ∣ t)
    (h : SameOn (tableFrames U mem r) mem mem') : tableFrames U mem' r = tableFrames U mem r :=
  tables_congr fun _ u hu ↦ child_congr (h.entry (hd u hu) hu) _

/-- Below the top-level table all entries count. -/
theorem leaf_restrict {n t : Nat} (hn : n ≤ 2) (q : List (Fin 512)) :
    leaf (child U mem) (pageEntry mem) n t q = leaf (child allEntries mem) (pageEntry mem) n t q := by
  induction n generalizing t q with
  | zero =>
      match q with
      | [] => rfl
      | [_] => rfl
      | _ :: _ :: _ => rfl
  | succ n ih =>
      match q with
      | [] => rfl
      | j :: q =>
          have hc : child U mem n t j = child allEntries mem n t j := by
            simp only [child, show n ≠ 2 by omega, false_implies, true_and]
          rw [leaf, leaf, hc]
          exact congrArg _ (funext fun c ↦ ih (by omega) q)

/-- An address is translated the same in a part of the tables that holds its top-level entry. -/
theorem pageAt_restrict {i : Fin 512} {q : List (Fin 512)} (hU : U i) :
    pageAt U mem r (i :: q) = pageAt allEntries mem r (i :: q) := by
  have hc : child U mem 2 r i = child allEntries mem 2 r i := by
    simp only [child, hU, allEntries, implies_true, true_and]
  rw [pageAt, pageAt, leaf, leaf, hc]
  exact congrArg _ (funext fun c ↦ leaf_restrict (Nat.le_refl 2) q)

/-! ## Copying -/

/-- Where the accesses of a copy go: `d` and `src` give the physical addresses of the bytes. -/
structure CopyPlan (s : Machine) (dest src len : Nat) (T : Set Nat) (d c : Nat → Nat) : Prop where
  write : ∀ mem, SameOn T s.mem mem → ∀ k < len,
    ({ s with mem := mem } : Machine).translateWrite (dest + k) = some (d k)
  read : ∀ mem, SameOn T s.mem mem → ∀ k < len,
    ({ s with mem := mem } : Machine).translate (src + k) = some (c k)
  inj : ∀ k < len, ∀ l < len, d k = d l → k = l
  apart : ∀ k < len, ∀ l < len, d k ≠ c l
  tables : ∀ k < len, d k / 4096 * 4096 ∉ T

theorem memcpy_spec {dest src len : Nat} {T : Set Nat} {d c : Nat → Nat}
    (h : CopyPlan s dest src len T d c) :
    ∃ mem, s.memcpy dest src len = some { s with mem := mem } ∧
      (∀ k < len, mem (d k) = s.mem (c k)) ∧ ∀ x, (∀ k < len, x ≠ d k) → mem x = s.mem x := by
  induction len generalizing s dest src d c with
  | zero => exact ⟨s.mem, rfl, fun k hk ↦ absurd hk (Nat.not_lt_zero k), fun _ _ ↦ rfl⟩
  | succ len ih =>
      have h0 : 0 < len + 1 := Nat.succ_pos len
      have hr : s.readByte src = some (s.mem (c 0)) := by
        have := h.read s.mem (fun _ _ ↦ rfl) 0 h0
        rw [Nat.add_zero] at this
        rw [Machine.readByte, this, Option.map_some]
      have hw : s.writeByte dest (s.mem (c 0)) =
          some { s with mem := Function.update s.mem (d 0) (s.mem (c 0)) } := by
        have := h.write s.mem (fun _ _ ↦ rfl) 0 h0
        rw [Nat.add_zero] at this
        rw [Machine.writeByte, this, Option.map_some]
      -- a byte in a data page leaves the tables as they are, and with them the rest of the plan
      have hsame : ∀ mem, SameOn T (Function.update s.mem (d 0) (s.mem (c 0))) mem →
          SameOn T s.mem mem := by
        intro mem hm x hx
        rw [hm x hx, Function.update_of_ne]
        exact fun he ↦ h.tables 0 h0 (he ▸ hx)
      obtain ⟨mem, hmem, hcopy, hrest⟩ :=
        @ih { s with mem := Function.update s.mem (d 0) (s.mem (c 0)) } (dest + 1) (src + 1)
          (fun k ↦ d (k + 1)) (fun k ↦ c (k + 1))
          { write := fun m hm k hk ↦ by
              rw [Nat.add_right_comm, Nat.add_assoc]
              exact h.write m (hsame m hm) (k + 1) (by omega)
            read := fun m hm k hk ↦ by
              rw [Nat.add_right_comm, Nat.add_assoc]
              exact h.read m (hsame m hm) (k + 1) (by omega)
            inj := fun k hk l hl he ↦ by
              have := h.inj (k + 1) (by omega) (l + 1) (by omega) he
              omega
            apart := fun k hk l hl ↦ h.apart (k + 1) (by omega) (l + 1) (by omega)
            tables := fun k hk ↦ h.tables (k + 1) (by omega) }
      refine ⟨mem, ?_, fun k hk ↦ ?_, fun x hx ↦ ?_⟩
      · rw [Machine.memcpy, hr, Option.bind_some, hw, Option.bind_some, hmem]
      · cases k with
        | zero =>
            refine (hrest (d 0) fun l hl he ↦ ?_).trans (Function.update_self _ _ _)
            have := h.inj 0 h0 (l + 1) (by omega) he
            omega
        | succ k =>
            refine (hcopy k (Nat.lt_of_succ_lt_succ hk)).trans (Function.update_of_ne ?_ _ _)
            exact (h.apart 0 h0 (k + 1) hk).symm
      · refine (hrest x fun l hl ↦ hx (l + 1) (by omega)).trans ?_
        exact Function.update_of_ne (hx 0 h0) _ _

end Sbunix
