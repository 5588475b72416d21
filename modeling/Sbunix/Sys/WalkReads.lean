import Sbunix.Sys.Kfree
import Sbunix.Sys.PageInit

/-!
# The tables that a walk reads

`physicalAddress` and `kfree` go on from NULL where one of the two upper entries is not present, and
look at the pointer only before the last read.  A NULL table is read like any other address, through
the loaded tables.
-/

namespace Sbunix

open Reasoning Machine PageAlloc

/-- The table behind an entry, whose pointer is `ptr` of the frame; NULL if there is none. -/
def tableOf (ptr : Nat → Nat) (e : Nat) : Nat := if e &&& pBit ≠ 0 then ptr (frame e) else 0

/-- The tables that are read, each with the entry that was read, or `none` for a fault. -/
abbrev ReadLog := List (Nat × Option Nat)

/-- The common body of `physicalAddress` and `kfree`: what is read, and the page entry, which is
missing when the last table is NULL. -/
def pageWalk (read : Nat → Option Nat) (ptr : Nat → Nat) (pml4e v : Nat) :
    ReadLog × Option (Option Nat) :=
  match read (pml4e + 8 * getIndex v 39) with
  | none => ([(pml4e, none)], none)
  | some pml4eEntry =>
      let pdpe := tableOf ptr pml4eEntry
      -- the table is read even where there is none
      match read (pdpe + 8 * getIndex v 30) with
      | none => ([(pml4e, some pml4eEntry), (pdpe, none)], none)
      | some pdpeEntry =>
          let pde := tableOf ptr pdpeEntry
          match read (pde + 8 * getIndex v 21) with
          | none => ([(pml4e, some pml4eEntry), (pdpe, some pdpeEntry), (pde, none)], none)
          | some pdeEntry =>
              let pte := tableOf ptr pdeEntry
              let log := [(pml4e, some pml4eEntry), (pdpe, some pdpeEntry), (pde, some pdeEntry)]
              -- the only pointer that is looked at
              if pte ≠ 0 then
                let pteEntry := read (pte + 8 * getIndex v 12)
                (log ++ [(pte, pteEntry)], pteEntry.map some)
              else (log, some none)

namespace Machine

/-- Eight bytes at a virtual address. -/
def readWord (s : Machine) (a : Nat) : Option Nat := s.readBytes a 8

/-- `physicalAddress(virtual_address)` with its reads. -/
def physicalAddressWalk (s : Machine) (v : Nat) : ReadLog × Option Nat :=
  let (log, pteEntry) := pageWalk s.readWord kptr (kptr s.cr3) v
  (log, pteEntry.map fun entry ↦ entry.getD 0)

/-- `kfree(virtual_address)` with its reads. -/
def kfreeWalk (s : Machine) (v : Nat) : ReadLog × Option Machine :=
  let (log, pteEntry) := pageWalk s.readWord id s.cr3 v
  (log, pteEntry.bind fun
    | none => some s
    | some physicalAddress =>
        (s.alloc.deallocatePage physicalAddress).map fun alloc ↦ { s with alloc := alloc })

end Machine

/-- Returning page `i` leaves the free list as it is: it is the first page of the list, or the search
stops at an entry that need not change. -/
def PageAlloc.Unmoved (p : PageAlloc) (i : Nat) : Prop :=
  i = p.firstFreepage ∨ p.firstFreepage < i ∧ ∃ a ≤ p.lastPage, p.firstFreepage ≤ a ∧
    (∀ n, p.firstFreepage ≤ n → n < a → p.pageMap n < i) ∧ i ≤ p.pageMap a ∧
    (a = i ∨ p.pageMap a = i ∧ p.pageMap i = i)

variable {s : Machine} {p : PageAlloc} {read : Nat → Option Nat} {ptr : Nat → Nat}
  {pml4e v a n e i : Nat}

theorem tableOf_of_present (h : Present e) : tableOf ptr e = ptr (frame e) := if_pos h

theorem tableOf_of_absent (h : ¬ Present e) : tableOf ptr e = 0 := if_neg h

theorem readBytes_window (h : kernBase ≤ a) :
    s.readBytes a n = some (s.mem.loadBytes (a - kernBase) n) := by
  induction n generalizing a with
  | zero => rfl
  | succ n ih =>
      rw [readBytes, readByte, Machine.translate, if_pos h, ih (Nat.le_succ_of_le h), Nat.succ_sub h]
      rfl

theorem readWord_kptr (t : Nat) (i : Fin 512) :
    s.readWord (kptr t + 8 * i) = some (s.readEntry (kptr t) i) := by
  have hle : kernBase ≤ kptr t := Nat.right_le_or
  rw [readWord, readBytes_window (Nat.le_add_right_of_le hle), readEntry, phys, if_pos hle,
    Nat.sub_add_comm hle]
  rfl

theorem pageWalk_snd : (pageWalk read ptr pml4e v).2 =
    (read (pml4e + 8 * getIndex v 39)).bind fun e₁ ↦
      (read (tableOf ptr e₁ + 8 * getIndex v 30)).bind fun e₂ ↦
        (read (tableOf ptr e₂ + 8 * getIndex v 21)).bind fun e₃ ↦
          if tableOf ptr e₃ ≠ 0 then (read (tableOf ptr e₃ + 8 * getIndex v 12)).map some
          else some none := by
  rw [pageWalk]
  cases read (pml4e + 8 * getIndex v 39) with
  | none => rfl
  | some e₁ =>
      rw [Option.bind_some]
      dsimp only
      cases read (tableOf ptr e₁ + 8 * getIndex v 30) with
      | none => rfl
      | some e₂ =>
          rw [Option.bind_some]
          dsimp only
          cases read (tableOf ptr e₂ + 8 * getIndex v 21) with
          | none => rfl
          | some e₃ =>
              rw [Option.bind_some]
              dsimp only
              split <;> rfl

/-- With the log left out it is `kfree`. -/
theorem kfreeWalk_snd : (s.kfreeWalk v).2 = s.kfree v := by
  change (pageWalk s.readWord id s.cr3 v).2.bind _ = _
  rw [pageWalk_snd, Option.bind_assoc]
  refine congrArg (Option.bind _) (funext fun e₁ ↦ ?_)
  rw [Option.bind_assoc]
  refine congrArg (Option.bind _) (funext fun e₂ ↦ ?_)
  rw [Option.bind_assoc]
  refine congrArg (Option.bind _) (funext fun e₃ ↦ ?_)
  by_cases h : tableOf id e₃ ≠ 0
  · rw [if_pos h, Option.bind_map]
    exact (if_pos h).symm
  · rw [if_neg h]
    exact (if_neg h).symm

/-- Where `physicalAddress` keeps to present tables above the last level, the walk finds the same. -/
theorem physicalAddressWalk_snd (h : s.physicalAddress v = some e) :
    (s.physicalAddressWalk v).2 = some e := by
  change (pageWalk s.readWord kptr (kptr s.cr3) v).2.map _ = _
  rw [physicalAddress] at h
  dsimp only at h
  split at h
  · cases h
  rename_i h₁
  split at h
  · cases h
  rename_i h₂
  rw [pageWalk_snd, readWord_kptr, Option.bind_some, tableOf_of_present h₁, readWord_kptr,
    Option.bind_some, tableOf_of_present h₂, readWord_kptr, Option.bind_some]
  split at h
  · rename_i h₃
    rw [tableOf_of_absent (fun hne ↦ hne h₃), if_neg (fun hne ↦ hne rfl)]
    exact h
  · rename_i h₃
    rw [tableOf_of_present h₃, if_pos (kptr_ne_zero _), readWord_kptr]
    exact h

/-! ## What is read -/

/-- On a free list that is what it should be only the first page stays where it is. -/
theorem FreeList.unmoved_iff {l : List Nat} (h : FreeList p l) (hi : i ≤ p.lastPage) :
    p.Unmoved i ↔ i = p.firstFreepage := by
  refine or_iff_left ?_
  rintro ⟨hgt, a, -, hle, hlow, hstop, hself⟩
  -- the search stops in front of the page
  obtain ⟨l₁, q, l₂, hsplit, hq, hqi, -⟩ := h.ascending.split hgt hi
  have hql : q ∈ l := hsplit ▸ List.mem_append_right l₁ List.mem_cons_self
  have hfq : p.firstFreepage ≤ q := h.ascending.start_le (List.mem_append_left _ hql)
  have haq : a ≤ q := Nat.le_of_not_lt fun hlt ↦ Nat.not_lt.mpr hqi (hlow q hfq hlt)
  obtain rfl | ⟨-, hii⟩ := hself
  · omega
  · by_cases hl : i ∈ l
    · exact (h.ascending.lt_next hl).ne' hii
    by_cases hz : i = p.lastPage
    · have hb := h.bound
      rw [hz, h.sentinel, noPage] at hii
      omega
    · rw [h.taken i (by omega) hl] at hii
      omega

/-! ## When the functions keep to what is present -/

end Sbunix
