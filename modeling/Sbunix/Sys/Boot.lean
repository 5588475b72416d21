import Sbunix.Sys.PageInit

/-!
# The boot memory map (`start` in `sys/main.c`)

`start` keeps the largest region of usable memory and sets up the allocator with its bounds.  The
allocator hands out what lies between the kernel and the upper bound, and from the lower bound up to
the kernel.
-/

namespace Sbunix

open Reasoning PageAlloc

/-- `struct smap_t`; usable memory has type 1. -/
structure Smap where
  base : Nat
  length : Nat
  type : Nat
deriving DecidableEq

/-- The variables of the loop of `start`. -/
structure Largest where
  base : Nat
  limit : Nat
  maxLength : Nat

/-- The body of the loop. -/
def Largest.step (b : Largest) (smap : Smap) : Largest :=
  if smap.type = 1 ∧ smap.length ≠ 0 then
    if smap.length > b.maxLength then
      ⟨smap.base, (smap.base + smap.length) % 2 ^ 64, smap.length⟩
    else b
  else b

def largest (map : List Smap) : Largest := map.foldl Largest.step ⟨0, 0, 0⟩

/-- What `start` does to set up the allocator. -/
def PageAlloc.start (s : PageAlloc) (map : List Smap) (physbase physfree : Nat) :
    Option (Nat × PageAlloc) :=
  s.initPageTable physbase physfree (largest map).base (largest map).limit

/-- Page `n` lies inside a region of usable memory. -/
def Usable (map : List Smap) (n : Nat) : Prop :=
  ∃ r ∈ map, r.type = 1 ∧ r.base ≤ n * 4096 ∧ n * 4096 + 4096 ≤ r.base + r.length

/-- A memory map with the kernel image in usable memory. -/
structure BootMap (map : List Smap) (physbase physfree : Nat) : Prop where
  bound : ∀ r ∈ map, r.base + r.length < 2 ^ 64
  le : physbase ≤ physfree
  image : ∃ r ∈ map, r.type = 1 ∧ r.base ≤ physbase ∧ physfree ≤ r.base + r.length

variable {map : List Smap} {s : PageAlloc} {physbase physfree n : Nat}

/-! ## The largest region -/

/-- The invariant of the loop: the largest region seen so far, or none. -/
structure LargestOf (seen : List Smap) (b : Largest) : Prop where
  max : ∀ r ∈ seen, r.type = 1 → r.length ≤ b.maxLength
  mem : b = ⟨0, 0, 0⟩ ∨ ∃ r ∈ seen, r.type = 1 ∧ b = ⟨r.base, r.base + r.length, r.length⟩

theorem LargestOf.step {seen : List Smap} {b : Largest} {r : Smap} (h : LargestOf seen b)
    (hr : r.base + r.length < 2 ^ 64) : LargestOf (seen ++ [r]) (b.step r) := by
  have hold : b = ⟨0, 0, 0⟩ ∨
      ∃ x ∈ seen ++ [r], x.type = 1 ∧ b = ⟨x.base, x.base + x.length, x.length⟩ :=
    h.mem.imp_right fun ⟨x, hx, hb⟩ ↦ ⟨x, List.mem_append_left _ hx, hb⟩
  have hmem : ∀ x ∈ seen ++ [r], x ∈ seen ∨ x = r := fun x hx ↦
    (List.mem_append.mp hx).imp_right List.mem_singleton.mp
  unfold Largest.step
  -- a usable region that is larger, one that is not, and one that is not usable
  split
  · rename_i ht
    split
    · rename_i hgt
      rw [Nat.mod_eq_of_lt hr]
      refine ⟨fun x hx hx1 ↦ ?_, .inr ⟨r, by simp, ht.1, rfl⟩⟩
      rcases hmem x hx with hx | rfl
      · exact (h.max x hx hx1).trans hgt.le
      · exact Nat.le_refl _
    · rename_i hle
      refine ⟨fun x hx hx1 ↦ ?_, hold⟩
      rcases hmem x hx with hx | rfl
      · exact h.max x hx hx1
      · exact Nat.le_of_not_lt hle
  · rename_i ht
    refine ⟨fun x hx hx1 ↦ ?_, hold⟩
    rcases hmem x hx with hx | rfl
    · exact h.max x hx hx1
    · have : x.length = 0 := by
        by_contra h0
        exact ht ⟨hx1, h0⟩
      omega

theorem LargestOf.foldl {seen l : List Smap} {b : Largest} (h : LargestOf seen b)
    (hl : ∀ r ∈ l, r.base + r.length < 2 ^ 64) :
    LargestOf (seen ++ l) (l.foldl Largest.step b) := by
  induction l generalizing seen b with
  | nil => rwa [List.append_nil]
  | cons r l ih =>
      rw [List.forall_mem_cons] at hl
      have hrest := ih (h.step hl.1) hl.2
      rwa [List.append_assoc] at hrest

theorem largestOf_largest (h : ∀ r ∈ map, r.base + r.length < 2 ^ 64) :
    LargestOf map (largest map) := by
  have hstart : LargestOf [] ⟨0, 0, 0⟩ := ⟨by simp, .inl rfl⟩
  exact hstart.foldl h

theorem LargestOf.bounds {b : Largest} (h : LargestOf map b)
    (hb : ∀ r ∈ map, r.base + r.length < 2 ^ 64) :
    b.limit = b.base + b.maxLength ∧ b.limit < 2 ^ 64 := by
  rcases h.mem with rfl | ⟨r, hr, -, rfl⟩
  · exact ⟨rfl, by decide⟩
  · exact ⟨rfl, hb r hr⟩

/-! ## What is handed out -/

/-- The pages that the allocator can hand out lie in usable memory. -/
def HandsOutUsable (s : PageAlloc) (map : List Smap) (physbase physfree : Nat) : Prop :=
  ∃ r, s.start map physbase physfree = some r ∧ ∀ n, r.2.HandsOut n → Usable map n

/-- The region that `start` keeps is not below the kernel, and from the kernel down to page 0 or up to
the region there is no hole: the pages of the two ranges that begin below it are usable all the
same. -/
structure NoHole (map : List Smap) (physbase physfree : Nat) : Prop where
  above : physbase / 4096 ≤ (largest map).limit / 4096
  below : ∀ n, n * 4096 < (largest map).base →
    ((largest map).base / 4096 ≤ n ∧ n < physbase / 4096) ∨
      (tableEnd physfree (largest map).limit / 4096 ≤ n ∧ n < (largest map).limit / 4096) →
    Usable map n

/-- A page of the region that is kept is usable. -/
theorem LargestOf.usable {b : Largest} (h : LargestOf map b) (hn : b.base ≤ n * 4096)
    (hl : n < b.limit / 4096) : Usable map n := by
  rcases h.mem with rfl | ⟨r, hr, ht, rfl⟩
  · exact absurd hl (Nat.not_lt_zero n)
  · exact ⟨r, hr, ht, hn, by dsimp only at hl; omega⟩

/-- The pages that the boot code makes available are usable if the map has no hole where it looks for
memory, and only then; the one case left open is a kernel in the page that follows the region. -/
theorem start_usable_iff (h : BootMap map physbase physfree) (s : PageAlloc) :
    (NoHole map physbase physfree → HandsOutUsable s map physbase physfree) ∧
      (HandsOutUsable s map physbase physfree →
        NoHole map physbase physfree ∨ physbase / 4096 = (largest map).limit / 4096 + 1) := by
  have hlarge := largestOf_largest h.bound
  obtain ⟨hlimit, hlt⟩ := hlarge.bounds h.bound
  constructor
  · intro hn
    obtain ⟨s', l, hs', hf, hmem⟩ := initPageTable_freeList s (largest map).base
      h.le hlt hn.above
    refine ⟨_, hs', fun n hout ↦ ?_⟩
    have hnl := (hmem n).mp (hf.handsOut_iff.mp hout)
    by_cases hb : n * 4096 < (largest map).base
    · exact hn.below n hb hnl
    · have := hn.above
      exact hlarge.usable (by omega) (by omega)
  · rintro ⟨r, hr, hout⟩
    by_cases habove : physbase / 4096 ≤ (largest map).limit / 4096
    · refine .inl ⟨habove, fun n _ hn ↦ hout n ?_⟩
      obtain ⟨s', l, hs', hf, hmem⟩ := initPageTable_freeList s (largest map).base
        h.le hlt habove
      obtain rfl := Option.some.inj (hs'.symm.trans hr)
      exact hf.handsOut_iff.mpr ((hmem n).mpr hn)
    · by_cases hnext : physbase / 4096 = (largest map).limit / 4096 + 1
      · exact .inr hnext
      · obtain ⟨hb, hho⟩ := initPageTable_above h.le hlt (by omega) (by omega) hr
        -- the page of the limit is as long as the largest region
        obtain ⟨x, hx, ht, hxb, hxl⟩ := hout _ hho
        have := hlarge.max x hx ht
        omega

/-- The kernel's region is the largest and starts on a page. -/
theorem start_usable_low : HandsOutUsable ⟨fun _ ↦ 0, 0, 0, 0⟩
    [⟨0, 0x9fc00, 1⟩, ⟨0xf0000, 0x10000, 2⟩, ⟨0x100000, 0x7ee0000, 1⟩] 0x200000 0x220000 := by
  have hmap : BootMap [⟨0, 0x9fc00, 1⟩, ⟨0xf0000, 0x10000, 2⟩, ⟨0x100000, 0x7ee0000, 1⟩]
      0x200000 0x220000 :=
    ⟨by decide, by decide, ⟨0x100000, 0x7ee0000, 1⟩, by simp, rfl, by decide, by decide⟩
  refine (start_usable_iff hmap _).1 ⟨by decide, fun n hb hn ↦ ?_⟩
  have hbase : (largest [⟨0, 0x9fc00, 1⟩, ⟨0xf0000, 0x10000, 2⟩, ⟨0x100000, 0x7ee0000, 1⟩]).base =
    0x100000 := rfl
  have hend : tableEnd 0x220000
    (largest [⟨0, 0x9fc00, 1⟩, ⟨0xf0000, 0x10000, 2⟩, ⟨0x100000, 0x7ee0000, 1⟩]).limit = 0x260000 := rfl
  rw [hbase] at hb hn
  rw [hend] at hn
  omega

/-- The largest region lies behind a hole that follows the kernel's. -/
theorem start_usable_hole : ¬ HandsOutUsable ⟨fun _ ↦ 0, 0, 0, 0⟩
    [⟨0x100000, 0x200000, 1⟩, ⟨0x400000, 0x8000000, 1⟩] 0x200000 0x220000 := by
  rintro ⟨r, hr, hout⟩
  obtain ⟨s', l, hs', hf, hmem⟩ := initPageTable_freeList ⟨fun _ ↦ 0, 0, 0, 0⟩ 0x400000
    (show 0x200000 ≤ 0x220000 by decide) (show 0x8400000 < 2 ^ 64 by decide) (by decide)
  obtain rfl := Option.some.inj (hs'.symm.trans hr)
  obtain ⟨x, hx, -, hb, hl⟩ := hout 0x300 (hf.handsOut_iff.mpr ((hmem _).mpr (by decide)))
  simp only [List.mem_cons, List.not_mem_nil, or_false] at hx
  rcases hx with rfl | rfl <;> simp at hb hl

end Sbunix
