import Sbunix.Sys.Elf
import Sbunix.Sys.Window

/-!
# Returning a kernel page (`kfree`)

`kmalloc` reaches the tables through the window; `kfree` takes their physical addresses as they are.
So what it finds is what the loaded tables map at these addresses, which is user memory.
-/

namespace Sbunix

open Reasoning Machine

/-- The table behind an entry, without the window; NULL if there is none. -/
def rawTable (e : Nat) : Nat := if e &&& pBit ≠ 0 then frame e else 0

/-- `kfree(virtual_address)`; `none` when a read faults. -/
def Machine.kfree (s : Machine) (virtualAddress : Nat) : Option Machine :=
  let pml4e := s.cr3
  (s.readBytes (pml4e + 8 * getIndex virtualAddress 39) 8).bind fun pml4eEntry ↦
    let pdpe := rawTable pml4eEntry
    (s.readBytes (pdpe + 8 * getIndex virtualAddress 30) 8).bind fun pdpeEntry ↦
      let pde := rawTable pdpeEntry
      (s.readBytes (pde + 8 * getIndex virtualAddress 21) 8).bind fun pdeEntry ↦
        let pte := rawTable pdeEntry
        if pte ≠ 0 then
          (s.readBytes (pte + 8 * getIndex virtualAddress 12) 8).bind fun physicalAddress ↦
            (s.alloc.deallocatePage physicalAddress).map fun alloc ↦ { s with alloc := alloc }
        else some s

/-- `kfree` takes the page of `kmalloc` back, and the free list is as it was. -/
def KfreeRestores (s : Machine) : Prop :=
  ∃ s', s.kmalloc.2.kfree s.kmalloc.1 = some s' ∧ s'.alloc.pageMap = s.alloc.pageMap ∧
    s'.alloc.firstFreepage = s.alloc.firstFreepage

/-- User memory that shows a walk for `v` to page `n`: `e₁` to `e₄` stand where the entries do, but at
the physical addresses of the tables, taken for virtual ones. -/
structure RawWalk (s : Machine) (v n e₁ e₂ e₃ e₄ : Nat) : Prop where
  top : s.readBytes (s.cr3 + 8 * getIndex v 39) 8 = some e₁
  mid : s.readBytes (rawTable e₁ + 8 * getIndex v 30) 8 = some e₂
  low : s.readBytes (rawTable e₂ + 8 * getIndex v 21) 8 = some e₃
  table : rawTable e₃ ≠ 0
  leaf : s.readBytes (rawTable e₃ + 8 * getIndex v 12) 8 = some e₄
  page : e₄ / 4096 = n

variable {s s' : Machine} {a n v w index : Nat} {free l : List Nat} {p p' : PageAlloc}

/-! ## The free list -/

/-- Behind an allocation only the page itself goes back to the front of the list, and then the list is
as it was. -/
theorem FreeList.setPage_unsetPage (h : FreeList p (n :: l))
    (hs : p.unsetPage.2.setPage index = some p') :
    (p'.firstFreepage = p.firstFreepage ↔ index = n) ∧ (index = n → p'.pageMap = p.pageMap) := by
  have hfirst : p.firstFreepage = n := h.ascending.chain.1
  have hnext : n < p.pageMap n := h.ascending.lt_next List.mem_cons_self
  rw [unsetPage_cons h] at hs
  by_cases hlt : index < p.pageMap n
  · rw [PageAlloc.setPage, if_pos hlt] at hs
    obtain rfl := Option.some.inj hs
    rw [hfirst]
    refine ⟨Iff.rfl, ?_⟩
    rintro rfl
    dsimp only
    rw [Function.update_idem, Function.update_eq_self]
  · have hfirst' : p'.firstFreepage = p.pageMap n := by
      rw [PageAlloc.setPage, if_neg hlt] at hs
      split at hs
      · obtain ⟨a, -, rfl⟩ := Option.map_eq_some_iff.mp hs
        rfl
      · obtain rfl := Option.some.inj hs
        rfl
    rw [hfirst', hfirst]
    exact ⟨iff_of_false hnext.ne' (by omega), fun he ↦ absurd he (by omega)⟩

theorem setPage_unsetPage_self (h : FreeList p (n :: l)) :
    ∃ p', p.unsetPage.2.setPage n = some p' := by
  rw [unsetPage_cons h]
  exact ⟨_, if_pos (h.ascending.lt_next List.mem_cons_self)⟩

/-! ## The walk -/

theorem kmalloc_alloc (h : Ready w s (n :: free)) : s.kmalloc.1 = kptr (n * 4096) ∧
    s.kmalloc.2.alloc = s.alloc.unsetPage.2 ∧ s.kmalloc.2.cr3 = s.cr3 := by
  obtain ⟨t, mem, hk, -⟩ := kmalloc_page h
  rw [hk]
  exact ⟨rfl, (allocatePage_cons h.freeList).2, rfl⟩

theorem kfreeRestores_iff (h : Ready w s (n :: free)) : KfreeRestores s ↔
    ∃ e₁ e₂ e₃ e₄, RawWalk s.kmalloc.2 (kptr (n * 4096)) n e₁ e₂ e₃ e₄ := by
  obtain ⟨haddr, halloc, -⟩ := kmalloc_alloc h
  have hfirst : s.alloc.firstFreepage = n := h.freeList.ascending.chain.1
  rw [KfreeRestores, haddr]
  constructor
  · rintro ⟨s', hs, -, hrest⟩
    obtain ⟨e₁, h₁, hs⟩ := Option.bind_eq_some_iff.mp hs
    obtain ⟨e₂, h₂, hs⟩ := Option.bind_eq_some_iff.mp hs
    obtain ⟨e₃, h₃, hs⟩ := Option.bind_eq_some_iff.mp hs
    dsimp only at hs
    split at hs
    · rename_i htable
      obtain ⟨e₄, h₄, hs⟩ := Option.bind_eq_some_iff.mp hs
      obtain ⟨p, hp, rfl⟩ := Option.map_eq_some_iff.mp hs
      rw [halloc] at hp
      -- the front of the list is the page again, so it is the page that was returned
      have hpage := (h.freeList.setPage_unsetPage hp).1.mp hrest
      exact ⟨e₁, e₂, e₃, e₄, h₁, h₂, h₃, htable, h₄, hpage⟩
    · -- without a table nothing is returned
      obtain rfl := Option.some.inj hs
      have hnext : n < s.alloc.pageMap n := h.freeList.ascending.lt_next List.mem_cons_self
      rw [halloc, unsetPage_cons h.freeList, hfirst] at hrest
      exact absurd hrest hnext.ne'
  · -- the page is below all free ones, and goes to the front
    rintro ⟨e₁, e₂, e₃, e₄, hw⟩
    obtain ⟨p, hp⟩ := setPage_unsetPage_self h.freeList
    have hspec := h.freeList.setPage_unsetPage hp
    refine ⟨{ s.kmalloc.2 with alloc := p }, ?_, hspec.2 rfl, hspec.1.mpr rfl⟩
    rw [kfree, hw.top, Option.bind_some]
    dsimp only
    rw [hw.mid, Option.bind_some, hw.low, Option.bind_some, if_pos hw.table, hw.leaf,
      Option.bind_some, PageAlloc.deallocatePage, hw.page, halloc, hp, Option.map_some]

theorem readBytes_none {len : Nat} (h : s.translate a = none) : s.readBytes a (len + 1) = none := by
  rw [readBytes, readByte, h, Option.map_none, Option.bind_none]

/-- Nothing is mapped at an address under an entry that is not present. -/
theorem translate_none (ha : a < kernBase) (h : ¬ Present (entry s.mem s.cr3 (getIndex a 39))) :
    s.translate a = none := by
  have hc : child allEntries s.mem 2 s.cr3 (getIndex a 39) = none := child_of_absent h
  have hwalk : s.walk a = none := by
    change (child allEntries s.mem 2 s.cr3 (getIndex a 39)).bind _ = none
    rw [hc, Option.bind_none]
  rw [Machine.translate, if_neg (Nat.not_le.mpr ha), hwalk, Option.map_none]

/-- The kernel's allocations leave the topmost table as it is. -/
theorem Kept.root_entry {free' : List Nat} (h : Kept w s free s' free') (hr : Ready w s free)
    (i : Fin 512) : entry s'.mem s'.cr3 i = entry s.mem s.cr3 i := by
  obtain ⟨l, rfl, hl⟩ := h.taken
  rw [h.cr3]
  refine entry_page hr.root.1 (fun x hx ↦ hl x ?_ ?_) i
  · rw [hx]
    exact hr.root_apart.1
  · rw [hx]
    exact fun ⟨m, hm, he⟩ ↦ hr.root_apart.2 ⟨m, List.mem_append_left _ hm, he⟩

/-- The address of the topmost table lies below 2 GiB, and so under entry 0. -/
theorem kfree_none (h : Ready w s (n :: free)) (hzero : ¬ Present (entry s.mem s.cr3 0)) :
    s.kmalloc.2.kfree v = none := by
  have hcr3 := (kmalloc_alloc h).2.2
  have hlt := h.root.2
  have hi := (getIndex v 39).isLt
  have hindex : getIndex (s.cr3 + 8 * getIndex v 39) 39 = 0 := by
    refine Fin.ext ?_
    rw [getIndex_val]
    change _ = 0
    omega
  rw [kfree, hcr3, readBytes_none, Option.bind_none]
  refine translate_none (by unfold kernBase; omega) ?_
  rw [hindex, (kmalloc_kept h).2.root_entry h]
  exact hzero

/-- `kfree` undoes `kmalloc` exactly when user memory shows it a walk to the page.  With the kernel's
own tables loaded, or any others without entry 0, it faults. -/
theorem kmalloc_kfree_iff (h : Ready w s (n :: free)) :
    (KfreeRestores s ↔ ∃ e₁ e₂ e₃ e₄, RawWalk s.kmalloc.2 (kptr (n * 4096)) n e₁ e₂ e₃ e₄) ∧
      (¬ Present (entry s.mem s.cr3 0) → ∀ v, s.kmalloc.2.kfree v = none) :=
  ⟨kfreeRestores_iff h, fun hzero _ ↦ kfree_none h hzero⟩

/-! A process that has its own tables mapped at their physical addresses. -/

/-- The boot machine with pages 1 to 4 mapped at their own addresses. -/
def identSpace : Machine :=
  { bootSpace 0x5007 0 with
    mem := .ofWords fun w ↦
      if 0xe01 ≤ w ∧ w ≤ 0xe04 then (w - 0xe00) * 4096 + 7 else bootWords 0x5007 0 w }

theorem identSpace_page {x : Nat} (h : x < 0x7000) :
    identSpace.mem x = (bootSpace 0x5007 0).mem x := by
  rw [identSpace, bootSpace]
  dsimp only [Memory.ofWords]
  rw [if_neg (by omega)]

theorem identSpace_ready : Ready 0x2000 identSpace (List.range' 20 44) := by
  have h := bootSpace_ready 0x5007 0
  have hsame : SameOn (windowFrames (bootSpace 0x5007 0).mem 0x2000) (bootSpace 0x5007 0).mem
      identSpace.mem := by
    intro x hx
    rw [(bootSpace_window 0x5007 0).1] at hx
    refine identSpace_page ?_
    simp only [Set.mem_insert_iff, Set.mem_singleton_iff] at hx
    omega
  obtain ⟨hwin, hframes⟩ := h.window.congr hsame
  refine ⟨h.freeList, h.free_lt, hwin, h.root, ⟨?_, h.root_apart.2⟩, ?_⟩
  · rw [hframes]
    exact h.root_apart.1
  · refine Eq.trans ?_ h.shared
    refine congrFun (child_congr (entry_page h.root.1 fun x hx ↦ identSpace_page ?_) 2) 511
    change _ = 0x1000 at hx
    omega

theorem kmalloc_kfree_ident : KfreeRestores identSpace :=
  (kmalloc_kfree_iff (show Ready 0x2000 identSpace (20 :: List.range' 21 43) from
    identSpace_ready)).1.mpr ⟨0x2007, 0x3007, 0x4007, 0x14007, by decide +kernel,
      by decide +kernel, by decide +kernel, by decide, by decide +kernel, by decide⟩

theorem kmalloc_kfree_boot : Ready 0x2000 (bootSpace 0 0) (20 :: List.range' 21 43) ∧
    (bootSpace 0 0).kmalloc.2.kfree (bootSpace 0 0).kmalloc.1 = none ∧
    ¬ KfreeRestores (bootSpace 0 0) := by
  have hready : Ready 0x2000 (bootSpace 0 0) (20 :: List.range' 21 43) := bootSpace_ready 0 0
  have hnone : (bootSpace 0 0).kmalloc.2.kfree (bootSpace 0 0).kmalloc.1 = none :=
    kfree_none hready (by decide +kernel)
  refine ⟨hready, hnone, ?_⟩
  rintro ⟨s', hs, -⟩
  rw [hnone] at hs
  cases hs

end Sbunix
