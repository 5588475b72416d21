import Sbunix.Sys.Page
import Mathlib.Data.Set.Insert

/-!
# Runs of the page allocator

Every order of allocations and frees that starts from `init_page` and frees only pages in use keeps
the free list: its ascending chain holds exactly the pages that are not in use.
-/

namespace Sbunix

open Reasoning PageAlloc

/-- The pages in use after an allocation that handed out `page`, or failed. -/
def granted (s : PageAlloc) (page : Nat) (held : Set Nat) : Set Nat :=
  if s.unsetPage.1 = noPage then held else insert page held

/-- The states that calls of `unsetPage`, `allocatePage`, `setPage` and `deallocatePage` reach from
`init_page(size)`, with the set of the pages in use.  Only pages in use are returned. -/
inductive PageRun (size : Nat) : PageAlloc → Set Nat → Prop
  | init (s : PageAlloc) (hf : s.firstFreepage = 0) (hl : s.lastPage = size) :
      PageRun size (s.initPage size).2 ∅
  | unset {s held} (h : PageRun size s held) :
      PageRun size s.unsetPage.2 (granted s s.unsetPage.1 held)
  | allocate {s held} (h : PageRun size s held) :
      PageRun size s.allocatePage.2 (granted s (s.allocatePage.1 / 4096) held)
  | set {s held index s'} (h : PageRun size s held) (hi : index < size) (hu : index ∈ held)
      (hs : s.setPage index = some s') : PageRun size s' (held \ {index})
  | deallocate {s held address s'} (h : PageRun size s held) (hi : address / 4096 < size)
      (hu : address / 4096 ∈ held) (hs : s.deallocatePage address = some s') :
      PageRun size s' (held \ {address / 4096})

/-- The invariant of the runs: the free list holds the pages of the table that are not in use. -/
structure PageInv (size : Nat) (s : PageAlloc) (held : Set Nat) (l : List Nat) : Prop where
  free : FreeList s l
  size_eq : s.lastPage = size
  mem : ∀ n, n ∈ l ↔ n < size ∧ n ∉ held

variable {size : Nat} {s : PageAlloc} {held : Set Nat} {l : List Nat}

theorem PageInv.unset (h : PageInv size s held l) :
    ∃ l', PageInv size s.unsetPage.2 (granted s s.unsetPage.1 held) l' := by
  cases l with
  | nil =>
      have hu := unsetPage_nil h.free
      exact ⟨[], by simpa only [granted, hu, if_true] using h⟩
  | cons n l =>
      have hu : s.unsetPage.1 = n := by rw [unsetPage_cons h.free]
      have hn := ((h.mem n).mp List.mem_cons_self).1
      have hb := h.free.bound
      -- a page of the list is no sign for an empty list
      have hne : n ≠ noPage := by
        rw [h.size_eq] at hb
        simp only [noPage]
        omega
      refine ⟨l, h.free.unsetPage, (unsetPage_lastPage s).trans h.size_eq, fun m ↦ ?_⟩
      have hnl : n ∉ l := fun hm ↦
        ((List.pairwise_cons.mp h.free.ascending.sorted).1 n (List.mem_append_left _ hm)).false
      have hm := h.mem m
      rw [List.mem_cons] at hm
      rw [granted, hu, if_neg hne, Set.mem_insert_iff, not_or]
      constructor
      · intro hml
        have hmn : m ≠ n := ne_of_mem_of_not_mem hml hnl
        exact ⟨(hm.mp (Or.inr hml)).1, hmn, (hm.mp (Or.inr hml)).2⟩
      · rintro ⟨hms, hmn, hmh⟩
        exact (hm.mpr ⟨hms, hmh⟩).resolve_left hmn

theorem PageInv.set {index : Nat} (h : PageInv size s held l) (hi : index < size)
    (hu : index ∈ held) :
    ∃ s' l', s.setPage index = some s' ∧ PageInv size s' (held \ {index}) l' := by
  have hl : index ∉ l := fun hm ↦ ((h.mem index).mp hm).2 hu
  obtain ⟨s', l', hs, hf, hlast, hmem⟩ := h.free.setPage (by rw [h.size_eq]; exact hi) hl
  refine ⟨s', l', hs, hf, hlast.trans h.size_eq, fun n ↦ ?_⟩
  rw [hmem, h.mem, Set.mem_sdiff, Set.mem_singleton_iff, not_and_not_right]
  constructor
  · rintro (rfl | ⟨hn, hh⟩)
    · exact ⟨hi, fun _ ↦ rfl⟩
    · exact ⟨hn, fun hm ↦ absurd hm hh⟩
  · rintro ⟨hn, hh⟩
    by_cases hm : n ∈ held
    · exact Or.inl (hh hm)
    · exact Or.inr ⟨hn, hm⟩

theorem allocatePage_granted (h : PageInv size s held l) :
    granted s (s.allocatePage.1 / 4096) held = granted s s.unsetPage.1 held := by
  cases l with
  | nil => simp only [granted, unsetPage_nil h.free, if_true]
  | cons n l =>
      have ha := (allocatePage_cons h.free).1
      have hu : s.unsetPage.1 = n := by rw [unsetPage_cons h.free]
      rw [granted, granted, ha, hu, Nat.mul_div_cancel _ (by decide)]

theorem PageRun.inv (hsize : size < 2 ^ 52) (h : PageRun size s held) :
    ∃ l, PageInv size s held l := by
  induction h with
  | init s hf hl =>
      exact ⟨List.range size, freeList_initPage hf hl hsize, hl, fun n ↦ by simp⟩
  | unset h ih =>
      obtain ⟨l, hl⟩ := ih
      exact hl.unset
  | @allocate s held h ih =>
      obtain ⟨l, hl⟩ := ih
      rw [allocatePage_snd, allocatePage_granted hl]
      exact hl.unset
  | set h hi hu hs ih =>
      obtain ⟨l, hl⟩ := ih
      obtain ⟨s', l', hs', hl'⟩ := hl.set hi hu
      rw [hs, Option.some.injEq] at hs'
      exact ⟨l', hs' ▸ hl'⟩
  | deallocate h hi hu hs ih =>
      obtain ⟨l, hl⟩ := ih
      obtain ⟨s', l', hs', hl'⟩ := hl.set hi hu
      rw [deallocatePage, hs', Option.some.injEq] at hs
      exact ⟨l', hs ▸ hl'⟩

/-- An allocation hands out the lowest page that is not in use. -/
theorem PageInv.lowest (h : PageInv size s held l) (hfree : ∃ n < size, n ∉ held) :
    s.unsetPage.1 < size ∧ s.unsetPage.1 ∉ held ∧ (∀ n < size, n ∉ held → s.unsetPage.1 ≤ n) ∧
      s.allocatePage.1 = s.unsetPage.1 * 4096 := by
  obtain ⟨m, hm, hmh⟩ := hfree
  have hml := (h.mem m).mpr ⟨hm, hmh⟩
  cases l with
  | nil => simp at hml
  | cons n l =>
      have hu : s.unsetPage.1 = n := by rw [unsetPage_cons h.free]
      have hn := (h.mem n).mp List.mem_cons_self
      rw [hu]
      refine ⟨hn.1, hn.2, fun k hk hkh ↦ ?_, (allocatePage_cons h.free).1⟩
      have hkl := (h.mem k).mpr ⟨hk, hkh⟩
      have hstart : s.firstFreepage = n := h.free.ascending.chain.1
      exact hstart ▸ h.free.ascending.start_le (List.mem_append_left _ hkl)

/-- With every page in use an allocation fails and changes nothing. -/
theorem PageInv.exhausted (h : PageInv size s held l) (hfull : ∀ n < size, n ∈ held) :
    s.unsetPage = (noPage, s) ∧ s.allocatePage = (0, s) := by
  cases l with
  | nil => exact ⟨unsetPage_nil h.free, allocatePage_nil h.free⟩
  | cons n l =>
      have hn := (h.mem n).mp List.mem_cons_self
      exact absurd (hfull n hn.1) hn.2

/-- In every reachable state the chain from `firstFreepage` ascends to the sentinel through exactly
the pages not in use, `setPage` finds its place inside the array, and an allocation hands out the
lowest free page or, when there is none, fails without a change. -/
theorem pageRun_freeList (hsize : size < 2 ^ 52) (h : PageRun size s held) :
    (∃ l, Chain s.pageMap s.firstFreepage l size ∧ (l ++ [size]).Pairwise (· < ·) ∧
      s.lastPage = size ∧ s.pageMap size = noPage ∧ ∀ n, n ∈ l ↔ n < size ∧ n ∉ held) ∧
    (∀ index ∈ held, index < size → ∃ s', s.setPage index = some s') ∧
    ((∃ n < size, n ∉ held) → s.unsetPage.1 < size ∧ s.unsetPage.1 ∉ held ∧
      (∀ n < size, n ∉ held → s.unsetPage.1 ≤ n) ∧ s.allocatePage.1 = s.unsetPage.1 * 4096) ∧
    ((∀ n < size, n ∈ held) → s.unsetPage = (noPage, s) ∧ s.allocatePage = (0, s)) := by
  obtain ⟨l, hl⟩ := h.inv hsize
  refine ⟨⟨l, ?_, ?_, hl.size_eq, ?_, hl.mem⟩, ?_, hl.lowest, hl.exhausted⟩
  · exact hl.size_eq ▸ hl.free.ascending.chain
  · exact hl.size_eq ▸ hl.free.ascending.sorted
  · exact hl.size_eq ▸ hl.free.sentinel
  · intro index hu hi
    obtain ⟨s', -, hs, -⟩ := hl.set hi hu
    exact ⟨s', hs⟩

/-- A table of three pages, all of them free. -/
def threePages : PageAlloc := ((PageAlloc.mk (fun _ ↦ 7) 0x210000 0 3).initPage 3).2

/-- The run that takes two of three pages and returns the first: page 0 comes back first. -/
theorem pageRun_freeList_three : ∃ s held, PageRun 3 s held ∧ held = {0, 1} \ {0} ∧
    s.unsetPage.1 = 0 ∧ ∃ l, Chain s.pageMap s.firstFreepage l 3 ∧ (l ++ [3]).Pairwise (· < ·) ∧
      s.lastPage = 3 ∧ s.pageMap 3 = noPage ∧ ∀ n, n ∈ l ↔ n < 3 ∧ n ∉ held := by
  have h₀ : PageRun 3 threePages ∅ := .init _ rfl rfl
  have h₂ := h₀.unset.allocate
  have hheld : granted threePages.unsetPage.2 (threePages.unsetPage.2.allocatePage.1 / 4096)
      (granted threePages threePages.unsetPage.1 ∅) = {0, 1} := by
    rw [granted, if_neg (by decide), granted, if_neg (by decide)]
    rw [show threePages.unsetPage.1 = 0 by decide,
      show threePages.unsetPage.2.allocatePage.1 / 4096 = 1 by decide]
    ext n
    simp only [Set.mem_insert_iff, Set.mem_empty_iff_false, or_false, Set.mem_singleton_iff]
    exact or_comm
  rw [hheld] at h₂
  obtain ⟨s', hs'⟩ := (pageRun_freeList (by decide) h₂).2.1 0 (by simp) (by decide)
  have h₃ := PageRun.set h₂ (by decide) (by simp) hs'
  have hmain := pageRun_freeList (by decide) h₃
  refine ⟨s', _, h₃, rfl, ?_, hmain.1⟩
  have hlow := hmain.2.2.1 ⟨0, by decide, by simp⟩
  exact Nat.le_zero.mp (hlow.2.2.1 0 (by decide) (by simp))

/-! ## Returning a page twice -/

/-- `setPage` on a page of the free list leaves the free list of the same pages. -/
def KeepsFreeList (size : Nat) (held : Set Nat) (s : PageAlloc) (index : Nat) : Prop :=
  ∃ s' l', s.setPage index = some s' ∧ PageInv size s' held l'

theorem PageInv.setPage_free_iff {index : Nat} (h : PageInv size s held l) (hm : index ∈ l) :
    KeepsFreeList size held s index ↔ index = s.firstFreepage := by
  constructor
  · rintro ⟨s', l', hs, hinv⟩
    by_contra hne
    rw [h.free.setPage_inner hm hne, Option.some.injEq] at hs
    subst hs
    -- the page is still to be on the list, which cannot ascend past a link to itself
    have hm' : index ∈ l' := (hinv.mem index).mpr ((h.mem index).mp hm)
    have hlt := hinv.free.ascending.lt_next hm'
    exact (hlt.trans_eq (Function.update_self _ _ _)).false
  · rintro rfl
    exact ⟨s, l, setPage_firstFreepage s, h⟩

/-- In every reachable state a page of the free list may be returned again without harm exactly
when it is the first one, which `setPage` leaves alone. -/
theorem keepsFreeList_iff (hsize : size < 2 ^ 52) (h : PageRun size s held) :
    ∃ l, PageInv size s held l ∧
      ∀ index ∈ l, (KeepsFreeList size held s index ↔ index = s.firstFreepage) := by
  obtain ⟨l, hl⟩ := h.inv hsize
  exact ⟨l, hl, fun index hm ↦ hl.setPage_free_iff hm⟩

/-- Of three free pages the first may be returned again. -/
theorem keepsFreeList_first : KeepsFreeList 3 ∅ threePages 0 := by
  obtain ⟨l, hl, hiff⟩ := keepsFreeList_iff (by decide) (.init _ rfl rfl : PageRun 3 threePages ∅)
  have hm : 0 ∈ l := (hl.mem 0).mpr ⟨by decide, Set.notMem_empty 0⟩
  exact (hiff 0 hm).mpr rfl

/-- Returning the middle one of three free pages again ends the list in a loop. -/
theorem keepsFreeList_middle : ∃ l, PageRun 3 threePages ∅ ∧ PageInv 3 threePages ∅ l ∧ 1 ∈ l ∧
    ¬ KeepsFreeList 3 ∅ threePages 1 := by
  have hrun : PageRun 3 threePages ∅ := .init _ rfl rfl
  obtain ⟨l, hl⟩ := hrun.inv (by decide)
  have hm : 1 ∈ l := (hl.mem 1).mpr ⟨by decide, Set.notMem_empty 1⟩
  refine ⟨l, hrun, hl, hm, fun h ↦ ?_⟩
  have hfirst : 1 = threePages.firstFreepage := (hl.setPage_free_iff hm).mp h
  exact absurd hfirst (by decide)

end Sbunix
