import Sbunix.Reasoning.AscendingChain
import Mathlib.Algebra.Group.Nat.Defs
import Mathlib.Data.List.Range

/-!
# The physical page allocator (`sys/page.c`)

`pageMap` is an array of `lastPage + 1` words: a free page holds the number of the next free page,
a page in use holds 0, and the entry after the last page is the sentinel `-1`.  Words are naturals
below `2 ^ 64`; an array read or scan that would leave the array is `none`.
-/

namespace Sbunix

open Reasoning

/-- `(uint64_t)-1`, the mark of the end of the free list. -/
def noPage : Nat := 2 ^ 64 - 1

/-- The globals of `page.c`; `base` is the address that the pointer `pageMap` holds. -/
structure PageAlloc where
  pageMap : Nat → Nat
  base : Nat
  firstFreepage : Nat
  lastPage : Nat

namespace PageAlloc

/-- The loop of `init_page`, with `left` entries still to write from `start` on. -/
def initPageLoop (map : Nat → Nat) (start : Nat) : Nat → (Nat → Nat)
  | 0 => map
  | left + 1 => initPageLoop (Function.update map start (start + 1)) (start + 1) left

/-- `init_page(size)`; the first component is the address it returns. -/
def initPage (s : PageAlloc) (size : Nat) : Nat × PageAlloc :=
  (s.base + 8 * size,
    { s with pageMap := Function.update (initPageLoop s.pageMap 0 size) size noPage })

def unsetPage (s : PageAlloc) : Nat × PageAlloc :=
  if s.pageMap s.firstFreepage = noPage then (noPage, s)
  else
    let l := s.firstFreepage
    (l, { s with firstFreepage := s.pageMap l, pageMap := Function.update s.pageMap l 0 })

/-- `allocatePage()`: the address of the page, or NULL when there is none. -/
def allocatePage (s : PageAlloc) : Nat × PageAlloc :=
  let (a, s) := s.unsetPage
  if a = noPage then (0, s) else (a * 4096 % 2 ^ 64, s)

/-- `while (pageMap[a] < index) a++`, with `left` entries of the array from `a` on. -/
def setPageSearch (pageMap : Nat → Nat) (index : Nat) : Nat → Nat → Option Nat
  | 0, _ => none
  | left + 1, a => if pageMap a < index then setPageSearch pageMap index left (a + 1) else some a

def setPage (s : PageAlloc) (index : Nat) : Option PageAlloc :=
  if index < s.firstFreepage then
    -- in front of the list
    some { s with
      pageMap := Function.update s.pageMap index s.firstFreepage, firstFreepage := index }
  else if index > s.firstFreepage then
    -- the search goes through the array entry by entry, not along the links
    (setPageSearch s.pageMap index (s.lastPage + 1 - s.firstFreepage) s.firstFreepage).map fun a ↦
      let b := s.pageMap a
      { s with pageMap := Function.update (Function.update s.pageMap a index) index b }
  else some s

def deallocatePage (s : PageAlloc) (address : Nat) : Option PageAlloc :=
  s.setPage (address / 4096)

/-- The test of `unsetPage`: a page is left on the free list. -/
def HasFree (s : PageAlloc) : Prop := s.pageMap s.firstFreepage ≠ noPage

instance (s : PageAlloc) : Decidable s.HasFree := inferInstanceAs (Decidable (_ ≠ _))

end PageAlloc

open PageAlloc

/-! ## The free list -/

/-- `l` is the free list: an ascending chain from `firstFreepage` to the sentinel, and every other
page of the table is marked as taken.  Page addresses are 64-bit, which bounds the table. -/
structure FreeList (s : PageAlloc) (l : List Nat) : Prop where
  ascending : AscendingChain s.pageMap s.firstFreepage l s.lastPage
  sentinel : s.pageMap s.lastPage = noPage
  taken : ∀ n < s.lastPage, n ∉ l → s.pageMap n = 0
  bound : s.lastPage < 2 ^ 52

variable {s : PageAlloc} {l : List Nat}

theorem FreeList.link_lt {n : Nat} (h : FreeList s l) (hn : n ∈ l) : s.pageMap n < noPage := by
  have hle := h.ascending.next_le hn
  have hb := h.bound
  simp only [noPage]
  omega

theorem FreeList.hasFree_iff (h : FreeList s l) : s.HasFree ↔ l ≠ [] := by
  cases l with
  | nil =>
      have hf := AscendingChain.nil_iff.mp h.ascending
      simp [HasFree, hf, h.sentinel]
  | cons n l =>
      have hf := h.ascending.chain.1
      have hn : s.pageMap n < noPage := h.link_lt List.mem_cons_self
      simp [HasFree, hf, hn.ne]

theorem unsetPage_nil (h : FreeList s []) : s.unsetPage = (noPage, s) := by
  rw [unsetPage, if_pos]
  rw [AscendingChain.nil_iff.mp h.ascending, h.sentinel]

theorem allocatePage_nil (h : FreeList s []) : s.allocatePage = (0, s) := by
  simp only [allocatePage, unsetPage_nil h, if_true]

theorem unsetPage_cons {n : Nat} (h : FreeList s (n :: l)) :
    s.unsetPage = (n, { s with
      firstFreepage := s.pageMap n, pageMap := Function.update s.pageMap n 0 }) := by
  have hf : s.firstFreepage = n := h.ascending.chain.1
  have hn := h.link_lt List.mem_cons_self
  rw [unsetPage, if_neg (by rw [hf]; exact hn.ne), hf]

theorem FreeList.nodup_cons {n : Nat} (h : FreeList s (n :: l)) : n ∉ l := fun hm ↦
  ((List.pairwise_cons.mp h.ascending.sorted).1 n (List.mem_append_left _ hm)).false

theorem FreeList.unique {l' : List Nat} (h : FreeList s l) (h' : FreeList s l') : l = l' :=
  h.ascending.chain.unique h'.ascending.chain (fun hm ↦ (h.ascending.lt_end hm).false)
    fun hm ↦ (h'.ascending.lt_end hm).false

theorem FreeList.nodup (h : FreeList s l) : l.Nodup :=
  (List.pairwise_append.mp h.ascending.sorted).1.imp fun hlt ↦ hlt.ne

theorem FreeList.unsetPage {n : Nat} (h : FreeList s (n :: l)) : FreeList s.unsetPage.2 l := by
  rw [unsetPage_cons h]
  have hnl := h.nodup_cons
  have hlt : n < s.lastPage := h.ascending.lt_end List.mem_cons_self
  refine ⟨h.ascending.tail.update hnl, ?_, ?_, h.bound⟩
  · exact (Function.update_of_ne hlt.ne' _ _).trans h.sentinel
  · intro m hm hml
    by_cases he : m = n
    · subst he
      exact Function.update_self _ _ _
    · exact (Function.update_of_ne he _ _).trans (h.taken m hm (by simp [he, hml]))

/-- An allocation takes the first page of the free list and nothing else. -/
theorem allocatePage_cons {n : Nat} (h : FreeList s (n :: l)) :
    s.allocatePage.1 = n * 4096 ∧ s.allocatePage.2 = s.unsetPage.2 := by
  have hlt : n < s.lastPage := h.ascending.lt_end List.mem_cons_self
  have hb := h.bound
  have hne : n ≠ noPage := by simp only [noPage]; omega
  simp only [allocatePage, unsetPage_cons h, hne, if_false, and_true]
  omega

theorem unsetPage_lastPage (s : PageAlloc) : s.unsetPage.2.lastPage = s.lastPage := by
  unfold PageAlloc.unsetPage
  split <;> rfl

theorem allocatePage_snd (s : PageAlloc) : s.allocatePage.2 = s.unsetPage.2 := by
  unfold allocatePage
  dsimp only
  split <;> rfl

/-! ## Initialisation -/

theorem initPageLoop_apply (map : Nat → Nat) (start left n : Nat) :
    initPageLoop map start left n =
      if start ≤ n ∧ n < start + left then n + 1 else map n := by
  induction left generalizing map start with
  | zero => rw [initPageLoop, if_neg (by omega)]
  | succ left ih =>
      rw [initPageLoop, ih]
      by_cases he : n = start
      · subst he
        rw [if_neg (by omega), if_pos (by omega), Function.update_self]
      · rw [Function.update_of_ne he]
        by_cases hin : start ≤ n ∧ n < start + (left + 1)
        · rw [if_pos hin, if_pos (by omega)]
        · rw [if_neg hin, if_neg (by omega)]

theorem chain_range' {map : Nat → Nat} (a k : Nat) (h : ∀ n, a ≤ n → n < a + k → map n = n + 1) :
    Chain map a (List.range' a k) (a + k) := by
  induction k generalizing a with
  | zero => rfl
  | succ k ih =>
      refine ⟨rfl, ?_⟩
      rw [h a (by omega) (by omega), show a + (k + 1) = a + 1 + k by omega]
      exact ih (a + 1) fun n hl hh ↦ h n (by omega) (by omega)

/-- A run of pages that are linked one after the other. -/
theorem freeList_range' {a k : Nat} (hf : s.firstFreepage = a) (hl : s.lastPage = a + k)
    (hlink : ∀ n, a ≤ n → n < a + k → s.pageMap n = n + 1) (hs : s.pageMap (a + k) = noPage)
    (ht : ∀ n < a, s.pageMap n = 0) (hb : a + k < 2 ^ 52) : FreeList s (List.range' a k) := by
  refine ⟨⟨?_, ?_⟩, hl ▸ hs, fun n hn hm ↦ ?_, hl ▸ hb⟩
  · rw [hf, hl]
    exact chain_range' a k hlink
  · rw [hl, List.pairwise_append]
    refine ⟨List.pairwise_lt_range', List.pairwise_singleton _ _, fun n hn m hm ↦ ?_⟩
    rw [List.mem_singleton.mp hm]
    exact (List.mem_range'_1.mp hn).2
  · rw [List.mem_range'_1] at hm
    exact ht n (by omega)

theorem freeList_initPage {size : Nat} (hf : s.firstFreepage = 0) (hl : s.lastPage = size)
    (hb : size < 2 ^ 52) : FreeList (s.initPage size).2 (List.range size) := by
  rw [List.range_eq_range']
  refine freeList_range' hf (by rw [Nat.zero_add]; exact hl) (fun n _ hn ↦ ?_) ?_
    (fun n hn ↦ absurd hn (Nat.not_lt_zero n)) (by omega)
  · rw [initPage]
    dsimp only
    rw [Function.update_of_ne (by omega), initPageLoop_apply, if_pos (by omega)]
  · rw [Nat.zero_add]
    exact Function.update_self _ _ _

/-! ## Returning a page -/

theorem setPageSearch_eq {pageMap : Nat → Nat} {index p : Nat} (hstop : index ≤ pageMap p) :
    ∀ left a, a ≤ p → p < a + left → (∀ n, a ≤ n → n < p → pageMap n < index) →
      setPageSearch pageMap index left a = some p := by
  intro left
  induction left with
  | zero => intro a hap hpl; omega
  | succ left ih =>
      intro a hap hpl hlow
      by_cases he : a = p
      · subst he
        rw [setPageSearch, if_neg (by omega)]
      · rw [setPageSearch, if_pos (hlow a le_rfl (by omega))]
        exact ih (a + 1) (by omega) (by omega) fun n hn hnp ↦ hlow n (by omega) hnp

/-- The search stops at the last page of the free list below the place it looks for: free pages
before `p` link to pages at or below `p`, and pages in use hold 0. -/
theorem FreeList.search {index p : Nat} {l₁ l₂ : List Nat} (h : FreeList s l)
    (hsplit : l = l₁ ++ p :: l₂) (hp : p < index) (hpn : index ≤ s.pageMap p)
    (hle : ∀ n ∈ l₁, s.pageMap n ≤ p) :
    setPageSearch s.pageMap index (s.lastPage + 1 - s.firstFreepage) s.firstFreepage = some p := by
  have hpl : p ∈ l := by simp [hsplit]
  have hpz : p < s.lastPage := h.ascending.lt_end hpl
  have hfp : s.firstFreepage ≤ p := h.ascending.start_le (List.mem_append_left _ hpl)
  refine setPageSearch_eq hpn _ _ hfp (by omega) fun n hfn hnp ↦ ?_
  by_cases hn : n ∈ l
  · have hn₁ : n ∈ l₁ := by
      rw [hsplit, List.mem_append] at hn
      refine hn.resolve_right fun hm ↦ ?_
      have hs := h.ascending.sorted
      rw [hsplit, List.append_assoc, List.pairwise_append, List.cons_append,
        List.pairwise_cons] at hs
      rcases List.mem_cons.mp hm with rfl | hm
      · exact hnp.false
      · exact (hnp.trans (hs.2.1.1 n (List.mem_append_left _ hm))).false
    exact (hle n hn₁).trans_lt hp
  · rw [h.taken n (by omega) hn]
    omega

/-- Returning a page that is not free finds its place inside the array and adds it to the list. -/
theorem FreeList.setPage {index : Nat} (h : FreeList s l) (hi : index < s.lastPage)
    (hl : index ∉ l) : ∃ s' l', s.setPage index = some s' ∧ FreeList s' l' ∧
      s'.lastPage = s.lastPage ∧ ∀ n, n ∈ l' ↔ n = index ∨ n ∈ l := by
  rcases lt_trichotomy index s.firstFreepage with hlt | he | hgt
  · refine ⟨_, index :: l, if_pos hlt, ⟨h.ascending.push hlt, ?_, ?_, h.bound⟩, rfl, by simp⟩
    · exact (Function.update_of_ne hi.ne' _ _).trans h.sentinel
    · intro n hn hnl
      rw [List.mem_cons, not_or] at hnl
      exact (Function.update_of_ne hnl.1 _ _).trans (h.taken n hn hnl.2)
  · -- `firstFreepage` is on the list, or it is the sentinel
    have hm := h.ascending.start_mem
    rw [← he, List.mem_append, List.mem_singleton] at hm
    exact absurd hm (not_or.mpr ⟨hl, hi.ne⟩)
  · -- the page goes between `p` and what follows it
    obtain ⟨l₁, p, l₂, hsplit, hp, hple, hle⟩ := h.ascending.split hgt hi.le
    have hpl : p ∈ l := by simp [hsplit]
    have hpz : p < s.lastPage := h.ascending.lt_end hpl
    have hsearch := h.search hsplit hp hple hle
    have hpn : index < s.pageMap p := by
      refine lt_of_le_of_ne hple fun he ↦ ?_
      have hm := h.ascending.chain.next_mem hpl
      rw [← he, List.mem_append, List.mem_singleton] at hm
      exact hm.elim (fun hm ↦ hl (List.mem_of_mem_tail hm)) hi.ne
    refine ⟨{ s with pageMap :=
        Function.update (Function.update s.pageMap p index) index (s.pageMap p) },
      l₁ ++ p :: index :: l₂, ?_, ⟨?_, ?_, ?_, h.bound⟩, rfl, ?_⟩
    · rw [PageAlloc.setPage, if_neg (by omega), if_pos hgt, hsearch, Option.map_some]
    · have ha := h.ascending
      rw [hsplit] at ha hl
      exact ha.insert hl hp hpn
    · change Function.update (Function.update s.pageMap p index) index (s.pageMap p) s.lastPage = _
      rw [Function.update_of_ne hi.ne', Function.update_of_ne hpz.ne', h.sentinel]
    · intro n hn hnl
      simp only [List.mem_append, List.mem_cons, not_or] at hnl
      change Function.update (Function.update s.pageMap p index) index (s.pageMap p) n = 0
      rw [Function.update_of_ne hnl.2.2.1, Function.update_of_ne hnl.2.1]
      exact h.taken n hn (by simp [hsplit, hnl])
    · intro n
      simp only [hsplit, List.mem_append, List.mem_cons]
      tauto

theorem setPage_firstFreepage (s : PageAlloc) : s.setPage s.firstFreepage = some s := by
  rw [PageAlloc.setPage, if_neg (lt_irrefl _), if_neg (lt_irrefl _)]

/-- Returning an inner page of the free list finds the page itself behind its predecessor, and
links it to itself. -/
theorem FreeList.setPage_inner {index : Nat} (h : FreeList s l) (hl : index ∈ l)
    (hne : index ≠ s.firstFreepage) : s.setPage index =
      some { s with pageMap := Function.update s.pageMap index index } := by
  have hgt : s.firstFreepage < index :=
    lt_of_le_of_ne (h.ascending.start_le (List.mem_append_left _ hl)) hne.symm
  obtain ⟨l₁, p, l₂, hsplit, hp, hple, hle⟩ :=
    h.ascending.split hgt (h.ascending.lt_end hl).le
  have hpl : p ∈ l := by simp [hsplit]
  have hnext : s.pageMap p = index := (h.ascending.next_le_of_lt hpl hl hp).antisymm hple
  rw [PageAlloc.setPage, if_neg (by omega), if_pos hgt, h.search hsplit hp hple hle,
    Option.map_some]
  have hlink : Function.update s.pageMap p index = s.pageMap := by
    rw [← hnext, Function.update_eq_self]
  dsimp only
  rw [hlink, hnext]

end Sbunix
