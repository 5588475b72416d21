import Sbunix.Sys.Page

/-!
# The free pages at boot (`init_pageTable`)

The allocator's table is placed behind the kernel image.  All pages up to its end are taken off the
list again, and those in front of the image are put back.
-/

namespace Sbunix

open Reasoning PageAlloc

namespace PageAlloc

/-- `n` calls of `unsetPage`. -/
def unsetPages : Nat → PageAlloc → PageAlloc
  | 0, s => s
  | n + 1, s => unsetPages n s.unsetPage.2

/-- `for (i = index; i < index + left; i++) setPage(i)`. -/
def setPages (index : Nat) : Nat → PageAlloc → Option PageAlloc
  | 0, s => some s
  | left + 1, s => (s.setPage index).bind (setPages (index + 1) left)

/-- `init_pageTable(physbase, physfree, base, max_length)`; the first component is the address it
returns. -/
def initPageTable (s : PageAlloc) (physbase physfree base maxLength : Nat) :
    Option (Nat × PageAlloc) :=
  let lastPage := maxLength / 4096
  let (physfree, s) := { s with lastPage := lastPage, base := physfree }.initPage lastPage
  let physfree := (physfree / 0x1000 + 1) * 0x1000
  let s := unsetPages (physfree / 4096) { s with firstFreepage := 0 }
  (setPages (base / 4096) (physbase / 4096 - base / 4096) s).map fun s ↦ (physfree, s)

/-- One of the calls of `unsetPage` from here on returns page `n`. -/
def HandsOut (s : PageAlloc) (n : Nat) : Prop :=
  ∃ calls, (unsetPages calls s).unsetPage.1 = n ∧ n ≠ noPage

end PageAlloc

variable {s s' : PageAlloc} {l : List Nat} {n : Nat}

theorem FreeList.unsetPages (h : FreeList s l) (n : Nat) :
    FreeList (unsetPages n s) (l.drop n) ∧ (PageAlloc.unsetPages n s).lastPage = s.lastPage := by
  induction n generalizing s l with
  | zero => exact ⟨h, rfl⟩
  | succ n ih =>
      cases l with
      | nil =>
          rw [PageAlloc.unsetPages, unsetPage_nil h]
          have := ih h
          rwa [List.drop_nil] at this ⊢
      | cons m l =>
          obtain ⟨hf, hl⟩ := ih h.unsetPage
          exact ⟨hf, hl.trans (unsetPage_lastPage s)⟩

/-- The pages that are handed out are those on the free list. -/
theorem FreeList.handsOut_iff (h : FreeList s l) : s.HandsOut n ↔ n ∈ l := by
  constructor
  · rintro ⟨calls, hn, hne⟩
    have hc := (h.unsetPages calls).1
    cases hd : l.drop calls with
    | nil =>
        rw [hd] at hc
        rw [unsetPage_nil hc] at hn
        exact absurd hn.symm hne
    | cons m t =>
        rw [hd] at hc
        rw [unsetPage_cons hc] at hn
        refine List.mem_of_mem_drop (i := calls) ?_
        rw [hd, ← hn]
        exact List.mem_cons_self
  · intro hn
    obtain ⟨i, hi, rfl⟩ := List.mem_iff_getElem.mp hn
    have hc := (h.unsetPages i).1
    rw [List.drop_eq_getElem_cons hi] at hc
    refine ⟨i, by rw [unsetPage_cons hc], ?_⟩
    have hlt := h.ascending.lt_end hn
    have hb := h.bound
    simp only [noPage]
    omega

/-- Putting back a run of pages that are not free. -/
theorem FreeList.setPages (h : FreeList s l) (index left : Nat)
    (hi : left = 0 ∨ index + left ≤ s.lastPage)
    (hl : ∀ m, index ≤ m → m < index + left → m ∉ l) :
    ∃ s' l', PageAlloc.setPages index left s = some s' ∧ FreeList s' l' ∧
      s'.lastPage = s.lastPage ∧ ∀ m, m ∈ l' ↔ (index ≤ m ∧ m < index + left) ∨ m ∈ l := by
  induction left generalizing index s l with
  | zero =>
      refine ⟨s, l, rfl, h, rfl, fun m ↦ ?_⟩
      rw [or_iff_right (by omega)]
  | succ left ih =>
      -- the first page, and then those behind it
      obtain ⟨s₁, l₁, hs₁, hf₁, hlast₁, hmem₁⟩ :=
        h.setPage (by omega) (hl index (Nat.le_refl _) (by omega))
      obtain ⟨s₂, l₂, hs₂, hf₂, hlast₂, hmem₂⟩ := ih hf₁ (index + 1) (by rw [hlast₁]; omega)
        fun m hm hm' hin ↦ by
          rcases (hmem₁ m).mp hin with rfl | hin
          · omega
          · exact hl m (by omega) (by omega) hin
      refine ⟨s₂, l₂, ?_, hf₂, hlast₂.trans hlast₁, fun m ↦ ?_⟩
      · rw [PageAlloc.setPages, hs₁, Option.bind_some, hs₂]
      · rw [hmem₂, hmem₁]
        by_cases hmi : m = index
        · subst hmi
          simp
        · have : (index + 1 ≤ m ∧ m < index + 1 + left) ↔ index ≤ m ∧ m < index + (left + 1) := by
            omega
          rw [this]
          tauto

/-- The address that `init_pageTable` returns, behind its table. -/
def tableEnd (physfree limit : Nat) : Nat := ((physfree + 8 * (limit / 4096)) / 0x1000 + 1) * 0x1000

theorem initPageTable_drained (s : PageAlloc) (physbase physfree base : Nat) {limit : Nat}
    (hl : limit < 2 ^ 64) :
    ∃ s₁, FreeList s₁ ((List.range (limit / 4096)).drop (tableEnd physfree limit / 4096)) ∧
      s₁.lastPage = limit / 4096 ∧ s.initPageTable physbase physfree base limit =
        (PageAlloc.setPages (base / 4096) (physbase / 4096 - base / 4096) s₁).map fun s ↦
          (tableEnd physfree limit, s) := by
  set s₀ : PageAlloc := { s with lastPage := limit / 4096, base := physfree, firstFreepage := 0 }
  have hf₀ : FreeList (s₀.initPage (limit / 4096)).2 (List.range (limit / 4096)) :=
    freeList_initPage rfl rfl (by omega)
  obtain ⟨hf₁, hlast₁⟩ := hf₀.unsetPages (tableEnd physfree limit / 4096)
  exact ⟨_, hf₁, hlast₁, rfl⟩

/-- The free list after `init_pageTable`, unless the image lies above the limit. -/
theorem initPageTable_freeList (s : PageAlloc) (base : Nat) {physbase physfree limit : Nat}
    (hp : physbase ≤ physfree) (hl : limit < 2 ^ 64) (hfit : physbase / 4096 ≤ limit / 4096) :
    ∃ s' l, s.initPageTable physbase physfree base limit = some (tableEnd physfree limit, s') ∧
      FreeList s' l ∧ ∀ n, n ∈ l ↔ (base / 4096 ≤ n ∧ n < physbase / 4096) ∨
        (tableEnd physfree limit / 4096 ≤ n ∧ n < limit / 4096) := by
  obtain ⟨s₁, hf₁, hlast₁, hs₁⟩ := initPageTable_drained s physbase physfree base hl
  have hmem₁ : ∀ n, n ∈ (List.range (limit / 4096)).drop (tableEnd physfree limit / 4096) ↔
      tableEnd physfree limit / 4096 ≤ n ∧ n < limit / 4096 := by
    intro n
    rw [List.range_eq_range', List.drop_range', List.mem_range'_1]
    omega
  have hend : physbase / 4096 < tableEnd physfree limit / 4096 := by
    rw [tableEnd]
    omega
  obtain ⟨s₂, l₂, hs₂, hf₂, -, hmem₂⟩ := hf₁.setPages (base / 4096)
    (physbase / 4096 - base / 4096) (by omega) fun m hm hm' hin ↦ by
      have := (hmem₁ m).mp hin
      omega
  refine ⟨s₂, l₂, by rw [hs₁, hs₂]; rfl, hf₂, fun n ↦ ?_⟩
  rw [hmem₂, hmem₁]
  omega

/-! ## An image above the limit -/

theorem setPages_add (index a b : Nat) (s : PageAlloc) :
    PageAlloc.setPages index (a + b) s =
      (PageAlloc.setPages index a s).bind (PageAlloc.setPages (index + a) b) := by
  induction a generalizing index s with
  | zero => rw [Nat.zero_add]; rfl
  | succ a ih =>
      rw [Nat.succ_add, PageAlloc.setPages, PageAlloc.setPages]
      cases s.setPage index with
      | none => rfl
      | some s' =>
          rw [Option.bind_some, Option.bind_some, ih, Nat.add_assoc, Nat.add_comm 1 a]

theorem setPageSearch_some {pageMap : Nat → Nat} {index left a x : Nat}
    (h : setPageSearch pageMap index left a = some x) :
    a ≤ x ∧ index ≤ pageMap x ∧ ∀ n, a ≤ n → n < x → pageMap n < index := by
  induction left generalizing a with
  | zero => cases h
  | succ left ih =>
      rw [setPageSearch] at h
      split at h
      · rename_i hlt
        obtain ⟨hle, hx, hlow⟩ := ih h
        refine ⟨by omega, hx, fun n hn hnx ↦ ?_⟩
        rcases Nat.eq_or_lt_of_le hn with rfl | hn
        · exact hlt
        · exact hlow n hn hnx
      · rename_i hge
        obtain rfl := Option.some.inj h
        exact ⟨Nat.le_refl _, Nat.le_of_not_lt hge, fun n hn hnx ↦ by omega⟩

theorem setPageSearch_none {pageMap : Nat → Nat} {index left a : Nat}
    (h : ∀ n, a ≤ n → n < a + left → pageMap n < index) :
    setPageSearch pageMap index left a = none := by
  induction left generalizing a with
  | zero => rfl
  | succ left ih =>
      rw [setPageSearch, if_pos (h a (Nat.le_refl a) (by omega))]
      exact ih fun n hn hn' ↦ h n (by omega) (by omega)

/-- With pages on the list, returning the sentinel's number makes it its own successor, and the next
search runs out of the array. -/
theorem FreeList.setPage_last (h : FreeList s l) (hne : l ≠ []) (hs : s.setPage s.lastPage = some s') :
    s'.setPage (s.lastPage + 1) = none := by
  obtain ⟨t, p, rfl⟩ := (List.eq_nil_or_concat' l).resolve_left hne
  have hp : s.pageMap p = s.lastPage := by
    obtain ⟨b, -, rfl, hc⟩ := chain_append.mp h.ascending.chain
    exact hc
  have hpm : p ∈ t ++ [p] := List.mem_append_right t (List.mem_singleton_self p)
  have hpz : p < s.lastPage := h.ascending.lt_end hpm
  have hfp : s.firstFreepage ≤ p := h.ascending.start_le (List.mem_append_left _ hpm)
  have hval : ∀ n < s.lastPage, s.pageMap n ≤ s.lastPage := by
    intro n hn
    by_cases hm : n ∈ t ++ [p]
    · exact h.ascending.next_le hm
    · rw [h.taken n hn hm]
      omega
  rw [PageAlloc.setPage, if_neg (by omega), if_pos (by omega), Option.map_eq_some_iff] at hs
  obtain ⟨a, ha, rfl⟩ := hs
  obtain ⟨hle, hax, hlow⟩ := setPageSearch_some ha
  -- the search stops at the last page of the list at the latest
  have hap : a ≤ p := by
    by_contra hlt
    have := hlow p hfp (by omega)
    omega
  rw [PageAlloc.setPage]
  dsimp only
  rw [if_neg (by omega), if_pos (by omega), Option.map_eq_none_iff]
  -- no word of the array is above the sentinel's number any more
  refine setPageSearch_none fun n hn hn' ↦ ?_
  by_cases hnl : n = s.lastPage
  · rw [hnl, Function.update_self]
    have := hval a (by omega)
    omega
  · rw [Function.update_of_ne hnl]
    by_cases hna : n = a
    · rw [hna, Function.update_self]
      omega
    · rw [Function.update_of_ne hna]
      have := hval n (by omega)
      omega

/-- What becomes of an image that lies more than a page above the limit: the boot code leaves the
array, or it hands out the page of the limit. -/
theorem initPageTable_above {physbase physfree base limit : Nat} {r : Nat × PageAlloc}
    (hp : physbase ≤ physfree) (hl : limit < 2 ^ 64) (hb : base ≤ limit)
    (ha : limit / 4096 + 2 ≤ physbase / 4096)
    (hr : s.initPageTable physbase physfree base limit = some r) :
    base / 4096 = limit / 4096 ∧ r.2.HandsOut (limit / 4096) := by
  obtain ⟨s₁, hf₁, hlast₁, hs₁⟩ := initPageTable_drained s physbase physfree base hl
  have hnil : (List.range (limit / 4096)).drop (tableEnd physfree limit / 4096) = [] := by
    rw [List.drop_eq_nil_iff, List.length_range, tableEnd]
    omega
  rw [hnil] at hf₁
  rw [hs₁, Option.map_eq_some_iff] at hr
  obtain ⟨s', hs', rfl⟩ := hr
  obtain ⟨c, hc⟩ : ∃ c, physbase / 4096 - base / 4096 = limit / 4096 - base / 4096 + (2 + c) :=
    ⟨physbase / 4096 - limit / 4096 - 2, by omega⟩
  obtain ⟨s₂, l₂, hs₂, hf₂, hlast₂, hmem₂⟩ := hf₁.setPages (base / 4096)
    (limit / 4096 - base / 4096) (by omega) fun m _ _ hin ↦ absurd hin List.not_mem_nil
  rw [hc, setPages_add, hs₂, Option.bind_some,
    show base / 4096 + (limit / 4096 - base / 4096) = s₂.lastPage by omega,
    show 2 + c = (c + 1) + 1 by omega, PageAlloc.setPages, Option.bind_eq_some_iff] at hs'
  obtain ⟨s₃, hs₃, hs'⟩ := hs'
  rw [PageAlloc.setPages, Option.bind_eq_some_iff] at hs'
  obtain ⟨s₄, hs₄, hs'⟩ := hs'
  by_cases hbl : base / 4096 = limit / 4096
  · refine ⟨hbl, ?_⟩
    have hnil₂ : l₂ = [] := List.eq_nil_iff_forall_not_mem.mpr fun m hm ↦
      ((hmem₂ m).mp hm).elim (fun h ↦ by omega) List.not_mem_nil
    rw [hnil₂] at hf₂
    have hfirst : s₂.firstFreepage = s₂.lastPage := AscendingChain.nil_iff.mp hf₂.ascending
    obtain rfl : s₂ = s₃ := by
      rw [PageAlloc.setPage, if_neg (by omega), if_neg (by omega)] at hs₃
      exact Option.some.inj hs₃
    have hb₂ := hf₂.bound
    have hlt : s₂.lastPage + 1 < noPage := by
      simp only [noPage]
      omega
    -- the search stops at the sentinel, which moves out of the array
    rw [PageAlloc.setPage, if_neg (by omega), if_pos (by omega), hfirst,
      show s₂.lastPage + 1 - s₂.lastPage = 1 by omega, setPageSearch,
      if_neg (by rw [hf₂.sentinel]; omega), Option.map_some] at hs₄
    have hs₄ := (Option.some.inj hs₄).symm
    have hfirst₄ : s₄.firstFreepage = s₂.lastPage := by rw [hs₄]
    have hlast₄ : s₄.lastPage = s₂.lastPage := by rw [hs₄]
    have hmap₄ : s₄.pageMap s₂.lastPage = s₂.lastPage + 1 := by
      rw [hs₄]
      dsimp only
      rw [Function.update_of_ne (by omega), Function.update_self]
    cases c with
    | zero =>
        obtain rfl : s₄ = s' := Option.some.inj hs'
        have he : limit / 4096 = s₂.lastPage := by omega
        refine ⟨0, ?_, by omega⟩
        change s₄.unsetPage.1 = limit / 4096
        rw [PageAlloc.unsetPage, hfirst₄, hmap₄, if_neg hlt.ne, he]
    | succ c =>
        rw [PageAlloc.setPages, Option.bind_eq_some_iff] at hs'
        obtain ⟨s₅, hs₅, -⟩ := hs'
        rw [PageAlloc.setPage, if_neg (by omega), if_pos (by omega), hfirst₄, hlast₄,
          show s₂.lastPage + 1 - s₂.lastPage = 1 by omega, setPageSearch,
          if_pos (by rw [hmap₄]; omega), setPageSearch, Option.map_none] at hs₅
        cases hs₅
  · have hne : l₂ ≠ [] := by
      rintro rfl
      exact List.not_mem_nil ((hmem₂ (base / 4096)).mpr (.inl (by omega)))
    rw [hf₂.setPage_last hne hs₃] at hs₄
    cases hs₄

/-- Page `n` holds a byte of `[a, b)`. -/
def PageMeets (n a b : Nat) : Prop := n * 4096 < b ∧ a < n * 4096 + 4096

/-- The pages that are handed out after `init_pageTable`: none holds a byte of the image, nor of the
entries of the table.  The last entry, the sentinel, is inside as well if the table is aligned as an
array of words. -/
theorem initPageTable_handsOut (s : PageAlloc) (base physbase physfree limit : Nat) (hpb : 4096 ∣ physbase)
    (hp : physbase ≤ physfree) (hl : limit < 2 ^ 64) (hr : tableEnd physfree limit ≤ limit) :
    ∃ s', s.initPageTable physbase physfree base limit = some (tableEnd physfree limit, s') ∧
      (∀ n, s'.HandsOut n ↔ (base / 4096 ≤ n ∧ n < physbase / 4096) ∨
        (tableEnd physfree limit / 4096 ≤ n ∧ n < limit / 4096)) ∧
      ∀ n, s'.HandsOut n → ¬ PageMeets n physbase physfree ∧
        (∀ i < limit / 4096, ¬ PageMeets n (physfree + 8 * i) (physfree + 8 * i + 8)) ∧
        (8 ∣ physfree → ¬ PageMeets n (physfree + 8 * (limit / 4096))
          (physfree + 8 * (limit / 4096) + 8)) := by
  have hend : physfree + 8 * (limit / 4096) < tableEnd physfree limit := by
    rw [tableEnd]
    omega
  obtain ⟨s', l, hs', hf, hmem⟩ := initPageTable_freeList s base hp hl (by omega)
  refine ⟨s', hs', fun n ↦ hf.handsOut_iff.trans (hmem n), fun n hn ↦ ?_⟩
  have hlow : n * 4096 + 4096 ≤ physbase ∨ tableEnd physfree limit ≤ n * 4096 := by
    have hd : tableEnd physfree limit / 4096 * 4096 = tableEnd physfree limit := by
      rw [tableEnd, Nat.mul_div_cancel _ (by decide)]
    rcases (hmem n).mp (hf.handsOut_iff.mp hn) with ⟨-, hn⟩ | ⟨hn, -⟩ <;> omega
  refine ⟨fun hm ↦ ?_, fun i hi hm ↦ ?_, fun h8 hm ↦ ?_⟩
  · have := hm.1
    have := hm.2
    omega
  · have := hm.1
    have := hm.2
    omega
  · have hs : physfree + 8 * (limit / 4096) + 8 ≤ tableEnd physfree limit := by
      rw [tableEnd]
      omega
    have := hm.1
    have := hm.2
    omega

theorem initPageTable_handsOut_image :
    ∃ s', (⟨fun _ ↦ 0, 0, 0, 0⟩ : PageAlloc).initPageTable 0x200000 0x220000 0 0x400000 =
        some (0x223000, s') ∧ s'.HandsOut 0x223 ∧ ¬ s'.HandsOut 0x222 := by
  obtain ⟨s', hs', hiff, -⟩ := initPageTable_handsOut ⟨fun _ ↦ 0, 0, 0, 0⟩ 0 0x200000 0x220000 0x400000
    (by decide) (by decide) (by decide) (by decide)
  exact ⟨s', hs', (hiff _).mpr (by decide), fun h ↦ absurd ((hiff _).mp h) (by decide)⟩

/-- Behind an image that ends at an odd address the sentinel reaches into a page that is free. -/
theorem initPageTable_sentinel :
    ∃ s', (⟨fun _ ↦ 0, 0, 0, 0⟩ : PageAlloc).initPageTable 0x200000 0x200ffd 0 0x400000 =
        some (0x203000, s') ∧ s'.HandsOut 0x203 ∧
      PageMeets 0x203 (0x200ffd + 8 * (0x400000 / 4096)) (0x200ffd + 8 * (0x400000 / 4096) + 8) := by
  obtain ⟨s', l, hs', hf, hmem⟩ := initPageTable_freeList ⟨fun _ ↦ 0, 0, 0, 0⟩ 0
    (show 0x200000 ≤ 0x200ffd by decide) (show 0x400000 < 2 ^ 64 by decide) (by decide)
  refine ⟨s', hs', hf.handsOut_iff.mpr ((hmem _).mpr (by decide)), ?_⟩
  exact ⟨by decide, by decide⟩

end Sbunix
