import Sbunix.Sys.DirectMap

/-!
# The pages of the kernel's image (`kernmemMap`)

The loop of `kernmemMap` takes the index of each page in the last table anew, and stays with the table
that belongs to the first page.  Behind 512 pages it starts over in the same table.
-/

namespace Sbunix

open Reasoning

variable {s : Machine} {mem mem' mem₀ : Memory} {a b c d t u g j n fuel physbase : Nat}
  {i k : Fin 512} {free : List Nat}

/-! ## One table a level -/

theorem Hung.entry_self (hm : Hung mem mem' t i g 3) (hg : 4096 ∣ g) (hlt : g < kernBase) :
    entry mem' t i = g ||| 3 := by
  rw [hm.writes, entry_store64_self]
  rw [or_low (n := 12) hg (by decide)]
  simp only [kernBase] at hlt
  omega

theorem Hung.entry_keep (hm : Hung mem mem' t i g 3) (ht : 4096 ∣ t) (hg : 4096 ∣ g) (hu : 4096 ∣ u)
    (hug : u ≠ g) (hne : (u, k) ≠ (t, i)) : entry mem' u k = entry mem u k := by
  rw [hm.writes, entry_store64_of_ne ht hu hne, entry_fill_of_ne hg hu hug]

/-- The tables of the image lead from page `a` down to page `d`. -/
structure ImageTables (a b c d : Nat) (mem : Memory) : Prop where
  order : a < b ∧ b < c ∧ c < d
  bound : d * 4096 < kernBase
  top : entry mem (a * 4096) (getIndex kernmem 39) = b * 4096 ||| 3
  directories : entry mem (b * 4096) (getIndex kernmem 30) = c * 4096 ||| 3
  tables : entry mem (c * 4096) (getIndex kernmem 21) = d * 4096 ||| 3

/-- `kernmemMap` up to its loop. -/
theorem kernmemMap_tables (h : FreeList s.alloc (a :: b :: c :: d :: free))
    (hd : d * 4096 < kernBase) : ∃ s', ImageTables a b c d s'.mem ∧
      ∀ fuel physbase physfree, s.kernmemMap fuel physbase physfree =
        (Machine.kernmemLoop (d * 4096) physfree fuel kernmem physbase s').map
          fun s ↦ (a * 4096, s) := by
  have hsorted := h.ascending.sorted
  simp only [List.cons_append, List.pairwise_cons, List.forall_mem_cons] at hsorted
  obtain ⟨⟨hab, hac, had, -⟩, ⟨hbc, hbd, -⟩, ⟨hcd, -⟩, -⟩ := hsorted
  have hlt : a * 4096 < kernBase ∧ b * 4096 < kernBase ∧ c * 4096 < kernBase := by
    simp only [kernBase] at hd ⊢
    omega
  obtain ⟨ha, hf, -, -⟩ := allocatePage_spec h
  -- the top-level table is cleared before the others are taken
  obtain ⟨s₀, hs₀⟩ : ∃ s₀, s.allocatePage.2.memset (a * 4096) 0 4096 = s₀ := ⟨_, rfl⟩
  have hf₀ : FreeList s₀.alloc (b :: c :: d :: free) := by
    rw [← hs₀]
    exact hf
  obtain ⟨hb, hf₁, hm₁⟩ := tableAlloc_phys (i := getIndex kernmem 39) hf₀ hlt.2.1 hlt.1
  obtain ⟨hc, hf₂, hm₂⟩ := tableAlloc_phys (i := getIndex kernmem 30) hf₁ hlt.2.2 hlt.2.1
  obtain ⟨hd', -, hm₃⟩ := tableAlloc_phys (i := getIndex kernmem 21) hf₂ hd hlt.2.2
  have hdvd : ∀ n, 4096 ∣ n * 4096 := fun n ↦ Nat.dvd_mul_left _ _
  refine ⟨_, ⟨⟨hab, hbc, hcd⟩, hd, ?_, ?_, hm₃.entry_self (hdvd d) hd⟩, fun fuel physbase physfree ↦ ?_⟩
  · -- the tables that are taken later are other pages
    rw [hm₃.entry_keep (hdvd c) (hdvd d) (hdvd a) (by omega) (by simp; omega),
      hm₂.entry_keep (hdvd b) (hdvd c) (hdvd a) (by omega) (by simp; omega)]
    exact hm₁.entry_self (hdvd b) hlt.2.1
  · rw [hm₃.entry_keep (hdvd c) (hdvd d) (hdvd b) (by omega) (by simp; omega)]
    exact hm₂.entry_self (hdvd c) hlt.2.2
  · rw [Machine.kernmemMap]
    dsimp only
    rw [ha, hs₀]
    simp only [Machine.pdpeAlloc, Machine.pdeAlloc, Machine.pteAlloc, hb, hc, hd']

/-! ## The loop -/

/-- The last of the pages before `j` that has the index `i` in the table. -/
def lastWrite (j i : Nat) : Nat := j - 1 - (j - 1 - i) % 512

/-- The first `j` pages have been mapped from `physbase` on. -/
structure ImageUpTo (mem₀ : Memory) (d physbase j : Nat) (mem : Memory) : Prop where
  table : ∀ i : Fin 512, i.val < j → entry mem d i = (physbase + 4096 * lastWrite j i) ||| 3
  others : ∀ t i, 4096 ∣ t → t ≠ d → entry mem t i = entry mem₀ t i

theorem index_image : (getIndex ((kernmem + 4096 * j) % 2 ^ 64) 12).val = j % 512 := by
  rw [getIndex_val]
  simp only [kernmem]
  omega

theorem ImageUpTo.step (h : ImageUpTo mem₀ d physbase j s.mem) (hd : d < kernBase) (hd' : 4096 ∣ d)
    (hp : physbase + 4096 * j < 2 ^ 64) : ImageUpTo mem₀ d physbase (j + 1) (s.writeEntry d
      (getIndex ((kernmem + 4096 * j) % 2 ^ 64) 12) (physbase + 4096 * j ||| (pBit ||| wBit))).mem := by
  have hidx := index_image (j := j)
  have he : physbase + 4096 * j ||| 3 < 2 ^ 64 := Nat.or_lt_two_pow hp (by decide)
  have hmem : ∀ i, (s.writeEntry d i (physbase + 4096 * j ||| (pBit ||| wBit))).mem =
      s.mem.store64 (d + 8 * i) (physbase + 4096 * j ||| 3) := fun i ↦ by
    rw [Machine.writeEntry, phys_eq hd]
    rfl
  rw [hmem]
  refine ⟨fun i hi ↦ ?_, fun t i ht htd ↦ ?_⟩
  · by_cases hij : i = getIndex ((kernmem + 4096 * j) % 2 ^ 64) 12
    · -- page `j` is the last one with its index
      have hlast : lastWrite (j + 1) i = j := by
        rw [lastWrite, hij, hidx]
        omega
      rw [hlast, hij, entry_store64_self he]
    · have hne : i.val ≠ j % 512 := fun hv ↦ hij (Fin.ext (hv.trans hidx.symm))
      have hlast : lastWrite (j + 1) i = lastWrite j i := by
        have := i.isLt
        unfold lastWrite
        omega
      rw [hlast, entry_store64_of_ne hd' hd' fun heq ↦ hij (Prod.mk.inj heq).2]
      exact h.table i (by omega)
  · rw [entry_store64_of_ne hd' ht fun heq ↦ htd (Prod.mk.inj heq).1]
    exact h.others t i ht htd

/-- The loop maps all of the pages, and none behind them. -/
theorem kernmemLoop_image (h : ImageUpTo mem₀ d physbase j s.mem) (hd : d < kernBase) (hd' : 4096 ∣ d)
    (hj : j ≤ n) (hp : physbase + 4096 * n < 2 ^ 64) (hfuel : n - j < fuel) : ∃ s',
      Machine.kernmemLoop d (physbase + 4096 * n) fuel ((kernmem + 4096 * j) % 2 ^ 64)
        (physbase + 4096 * j) s = some s' ∧ ImageUpTo mem₀ d physbase n s'.mem := by
  induction fuel generalizing s j with
  | zero => exact absurd hfuel (Nat.not_lt_zero _)
  | succ fuel ih =>
      rw [Machine.kernmemLoop]
      by_cases hlt : j < n
      · have hv : ((kernmem + 4096 * j) % 2 ^ 64 + 0x1000) % 2 ^ 64 =
            (kernmem + 4096 * (j + 1)) % 2 ^ 64 := by
          rw [Nat.mod_add_mod, Nat.mul_succ, Nat.add_assoc]
        have hnext : (physbase + 4096 * j + 0x1000) % 2 ^ 64 = physbase + 4096 * (j + 1) := by omega
        rw [if_pos (by omega), hv, hnext]
        exact ih (h.step hd hd' (by omega)) hlt (by omega)
      · obtain rfl : j = n := by omega
        rw [if_neg (Nat.lt_irrefl _)]
        exact ⟨s, rfl, h⟩

/-! ## What is translated -/

theorem tablePath_image (hj : j < 512) :
    tablePath ((kernmem + 4096 * j) % 2 ^ 64) = tablePath kernmem := by
  have hidx : ∀ k ∈ [39, 30, 21], getIndex ((kernmem + 4096 * j) % 2 ^ 64) k = getIndex kernmem k := by
    intro k hk
    refine Fin.ext ?_
    simp only [List.mem_cons, List.not_mem_nil, or_false] at hk
    rw [getIndex_val, getIndex_val]
    rcases hk with rfl | rfl | rfl <;> simp only [kernmem] <;> omega
  rw [tablePath, hidx 39 (by decide), hidx 30 (by decide), hidx 21 (by decide)]
  rfl

/-- The page with index `j` in the table, if any has it. -/
theorem image_pageAt (ht : ImageTables a b c d mem₀) (h : ImageUpTo mem₀ (d * 4096) physbase n mem)
    (hj : j < 512) (hjn : j < n) : pageAt allEntries mem (a * 4096)
      (pagePath ((kernmem + 4096 * j) % 2 ^ 64)) = some (physbase + 4096 * lastWrite n j ||| 3) := by
  have hdvd : ∀ n, 4096 ∣ n * 4096 := fun n ↦ Nat.dvd_mul_left _ _
  obtain ⟨hab, hbc, hcd⟩ := ht.order
  have hpage : ∀ u ≤ d, u * 4096 < 2 ^ 64 := fun u hu ↦
    ((Nat.mul_le_mul_right 4096 hu).trans_lt ht.bound).trans (by decide)
  have hdown : ∀ {k t u : Nat} {i : Fin 512}, entry mem (t * 4096) i = u * 4096 ||| 3 → u ≤ d →
      child allEntries mem k (t * 4096) i = some (u * 4096) := by
    intro k t u i he hu
    have hpres : Present (entry mem (t * 4096) i) := by
      rw [he]
      exact present_or_low _
    have hframe : frame (u * 4096 ||| 3) = u * 4096 := frame_or (hdvd u) (hpage u hu) (by decide)
    rw [child_of_present (fun _ ↦ rfl) hpres, he, hframe]
  -- the loop has left the three upper tables alone
  have hpath : tableAt allEntries mem (a * 4096) (tablePath kernmem) = some (d * 4096) := by
    rw [tableAt, tablePath, descend, hdown (u := b) ?_ (by omega), Option.bind_some, descend,
      hdown (u := c) ?_ (by omega), Option.bind_some, descend, hdown (u := d) ?_ (Nat.le_refl d),
      Option.bind_some, descend]
    · rw [h.others _ _ (hdvd c) (by omega)]
      exact ht.tables
    · rw [h.others _ _ (hdvd b) (by omega)]
      exact ht.directories
    · rw [h.others _ _ (hdvd a) (by omega)]
      exact ht.top
  have hidx := index_image (j := j)
  rw [Nat.mod_eq_of_lt hj] at hidx
  have hentry := h.table (getIndex ((kernmem + 4096 * j) % 2 ^ 64) 12) (by omega)
  rw [hidx] at hentry
  have hlen : (tablePath ((kernmem + 4096 * j) % 2 ^ 64)).length = 3 := rfl
  refine (leaf_eq_some hlen).mpr ⟨d * 4096, ?_, ?_⟩
  · rw [tablePath_image hj]
    exact hpath
  · rw [pageEntry, hentry, if_pos (present_or_low _)]

/-- Each page from `physbase` to `physfree` is at its place behind `&kernmem`. -/
def MapsImage (mem : Memory) (r physbase physfree : Nat) : Prop :=
  ∀ p, 4096 ∣ p → physbase ≤ p → p < physfree →
    (pageAt allEntries mem r (pagePath ((kernmem + (p - physbase)) % 2 ^ 64))).map frame = some p

theorem mapsImage_iff (ht : ImageTables a b c d mem₀)
    (h : ImageUpTo mem₀ (d * 4096) physbase n mem) (hb : 4096 ∣ physbase)
    (hp : physbase + 4096 * n < 2 ^ 64) :
    MapsImage mem (a * 4096) physbase (physbase + 4096 * n) ↔ n ≤ 512 := by
  have hmapped : ∀ j < 512, j < n → (pageAt allEntries mem (a * 4096)
      (pagePath ((kernmem + 4096 * j) % 2 ^ 64))).map frame =
        some (physbase + 4096 * lastWrite n j) := by
    intro j hj hjn
    have hlast : lastWrite n j < n := by
      unfold lastWrite
      omega
    rw [image_pageAt ht h hj hjn, Option.map_some,
      frame_or (Nat.dvd_add hb (Nat.dvd_mul_right _ _)) (by omega) (by decide)]
  constructor
  · intro hm
    by_contra hn
    -- page 512 or a later one has taken the place of the first page
    have hfirst := hm physbase hb (Nat.le_refl _) (by omega)
    rw [Nat.sub_self, show kernmem + 0 = kernmem + 4096 * 0 from rfl,
      hmapped 0 (by decide) (by omega)] at hfirst
    have hlast := Option.some.inj hfirst
    unfold lastWrite at hlast
    omega
  · intro hn p hpd hlow hhigh
    obtain ⟨j, rfl⟩ : ∃ j, p = physbase + 4096 * j := by
      obtain ⟨x, rfl⟩ := hpd
      obtain ⟨y, rfl⟩ := hb
      exact ⟨x - y, by omega⟩
    have hlast : lastWrite n j = j := by
      unfold lastWrite
      omega
    rw [Nat.add_sub_cancel_left, hmapped j (by omega) (by omega), hlast]

theorem kernmemMap_image (h : FreeList s.alloc (a :: b :: c :: d :: free)) (hd : d * 4096 < kernBase)
    (hb : 4096 ∣ physbase) (hp : physbase + 4096 * n < 2 ^ 64) (hfuel : n < fuel) : ∃ s',
      s.kernmemMap fuel physbase (physbase + 4096 * n) = some (a * 4096, s') ∧
        (MapsImage s'.mem (a * 4096) physbase (physbase + 4096 * n) ↔ n ≤ 512) := by
  obtain ⟨s₀, ht, hrun⟩ := kernmemMap_tables h hd
  have h₀ : ImageUpTo s₀.mem (d * 4096) physbase 0 s₀.mem :=
    ⟨fun i hi ↦ absurd hi (Nat.not_lt_zero _), fun _ _ _ _ ↦ rfl⟩
  obtain ⟨s', hs', h'⟩ := kernmemLoop_image h₀ hd (Nat.dvd_mul_left _ _) (Nat.zero_le n) hp hfuel
  have hstart : (kernmem + 4096 * 0) % 2 ^ 64 = kernmem := by decide
  rw [hstart, Nat.mul_zero, Nat.add_zero] at hs'
  exact ⟨s', by rw [hrun, hs']; rfl, mapsImage_iff ht h' hb hp⟩

/-- For every range of pages the image is at its place exactly if it has at most 2 MiB. -/
theorem kernmemMap_mapsImage_iff {physfree : Nat} (h : FreeList s.alloc (a :: b :: c :: d :: free))
    (hd : d * 4096 < kernBase) (hb : 4096 ∣ physbase) (hf : 4096 ∣ physfree)
    (hlt : physbase < physfree) (hmax : physfree < 2 ^ 64)
    (hfuel : (physfree - physbase) / 4096 < fuel) :
    (∃ r s', s.kernmemMap fuel physbase physfree = some (r, s') ∧
      MapsImage s'.mem r physbase physfree) ↔ physfree - physbase ≤ 0x200000 := by
  obtain ⟨n, rfl⟩ : ∃ n, physfree = physbase + 4096 * n := by
    obtain ⟨x, rfl⟩ := hf
    obtain ⟨y, rfl⟩ := hb
    exact ⟨x - y, by omega⟩
  rw [Nat.add_sub_cancel_left, Nat.mul_div_cancel_left n (by decide)] at hfuel
  rw [Nat.add_sub_cancel_left]
  obtain ⟨s', hs', hiff⟩ := kernmemMap_image h hd hb hmax hfuel
  constructor
  · rintro ⟨r, s'', hs'', hm⟩
    obtain ⟨rfl, rfl⟩ := Prod.mk.inj (Option.some.inj (hs'.symm.trans hs''))
    have := hiff.mp hm
    omega
  · intro hn
    exact ⟨_, s', hs', hiff.mpr (by omega)⟩

theorem freeMachine_four : FreeList (freeMachine 0x800 0x804).alloc [0x800, 0x801, 0x802, 0x803] :=
  freeMachine_freeList (show 0x800 + 4 < 2 ^ 52 by decide)

theorem kernmemMap_mapsImage_small : (∃ r s',
    (freeMachine 0x800 0x804).kernmemMap 0x400 0x200000 0x230000 = some (r, s') ∧
      MapsImage s'.mem r 0x200000 0x230000) ↔ 0x230000 - 0x200000 ≤ 0x200000 :=
  kernmemMap_mapsImage_iff freeMachine_four (by decide) (by decide) (by decide) (by decide)
    (by decide) (by decide)

/-- An image of 513 pages loses its first page. -/
theorem not_mapsImage_large : ¬ ∃ r s',
    (freeMachine 0x800 0x804).kernmemMap 0x400 0x200000 0x401000 = some (r, s') ∧
      MapsImage s'.mem r 0x200000 0x401000 := by
  have hb : 4096 ∣ 0x200000 := by decide
  have hp : 0x200000 + 4096 * 513 < 2 ^ 64 := by decide
  have hfuel : 513 < 0x400 := by decide
  obtain ⟨s', hs', hiff⟩ := kernmemMap_image freeMachine_four (by decide) hb hp hfuel
  rintro ⟨r, s'', hs'', hm⟩
  obtain ⟨rfl, rfl⟩ := Prod.mk.inj (Option.some.inj (hs'.symm.trans hs''))
  exact absurd (hiff.mp hm) (by decide)

end Sbunix
