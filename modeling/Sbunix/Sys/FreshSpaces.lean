import Sbunix.Sys.ForkSpace

/-!
# What a new address space translates

The frame of a new top-level table is not cleared.  `setUserSpace` writes its last entry and
`forkSyscall` those that the parent has, so the others are what the frame was last used for.
-/

namespace Sbunix

open Reasoning Kernel

variable {k k' : Kernel} {s : Machine} {mem mem' : Memory} {w r c n fuel v : Nat}
  {free : List Nat} {i : Fin 512}

/-- The entry of the page that holds `v` under the top-level table `r`. -/
def translation (mem : Memory) (r v : Nat) : Option Nat := pageAt allEntries mem r (pagePath v)

/-- The address with the given indices. -/
def address (q : Fin 512 × Fin 512 × Fin 512 × Fin 512) : Nat :=
  q.1 * 2 ^ 39 + q.2.1 * 2 ^ 30 + q.2.2.1 * 2 ^ 21 + q.2.2.2 * 2 ^ 12

theorem getIndex_address (q : Fin 512 × Fin 512 × Fin 512 × Fin 512) :
    getIndex (address q) 39 = q.1 ∧ getIndex (address q) 30 = q.2.1 ∧
      getIndex (address q) 21 = q.2.2.1 ∧ getIndex (address q) 12 = q.2.2.2 := by
  refine ⟨Fin.ext ?_, Fin.ext ?_, Fin.ext ?_, Fin.ext ?_⟩
  all_goals
    rw [getIndex_val, address]
    omega

/-- The tables `t₁`, `t₂` and `t₃` lead from `c` to a present page. -/
structure Chained (mem : Memory) (c : Nat) (i j k m : Fin 512) (t₁ t₂ t₃ : Nat) : Prop where
  top : child allEntries mem 2 c i = some t₁
  mid : child allEntries mem 1 t₁ j = some t₂
  low : child allEntries mem 0 t₂ k = some t₃
  page : Present (entry mem t₃ m)

theorem translation_isSome_iff : (∃ e, translation mem c v = some e) ↔
    ∃ t₁ t₂ t₃, Chained mem c (getIndex v 39) (getIndex v 30) (getIndex v 21) (getIndex v 12)
      t₁ t₂ t₃ := by
  have hpath : pagePath v = [getIndex v 39, getIndex v 30, getIndex v 21, getIndex v 12] := rfl
  constructor
  · rintro ⟨e, he⟩
    rw [translation, hpath, pageAt, leaf, Option.bind_eq_some_iff] at he
    obtain ⟨t₁, h₁, he⟩ := he
    rw [leaf, Option.bind_eq_some_iff] at he
    obtain ⟨t₂, h₂, he⟩ := he
    rw [leaf, Option.bind_eq_some_iff] at he
    obtain ⟨t₃, h₃, he⟩ := he
    refine ⟨t₁, t₂, t₃, h₁, h₂, h₃, ?_⟩
    rw [leaf, pageEntry] at he
    split at he
    · assumption
    · cases he
  · rintro ⟨t₁, t₂, t₃, h⟩
    refine ⟨entry mem t₃ (getIndex v 12), ?_⟩
    rw [translation, hpath, pageAt, leaf, h.top, Option.bind_some, leaf, h.mid, Option.bind_some,
      leaf, h.low, Option.bind_some, leaf, pageEntry, if_pos h.page]

/-- Some address is translated by a chain. -/
theorem Chained.translated {j k m : Fin 512} {t₁ t₂ t₃ : Nat} (h : Chained mem c i j k m t₁ t₂ t₃) :
    ∃ v e, getIndex v 39 = i ∧ translation mem c v = some e := by
  obtain ⟨h39, h30, h21, h12⟩ := getIndex_address (i, j, k, m)
  obtain ⟨e, he⟩ := (translation_isSome_iff (v := address (i, j, k, m))).mpr
    ⟨t₁, t₂, t₃, by rw [h39, h30, h21, h12]; exact h⟩
  exact ⟨_, e, h39, he⟩

theorem child_all {m : Nat} (t : Nat) (i : Fin 512) :
    child allEntries mem m t i = child allEntries mem n t i := by
  simp only [child, allEntries, implies_true, true_and]

theorem child_dvd {U : Fin 512 → Bool} {t u : Nat} (h : child U mem n t i = some u) : 4096 ∣ u := by
  rw [← (child_eq_some h).2.1]
  exact frame_dvd (entry_lt mem t i)

/-! ## `setUserSpace` -/

/-- Whatever entry 511 of `c` is, a chain through another entry of `c` leaves one: a chain that comes
back to `c` goes on as it began. -/
theorem Chained.transfer {j k m : Fin 512} {t₁ t₂ t₃ : Nat} (h : Chained mem c i j k m t₁ t₂ t₃)
    (hi : i ≠ 511) (hc : 4096 ∣ c)
    (hmem : ∀ t j, 4096 ∣ t → (t, j) ≠ (c, 511) → entry mem' t j = entry mem t j) :
    ∃ j' k' m' u₁ u₂ u₃, Chained mem' c i j' k' m' u₁ u₂ u₃ := by
  have hchild : ∀ n t j, 4096 ∣ t → (t, j) ≠ (c, 511) →
      child allEntries mem' n t j = child allEntries mem n t j := by
    intro n t j ht hne
    rw [child, child, hmem t j ht hne]
  have hself : entry mem' c i = entry mem c i := hmem c i hc (by simp [hi])
  have htop : ∀ n, child allEntries mem' n c i = some t₁ := fun n ↦
    (hchild n c i hc (by simp [hi])).trans ((child_all c i).trans h.top)
  have hpc : Present (entry mem' c i) := by
    rw [hself]
    exact (child_eq_some h.top).1
  have hd₁ := child_dvd h.top
  have hd₂ := child_dvd h.mid
  have hd₃ := child_dvd h.low
  -- each table of the chain may be `c` itself, whose entry `i` is taken again then
  by_cases h₁ : t₁ = c
  · subst h₁
    exact ⟨i, i, i, t₁, t₁, t₁, htop 2, htop 1, htop 0, hpc⟩
  · have hmid : ∀ n, child allEntries mem' n t₁ j = some t₂ := fun n ↦
      (hchild n t₁ j hd₁ (by simp [h₁])).trans ((child_all t₁ j).trans h.mid)
    by_cases h₂ : t₂ = c
    · subst h₂
      refine ⟨j, i, j, t₁, t₂, t₁, htop 2, hmid 1, htop 0, ?_⟩
      rw [hmem t₁ j hd₁ (by simp [h₁])]
      exact (child_eq_some h.mid).1
    · have hlow := (hchild 0 t₂ k hd₂ (by simp [h₂])).trans h.low
      by_cases h₃ : t₃ = c
      · subst h₃
        exact ⟨j, k, i, t₁, t₂, t₃, htop 2, hmid 1, hlow, hpc⟩
      · refine ⟨j, k, m, t₁, t₂, t₃, htop 2, hmid 1, hlow, ?_⟩
        rw [hmem t₃ m hd₃ (by simp [h₃])]
        exact h.page

/-- Under the table `c`, addresses of the kernel only are translated. -/
def OnlyKernel (mem : Memory) (c : Nat) : Prop :=
  ∀ v, getIndex v 39 ≠ 511 → translation mem c v = none

theorem onlyKernel_iff : OnlyKernel mem c ↔
    ∀ i j k m t₁ t₂ t₃, i ≠ 511 → ¬ Chained mem c i j k m t₁ t₂ t₃ := by
  constructor
  · intro h i j k m t₁ t₂ t₃ hi hch
    obtain ⟨v, e, h39, he⟩ := hch.translated
    rw [h v (h39 ▸ hi)] at he
    cases he
  · intro h v hv
    by_contra hne
    obtain ⟨t₁, t₂, t₃, hch⟩ := translation_isSome_iff.mp (Option.ne_none_iff_exists'.mp hne)
    exact h _ _ _ _ t₁ t₂ t₃ hv hch

theorem OnlyKernel.transfer (h : OnlyKernel mem c) (hc : 4096 ∣ c)
    (hmem : ∀ t j, 4096 ∣ t → (t, j) ≠ (c, 511) → entry mem' t j = entry mem t j) :
    OnlyKernel mem' c := by
  rw [onlyKernel_iff] at h ⊢
  intro i j k m t₁ t₂ t₃ hi hch
  obtain ⟨j', k', m', u₁, u₂, u₃, hch'⟩ :=
    hch.transfer hi hc fun t j ht hne ↦ (hmem t j ht hne).symm
  exact h i j' k' m' u₁ u₂ u₃ hi hch'

/-- The new table translates no user address if and only if its frame did not before. -/
theorem setUserSpace_onlyKernel (hf : FreeList s.alloc (n :: free)) (hn : n < 2 ^ 19) :
    s.setUserSpace.1 = n * 4096 ∧
      (OnlyKernel s.setUserSpace.2.mem (n * 4096) ↔ OnlyKernel s.mem (n * 4096)) := by
  obtain ⟨ha, -, -, hmem⟩ := setUserSpace_spec hf hn
  have hd : 4096 ∣ n * 4096 := Nat.dvd_mul_left _ _
  have he : ∀ t j, 4096 ∣ t → (t, j) ≠ (n * 4096, 511) →
      entry s.setUserSpace.2.mem t j = entry s.mem t j := by
    intro t j ht hne
    rw [hmem, entry_store64_of_ne hd ht hne]
  exact ⟨ha, fun h ↦ h.transfer hd fun t j ht hne ↦ (he t j ht hne).symm,
    fun h ↦ h.transfer hd he⟩

/-! ## `forkSyscall` -/

/-- Under `c` the same user addresses are translated as under `p`, to the same frames. -/
def SameTranslations (mem : Memory) (p c : Nat) : Prop :=
  ∀ v, getIndex v 39 < 510 → (translation mem c v).map frame = (translation mem p v).map frame

/-- A chain through an entry of `c` where `p` has none, by tables outside `S`. -/
def Residue (mem : Memory) (p c : Nat) (S : Set Nat) : Prop :=
  ∃ i j k m t₁ t₂ t₃, i < 510 ∧ ¬ Present (entry mem p i) ∧ Chained mem c i j k m t₁ t₂ t₃ ∧
    t₁ ∉ S ∧ t₂ ∉ S ∧ t₃ ∉ S

theorem translation_user (hv : getIndex v 39 < 510) :
    translation mem r v = pageAt userEntries mem r (pagePath v) :=
  (pageAt_restrict (decide_eq_true hv)).symm

theorem ForkedSpace.sameTranslations {p : Nat} {l taken : List Nat}
    (h : ForkedSpace w p c l taken mem mem') (hns : NoStale mem p c) :
    SameTranslations mem' p c := by
  intro v hv
  have hp := h.pages (pagePath v)
  have hc := (h.copied hns).copy (pagePath v)
  rw [translation_user hv, translation_user hv, hp]
  exact congrArg _ hc

theorem ForkedSpace.residue {p : Nat} {l taken : List Nat} {S : Set Nat}
    (h : ForkedSpace w p c l taken mem mem') (hw : windowFrames mem w ⊆ S)
    (ht : framesOf taken ⊆ S) (hres : Residue mem p c S) : ¬ SameTranslations mem' p c := by
  obtain ⟨i, j, k, m, t₁, t₂, t₃, hi, hpi, hch, h₁, h₂, h₃⟩ := hres
  -- the tables of the chain lead on as before
  have hkeep : ∀ t ∉ S, 4096 ∣ t → ∀ j n, n ≠ 2 →
      child allEntries mem' n t j = child allEntries mem n t j := by
    intro t htS htd j n hn
    by_cases htp : t ∈ tableFrames userEntries mem p
    · have hk : child userEntries mem' n t = child userEntries mem n t := h.kept t htp n
      rw [child_low hn] at hk
      exact congrFun (hk.trans (child_low hn)) j
    · refine congrFun (child_congr (entry_page htd fun x hx ↦ h.bytes x ?_ ?_ ?_) n) j
      · rw [hx]
        exact fun hm ↦ htS (hw hm)
      · rwa [hx]
      · rw [hx]
        exact fun hm ↦ htS (ht hm)
  have hpage : Present (entry mem' t₃ m) := by
    have hc : child allEntries mem 0 t₃ m = some (frame (entry mem t₃ m)) :=
      child_of_present (fun _ ↦ rfl) hch.page
    exact (child_eq_some ((hkeep t₃ h₃ (child_dvd hch.low) m 0 (by decide)).trans hc)).1
  have hch' : Chained mem' c i j k m t₁ t₂ t₃ := by
    refine ⟨?_, (hkeep t₁ h₁ (child_dvd hch.top) j 1 (by decide)).trans hch.mid,
      (hkeep t₂ h₂ (child_dvd hch.mid) k 0 (by decide)).trans hch.low, hpage⟩
    rw [child, h.stale i hi hpi]
    exact hch.top
  obtain ⟨v, e, h39, he⟩ := hch'.translated
  intro hsame
  have hv := hsame v (h39 ▸ hi)
  rw [he, Option.map_some, eq_comm, Option.map_eq_some_iff] at hv
  obtain ⟨e', he', -⟩ := hv
  obtain ⟨u₁, u₂, u₃, hpc⟩ := translation_isSome_iff.mp ⟨e', he'⟩
  have htop := (child_eq_some hpc.top).1
  rw [h39, h.parent] at htop
  exact hpi htop

/-- A new address space translates what it is meant to as far as the frame of its top-level table has
nothing left in it.  For `setUserSpace` this is exact; for `forkSyscall` an old chain whose tables
are in use is translated by the child and not by the parent. -/
theorem freshSpaces (hr : Ready w k.toMachine free) (hu : UserTree k.mem w k.cr3 free)
    (hcr3 : (k.procs.pcbs k.procs.current).cr3 = k.cr3) (hcur : k.procs.current ∉ windowOf free) :
    (∀ n l, free = n :: l → k.setUserSpace.1 = n * 4096 ∧
      (OnlyKernel k.setUserSpace.2.mem (n * 4096) ↔ OnlyKernel k.mem (n * 4096))) ∧
    ∀ fuel regs k', k.forkSyscall fuel regs = some k' → k'.alloc.HasFree →
      ∃ m n l, free = m :: n :: l ∧
        (k'.procs.pcbs (k'.procs.nextOf k.procs.current)).cr3 = n * 4096 ∧
        (NoStale k.mem k.cr3 (n * 4096) → SameTranslations k'.mem k.cr3 (n * 4096)) ∧
        (Residue k.mem k.cr3 (n * 4096) (windowFrames k.mem w ∪ framesOf free) →
          ¬ SameTranslations k'.mem k.cr3 (n * 4096)) := by
  refine ⟨?_, fun fuel regs k' hrun hfree ↦ ?_⟩
  · rintro n l rfl
    exact setUserSpace_onlyKernel hr.freeList (hr.free_lt n List.mem_cons_self)
  · obtain ⟨m, n, l, l', taken, free', hf, ht, hm, a, ha, hac, hprocs⟩ :=
      forkSyscall_space hr hu hcr3 hcur hrun hfree
    have hchild : a.child ≠ k.procs.current := fun he ↦
      hcur ⟨m, by rw [hf]; exact List.mem_cons_self, he ▸ ha⟩
    refine ⟨m, n, l, hf, ?_, hm.space.sameTranslations, fun hres ↦
      hm.space.residue Set.subset_union_left (fun f hft ↦ .inr (framesOf_mono ?_ hft)) hres⟩
    · rw [hprocs, Procs.forkSyscall_nextOf hchild, insertAfter_cur hchild.symm,
        (Procs.forkSyscall_spaces hchild).2.2.2, hac]
    · rw [ht]
      exact List.subset_append_left taken free'

theorem bootKernel_fork (stale : Nat) :
    ∃ k', (bootKernel 0 stale 0).forkSyscall 3 ⟨1, 0⟩ = some k' := by
  have hl : VmaList (bootKernel 0 stale 0) 0 [] := ⟨rfl, by simp⟩
  have hfuel : ([] : List Nat).length < 3 := by decide
  obtain ⟨k', -, hk', -⟩ := forkSyscall_spec (bootKernel_forkReady hl (by simp)) hfuel ⟨1, 0⟩
  exact ⟨k', hk'⟩

theorem bootKernel_current (stale : Nat) :
    (bootKernel 0 stale 0).procs.current ∉ windowOf (List.range' 20 44) := by
  have hl : VmaList (bootKernel 0 stale 0) 0 [] := ⟨rfl, by simp⟩
  exact fun h ↦ (bootKernel_forkReady hl (by simp)).pcb (windowOf_mono (by simp) h)

theorem freshSpaces_cleared :
    ∃ k', (bootKernel 0 0 0).forkSyscall 3 ⟨1, 0⟩ = some k' ∧
      SameTranslations k'.mem 0x1000 0x15000 := by
  obtain ⟨k', hk'⟩ := bootKernel_fork 0
  obtain ⟨m, n, l, hf, -, hsame, -⟩ := (freshSpaces (bootSpace_ready 0 0) bootSpace_userTree rfl
    (bootKernel_current 0)).2 3 ⟨1, 0⟩ k' hk' (bootKernel_hasFree hk')
  obtain ⟨rfl, rfl, -⟩ : 20 = m ∧ 21 = n ∧ _ := by simpa [List.range'] using hf
  have hz : ∀ i, ¬ Present (entry (bootSpace 0 0).mem (21 * 4096) i) := by
    intro i
    by_cases h1 : i.val = 1
    · rw [bootSpace_entry, h1]
      exact not_present_zero
    · rw [bootSpace_entry, bootWords_zero (by simp; omega) (by omega)]
      exact not_present_zero
  exact ⟨k', hk', hsame fun i _ _ ↦ hz i⟩

/-- An entry left over in the second free page: the child translates an address through it. -/
theorem freshSpaces_stale :
    (∃ k', (bootKernel 0 0x9007 0).forkSyscall 3 ⟨1, 0⟩ = some k' ∧
      ¬ SameTranslations k'.mem 0x1000 0x15000) ∧
    ¬ OnlyKernel (bootSpace 0 0x9007).allocatePage.2.setUserSpace.2.mem 0x15000 := by
  have hch : Chained (bootSpace 0 0x9007).mem (21 * 4096) 1 0 0 0 0x9000 0xa000 0xb000 := by
    refine ⟨?_, ?_, ?_, ?_⟩
    · exact bootSpace_child (n := 21) (i := 1) (e := 0x9007) rfl (by decide) (by decide)
        (fun j hj ↦ bootWords_zero (by simp at hj ⊢; omega) (by omega)) 1
    · exact bootSpace_child (n := 9) (i := 0) (e := 0xa007) rfl (by decide) (by decide)
        (fun j hj ↦ bootWords_zero (by simp at hj ⊢; omega) (by omega)) 0
    · exact bootSpace_child (n := 10) (i := 0) (e := 0xb007) rfl (by decide) (by decide)
        (fun j hj ↦ bootWords_zero (by simp at hj ⊢; omega) (by omega)) 0
    · change Present (entry (bootSpace 0 0x9007).mem (11 * 4096) 0)
      rw [bootSpace_entry]
      decide
  constructor
  · obtain ⟨k', hk'⟩ := bootKernel_fork 0x9007
    obtain ⟨m, n, l, l', taken, free', hf, ht, hm, -⟩ := forkSyscall_space (bootSpace_ready 0 0x9007)
      bootSpace_userTree rfl (bootKernel_current 0x9007) hk' (bootKernel_hasFree hk')
    obtain ⟨rfl, rfl, -⟩ : 20 = m ∧ 21 = n ∧ _ := by simpa [List.range'] using hf
    have hsub : framesOf taken ⊆ framesOf (List.range' 20 44) := by
      rw [ht]
      exact framesOf_mono (List.subset_append_left taken free')
    -- the tables of the entry are in pages 9 to 11, which no one takes
    have hout : ∀ t < 12, t * 4096 ∉ framesOf (List.range' 20 44) := by
      rintro t h12 ⟨n, hn, he⟩
      have := List.mem_range'_1.mp hn
      omega
    have hw := bootSpace_window 0 0x9007
    refine ⟨k', hk', hm.space.residue (S := windowFrames (bootSpace 0 0x9007).mem 0x2000 ∪
      framesOf (List.range' 20 44)) Set.subset_union_left (fun f hft ↦ .inr (hsub hft))
      ⟨1, 0, 0, 0, 0x9000, 0xa000, 0xb000, by decide, ?_, hch, ?_, ?_, ?_⟩⟩
    · have he := bootSpace_entry 0 0x9007 1 1
      rw [bootWords_zero (by simp) (by simp)] at he
      change ¬ Present (entry (bootSpace 0 0x9007).mem (1 * 4096) 1)
      rw [he]
      exact not_present_zero
    · rw [hw.1]
      rintro (h | h)
      · simp at h
      · exact hout 9 (by decide) h
    · rw [hw.1]
      rintro (h | h)
      · simp at h
      · exact hout 10 (by decide) h
    · rw [hw.1]
      rintro (h | h)
      · simp at h
      · exact hout 11 (by decide) h
  · have hf := (allocatePage_spec (bootSpace_freeList 0 0x9007)).2.1
    rw [show 0x15000 = 21 * 4096 from rfl, (setUserSpace_onlyKernel hf (by decide)).2,
      onlyKernel_iff]
    exact fun h ↦ h 1 0 0 0 0x9000 0xa000 0xb000 (by decide) hch

end Sbunix
