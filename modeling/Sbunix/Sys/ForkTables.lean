import Sbunix.Sys.Window

/-!
# The page tables of a forked process

The nested loops of `forkSyscall` build a tree of tables for the child, level by level, in which
every page of the parent is found again.  Both processes have it read-only and marked.
-/

namespace Sbunix

open Reasoning

variable {s s' s₁ s₂ : Machine} {mem mem' mem'' : Memory} {n k p c e f g : Nat} {i j : Fin 512}
  {free free' l : List Nat} {T T' : Set Nat}

/-- The entry that both processes have for a page after a fork. -/
def cow (e : Nat) : Nat := frame e ||| (pBit ||| uBit ||| cowBit)

theorem frame_cow (he : e < 2 ^ 64) : frame (cow e) = frame e := by
  refine frame_or (frame_dvd he) ?_ (by decide)
  rw [frame_eq he]
  omega

theorem present_cow (he : e < 2 ^ 64) : Present (cow e) := by
  rw [Present, cow, or_and_flag (frame_dvd he) (by decide)]
  decide

theorem cow_lt (he : e < 2 ^ 64) : cow e < 2 ^ 64 := by
  have hb : pBit ||| (uBit ||| cowBit) = 261 := by decide
  rw [cow, or_low (n := 12) (frame_dvd he) (by decide), frame_eq he]
  change e / 4096 * 4096 + 261 < 2 ^ 64
  omega

/-! ## The loops, by height -/

/-! The bounds of the loops over a table, by name: the same terms in every statement about them. -/

theorem loop_all : 512 ≤ 512 := Nat.le_refl 512

theorem loop_user : 510 ≤ 512 := by decide

theorem loop_next {k : Nat} (h : k + 1 ≤ 512) : k ≤ 512 := Nat.le_of_succ_le h

/-- The loop over a table of height `n` and all below it. -/
def copyLevel : Nat → Nat → Nat → Machine → Machine
  | 0 => Machine.copyPte
  | n + 1 => fun p c ↦ Machine.forEntries
      (Machine.copyTableEntry Machine.tableAlloc (copyLevel n) p c) 512 loop_all

theorem copyPde_eq : Machine.copyPde = copyLevel 1 := by
  have halloc : Machine.pteAlloc = Machine.tableAlloc := rfl
  funext p c s
  rw [Machine.copyPde, halloc, copyLevel, copyLevel]

theorem copyPdpe_eq : Machine.copyPdpe = copyLevel 2 := by
  have halloc : Machine.pdeAlloc = Machine.tableAlloc := rfl
  funext p c s
  rw [Machine.copyPdpe, halloc, copyPde_eq]
  rfl

theorem copyPml4e_eq (s : Machine) (p c : Nat) : s.copyPml4e p c = Machine.forEntries
    (Machine.copyTableEntry Machine.tableAlloc (copyLevel 2) p c) 510 loop_user s := by
  have halloc : Machine.pdpeAlloc = Machine.tableAlloc := rfl
  rw [Machine.copyPml4e, halloc, copyPdpe_eq]

theorem pops_copyLevel (n p c : Nat) (s : Machine) : ∃ m, Pops m s (copyLevel n p c s) := by
  induction n generalizing p c s with
  | zero => exact pops_copyPte p c s
  | succ n ih => exact pops_forEntries (pops_copyTableEntry ih p c) 512 _ s

/-- The tree at `c` maps what the tree of height `n` at `p` maps, with the entries of a fork, and
its tables below `c` are in `T`. -/
structure Copied (n : Nat) (mem mem' : Memory) (p c : Nat) (T : Set Nat) : Prop where
  shared : ∀ q, leaf (child userEntries mem') (pageEntry mem') n p q =
    (leaf (child userEntries mem) (pageEntry mem) n p q).map cow
  copy : ∀ q, leaf (child userEntries mem') (pageEntry mem') n c q =
    (leaf (child userEntries mem) (pageEntry mem) n p q).map cow
  tree : IsTree (child userEntries mem') n c
  frames : tables (child userEntries mem') n c ⊆ insert c T

/-- Before the loop over the table `p` of height `n`. -/
structure CopyReady (n p c : Nat) (s : Machine) (free : List Nat) : Prop where
  tree : IsTree (child userEntries s.mem) n p
  aligned : ∀ t ∈ tables (child userEntries s.mem) n p, 4096 ∣ t ∧ t < 2 ^ 31
  freeList : FreeList s.alloc free
  free_lt : ∀ n ∈ free, n < 2 ^ 19
  free_apart : ∀ f ∈ framesOf free, f ∉ tables (child userEntries s.mem) n p
  dest : 4096 ∣ c ∧ c < 2 ^ 31
  dest_apart : c ∉ tables (child userEntries s.mem) n p ∧ c ∉ framesOf free

/-- After it, with the pages `l` taken. -/
structure LevelCopied (n p c : Nat) (s : Machine) (l : List Nat) (s' : Machine)
    (free' : List Nat) : Prop where
  freeList : FreeList s'.alloc free'
  cr3 : s'.cr3 = s.cr3
  kept : ∀ t ∈ tables (child userEntries s.mem) n p, ∀ m,
    child userEntries s'.mem m t = child userEntries s.mem m t
  copied : Copied n s.mem s'.mem p c (framesOf l)
  bytes : ∀ x, x / 4096 * 4096 ∉ tables (child userEntries s.mem) n p → x / 4096 * 4096 ≠ c →
    x / 4096 * 4096 ∉ framesOf l → s'.mem x = s.mem x

/-! ## The last level -/

/-- The first `k` entries have been shared. -/
structure PteLoop (k p c : Nat) (s s' : Machine) : Prop where
  alloc : s'.alloc = s.alloc
  cr3 : s'.cr3 = s.cr3
  parent : ∀ i, entry s'.mem p i =
    if i.val < k ∧ Present (entry s.mem p i) then cow (entry s.mem p i) else entry s.mem p i
  dest : ∀ i, entry s'.mem c i =
    if i.val < k ∧ Present (entry s.mem p i) then cow (entry s.mem p i) else entry s.mem c i
  bytes : ∀ x, x / 4096 * 4096 ≠ p → x / 4096 * 4096 ≠ c → s'.mem x = s.mem x

theorem store64_of_ne {a x : Nat} {m : Memory} (ha : 4096 ∣ a) (hx : x / 4096 * 4096 ≠ a) :
    m.store64 (a + 8 * i) e x = m x := by
  obtain ⟨b, rfl⟩ := ha
  exact Memory.store64_apply_of_lt (by omega)

theorem copyPageEntry_mem (hp : p < 2 ^ 31) (hc : c < 2 ^ 31)
    (he : Present (entry s.mem p i)) : Machine.copyPageEntry (kptr p) (kptr c) i s =
      { s with
        mem := (s.mem.store64 (c + 8 * i) (cow (entry s.mem p i))).store64 (p + 8 * i)
          (cow (entry s.mem p i)) } := by
  unfold Machine.copyPageEntry
  dsimp only
  rw [readEntry_kptr s hp, if_pos he, Machine.writeEntry, Machine.writeEntry, phys_kptr hp,
    phys_kptr hc]
  rfl

theorem copyPageEntry_absent (hp : p < 2 ^ 31) (he : ¬ Present (entry s.mem p i)) :
    Machine.copyPageEntry (kptr p) c i s = s := by
  unfold Machine.copyPageEntry
  dsimp only
  rw [readEntry_kptr s hp, if_neg he]

theorem PteLoop.next (h : PteLoop i.val p c s s') (hp : 4096 ∣ p ∧ p < 2 ^ 31)
    (hc : 4096 ∣ c ∧ c < 2 ^ 31) (hpc : p ≠ c) :
    PteLoop (i.val + 1) p c s (Machine.copyPageEntry (kptr p) (kptr c) i s') := by
  -- the loop has not come to entry `i` yet
  have hcur : entry s'.mem p i = entry s.mem p i := by
    rw [h.parent, if_neg (fun ⟨hlt, _⟩ ↦ Nat.lt_irrefl _ hlt)]
  have hlt : ∀ {j : Fin 512}, j ≠ i → (j.val < i.val + 1 ↔ j.val < i.val) := by
    intro j hj
    have : j.val ≠ i.val := fun he ↦ hj (Fin.ext he)
    omega
  by_cases he : Present (entry s.mem p i)
  · have hew := cow_lt (entry_lt s.mem p i)
    rw [copyPageEntry_mem hp.2 hc.2 (by rw [hcur]; exact he), hcur]
    refine ⟨h.alloc, h.cr3, fun j ↦ ?_, fun j ↦ ?_, fun x hxp hxc ↦ ?_⟩
    · dsimp only
      by_cases hj : j = i
      · subst hj
        rw [entry_store64_self hew, if_pos ⟨Nat.lt_succ_self _, he⟩]
      · rw [entry_store64_of_ne hp.1 hp.1 (by simp [hj]),
          entry_store64_of_ne hc.1 hp.1 (by simp [hpc]), h.parent]
        simp only [hlt hj]
    · dsimp only
      rw [entry_store64_of_ne hp.1 hc.1 (by simp [hpc.symm])]
      by_cases hj : j = i
      · subst hj
        rw [entry_store64_self hew, if_pos ⟨Nat.lt_succ_self _, he⟩]
      · rw [entry_store64_of_ne hc.1 hc.1 (by simp [hj]), h.dest]
        simp only [hlt hj]
    · dsimp only
      rw [store64_of_ne hp.1 hxp, store64_of_ne hc.1 hxc, h.bytes x hxp hxc]
  · -- an entry that is absent is passed over
    rw [copyPageEntry_absent hp.2 (by rw [hcur]; exact he)]
    refine ⟨h.alloc, h.cr3, fun j ↦ ?_, fun j ↦ ?_, h.bytes⟩
    · rw [h.parent]
      by_cases hj : j = i
      · subst hj
        rw [if_neg fun hp ↦ he hp.2, if_neg fun hp ↦ he hp.2]
      · simp only [hlt hj]
    · rw [h.dest]
      by_cases hj : j = i
      · subst hj
        rw [if_neg fun hp ↦ he hp.2, if_neg fun hp ↦ he hp.2]
      · simp only [hlt hj]

theorem pteLoop (hk : k ≤ 512) (hp : 4096 ∣ p ∧ p < 2 ^ 31) (hc : 4096 ∣ c ∧ c < 2 ^ 31)
    (hpc : p ≠ c) :
    PteLoop k p c s (Machine.forEntries (Machine.copyPageEntry (kptr p) (kptr c)) k hk s) := by
  induction k with
  | zero =>
      refine ⟨rfl, rfl, fun i ↦ ?_, fun i ↦ ?_, fun _ _ _ ↦ rfl⟩
      · rw [if_neg fun h ↦ Nat.not_lt_zero _ h.1]
        rfl
      · rw [if_neg fun h ↦ Nat.not_lt_zero _ h.1]
        rfl
  | succ k ih => exact PteLoop.next (i := ⟨k, hk⟩) (ih (loop_next hk)) hp hc hpc

theorem levelCopied_zero (h : CopyReady 0 p c s free) (hz : ∀ i, entry s.mem c i = 0) :
    LevelCopied 0 p c s [] (copyLevel 0 (kptr p) (kptr c) s) free := by
  have hpc : p ≠ c := fun he ↦ h.dest_apart.1 (he ▸ self_mem_tables)
  have hloop := pteLoop (s := s) loop_all (h.aligned p self_mem_tables) h.dest hpc
  change PteLoop 512 p c s (copyLevel 0 (kptr p) (kptr c) s) at hloop
  generalize copyLevel 0 (kptr p) (kptr c) s = s' at hloop ⊢
  have hparent : ∀ i, entry s'.mem p i =
      if Present (entry s.mem p i) then cow (entry s.mem p i) else entry s.mem p i := fun i ↦ by
    simp only [hloop.parent, i.isLt, true_and]
  have hdest : ∀ i, entry s'.mem c i =
      if Present (entry s.mem p i) then cow (entry s.mem p i) else 0 := fun i ↦ by
    simp only [hloop.dest, hz, i.isLt, true_and]
  -- the page is shared: both tables hold its entry with the copy-on-write flags
  have hval : ∀ i, pageEntry s'.mem p i = (pageEntry s.mem p i).map cow ∧
      pageEntry s'.mem c i = (pageEntry s.mem p i).map cow := by
    intro i
    simp only [pageEntry, hparent, hdest]
    by_cases he : Present (entry s.mem p i)
    · have hc := present_cow (entry_lt s.mem p i)
      simp [he, hc]
    · simp [he]
  refine ⟨by rw [hloop.alloc]; exact h.freeList, hloop.cr3, fun t ht m ↦ ?_,
    ⟨fun q ↦ ?_, fun q ↦ ?_, trivial, ?_⟩, fun x hx hxc _ ↦ hloop.bytes x hx hxc⟩
  · -- the parent's entries still lead where they led
    obtain rfl : t = p := ht
    funext j
    simp only [child, hparent]
    by_cases he : Present (entry s.mem t j)
    · rw [if_pos he, frame_cow (entry_lt s.mem t j)]
      have hc := present_cow (entry_lt s.mem t j)
      exact if_congr (and_congr_right fun _ ↦ iff_of_true hc he) rfl rfl
    · rw [if_neg he]
  · cases q with
    | nil => rfl
    | cons j q =>
        cases q with
        | nil => exact (hval j).1
        | cons j' q => rfl
  · cases q with
    | nil => rfl
    | cons j q =>
        cases q with
        | nil => exact (hval j).2
        | cons j' q => rfl
  · exact fun t ht ↦ Or.inl ht

/-! ## The levels above -/

/-- The first `k` entries of the table `p` of height `n + 1` have been copied. -/
structure CopyLoop (n k p c : Nat) (s : Machine) (l : List Nat) (s' : Machine)
    (free' : List Nat) : Prop where
  freeList : FreeList s'.alloc free'
  cr3 : s'.cr3 = s.cr3
  kept : ∀ t ∈ tables (child userEntries s.mem) (n + 1) p, ∀ m,
    child userEntries s'.mem m t = child userEntries s.mem m t
  done : ∀ i : Fin 512, i.val < k → ∀ f, child userEntries s.mem n p i = some f →
    ∃ g ∈ framesOf l, entry s'.mem c i = g ||| 7 ∧ Copied n s.mem s'.mem f g (framesOf l)
  apart : ∀ i j : Fin 512, i.val < k → j.val < k → i ≠ j →
    ∀ f f', child userEntries s.mem n p i = some f → child userEntries s.mem n p j = some f' →
      Disjoint (tables (child userEntries s'.mem) n (frame (entry s'.mem c i)))
        (tables (child userEntries s'.mem) n (frame (entry s'.mem c j)))
  rest : ∀ i : Fin 512, k ≤ i.val → ∀ f, child userEntries s.mem n p i = some f →
    ∀ t ∈ tables (child userEntries s.mem) n f, ∀ j, entry s'.mem t j = entry s.mem t j
  parent : ∀ j, entry s'.mem p j = entry s.mem p j
  dest : ∀ i : Fin 512, k ≤ i.val ∨ child userEntries s.mem n p i = none →
    entry s'.mem c i = entry s.mem c i
  bytes : ∀ x, x / 4096 * 4096 ∉ tables (child userEntries s.mem) (n + 1) p →
    x / 4096 * 4096 ≠ c → x / 4096 * 4096 ∉ framesOf l → s'.mem x = s.mem x

theorem CopyLoop.start (h : FreeList s.alloc free) : CopyLoop n 0 p c s [] s free :=
  ⟨h, rfl, fun _ _ _ ↦ rfl, fun _ hi ↦ absurd hi (Nat.not_lt_zero _),
    fun _ _ hi ↦ absurd hi (Nat.not_lt_zero _), fun _ _ _ _ _ _ _ ↦ rfl, fun _ ↦ rfl,
    fun _ _ ↦ rfl, fun _ _ _ _ ↦ rfl⟩

/-- An index before the next one is an earlier one or the next one. -/
theorem lt_succ_cases (h : j.val < i.val + 1) : j.val < i.val ∨ j = i := by
  by_cases hj : j = i
  · exact .inr hj
  · have : j.val ≠ i.val := fun he ↦ hj (Fin.ext he)
    exact .inl (by omega)

theorem CopyLoop.skip (h : CopyLoop n i.val p c s l s' free')
    (hc : child userEntries s.mem n p i = none) : CopyLoop n (i.val + 1) p c s l s' free' := by
  have hlt : ∀ {j : Fin 512} {f}, j.val < i.val + 1 → child userEntries s.mem n p j = some f →
      j.val < i.val := by
    intro j f hj hf
    rcases lt_succ_cases hj with hj | rfl
    · exact hj
    · rw [hc] at hf
      cases hf
  refine ⟨h.freeList, h.cr3, h.kept, fun j hj f hf ↦ h.done j (hlt hj hf) f hf,
    fun j j' hj hj' hne f f' hf hf' ↦ h.apart j j' (hlt hj hf) (hlt hj' hf') hne f f' hf hf',
    fun j hj ↦ h.rest j (Nat.le_of_succ_le hj), h.parent, fun j hj ↦ h.dest j ?_, h.bytes⟩
  exact hj.imp_left Nat.le_of_succ_le

/-- A new table below `c`, as the loop hands it on. -/
structure Opened (c : Nat) (i : Fin 512) (g : Nat) (s s₁ : Machine) : Prop where
  link : entry s₁.mem c i = g ||| 7
  keep : ∀ j, j ≠ i → entry s₁.mem c j = entry s.mem c j
  empty : ∀ j, entry s₁.mem g j = 0
  bytes : ∀ x, x / 4096 * 4096 ≠ g → x / 4096 * 4096 ≠ c → s₁.mem x = s.mem x

theorem tableAlloc_opened {g₀ : Nat} (hf : FreeList s.alloc (g₀ :: free)) (hg : g₀ < 2 ^ 19)
    (hc : 4096 ∣ c ∧ c < 2 ^ 31) (hcg : c ≠ g₀ * 4096) :
    Opened c i (g₀ * 4096) s (s.tableAlloc (kptr c) i 'V').2 := by
  obtain ⟨-, -, -, hmem⟩ := tableAlloc_spec (i := i) hf hg hc.2
  have hgd : 4096 ∣ g₀ * 4096 := Nat.dvd_mul_left _ _
  refine ⟨?_, fun j hj ↦ ?_, fun j ↦ ?_, fun x hxg hxc ↦ ?_⟩
  · rw [hmem]
    refine entry_store64_self ?_
    rw [or_low (n := 12) hgd (by decide)]
    omega
  · rw [hmem, entry_store64_of_ne hc.1 hc.1 (by simp [hj]), entry_fill_of_ne hgd hc.1 hcg]
  · rw [hmem, entry_store64_of_ne hc.1 hgd (by simp [hcg.symm])]
    exact entry_fill_self
  · rw [hmem, store64_of_ne hc.1 hxc, Memory.fill_apply_of_lt (by omega)]

theorem Copied.congr (h : Copied n mem mem' f g T) (hT : T ⊆ T')
    (hf : ∀ t ∈ tables (child userEntries mem') n f, ∀ j, entry mem'' t j = entry mem' t j)
    (hg : ∀ t ∈ tables (child userEntries mem') n g, ∀ j, entry mem'' t j = entry mem' t j) :
    Copied n mem mem'' f g T' := by
  have hcf : ∀ m, ∀ t ∈ tables (child userEntries mem') n f,
      child userEntries mem'' m t = child userEntries mem' m t := fun m t ht ↦ child_congr (hf t ht) m
  have hcg : ∀ m, ∀ t ∈ tables (child userEntries mem') n g,
      child userEntries mem'' m t = child userEntries mem' m t := fun m t ht ↦ child_congr (hg t ht) m
  refine ⟨fun q ↦ ?_, fun q ↦ ?_, h.tree.congr hcg, ?_⟩
  · rw [leaf_congr hcf (fun t ht ↦ pageEntry_congr (hf t ht)), h.shared]
  · rw [leaf_congr hcg (fun t ht ↦ pageEntry_congr (hg t ht)), h.copy]
  · rw [tables_congr hcg]
    exact h.frames.trans (Set.insert_subset_insert hT)

theorem framesOf_mono {l l' : List Nat} (h : l ⊆ l') : framesOf l ⊆ framesOf l' :=
  fun _ ⟨n, hn, hf⟩ ↦ ⟨n, h hn, hf⟩

theorem framesOf_disjoint {l l' : List Nat} (h : (l ++ l').Nodup) (hf : f ∈ framesOf l) :
    f ∉ framesOf l' := by
  rintro ⟨m, hm, he⟩
  obtain ⟨n, hn, rfl⟩ := hf
  obtain rfl : n = m := by omega
  exact List.disjoint_of_nodup_append h hn hm

theorem CopyLoop.inner_ready {g₀ : Nat} {free₁ : List Nat} (hr : CopyReady (n + 1) p c s free)
    (hl : free = l ++ g₀ :: free₁) (h : CopyLoop n i.val p c s l s' (g₀ :: free₁))
    (hf : child userEntries s.mem n p i = some f) (ho : Opened c i (g₀ * 4096) s' s₁)
    (hfree : FreeList s₁.alloc free₁) :
    (∀ t ∈ tables (child userEntries s.mem) n f, ∀ j, entry s₁.mem t j = entry s.mem t j) ∧
      CopyReady n f (g₀ * 4096) s₁ free₁ := by
  have hsub : ∀ t ∈ tables (child userEntries s.mem) n f,
      t ∈ tables (child userEntries s.mem) (n + 1) p := fun t ht ↦ mem_tables_child hf ht
  have hg : g₀ * 4096 ∈ framesOf free := ⟨g₀, by simp [hl], rfl⟩
  have hfree₁ : framesOf free₁ ⊆ framesOf free := framesOf_mono fun m hm ↦ by simp [hl, hm]
  -- the new page was free, so it is none of the parent's tables
  have hentry : ∀ t ∈ tables (child userEntries s.mem) n f, ∀ j,
      entry s₁.mem t j = entry s.mem t j := by
    intro t ht j
    have htg : t ≠ g₀ * 4096 := fun he ↦ hr.free_apart _ hg (he ▸ hsub t ht)
    have htc : t ≠ c := fun he ↦ hr.dest_apart.1 (he ▸ hsub t ht)
    rw [entry_page (hr.aligned t (hsub t ht)).1 fun x hx ↦ ho.bytes x (by rw [hx]; exact htg)
      (by rw [hx]; exact htc), h.rest i (Nat.le_refl _) f hf t ht]
  have hchild : ∀ m, ∀ t ∈ tables (child userEntries s.mem) n f,
      child userEntries s₁.mem m t = child userEntries s.mem m t := fun m t ht ↦
    child_congr (hentry t ht) m
  have htab := tables_congr hchild
  have hlt := hr.free_lt
  refine ⟨hentry, (hr.tree.1 i f hf).1.congr hchild, ?_, hfree, fun m hm ↦ hlt m (by simp [hl, hm]),
    ?_, ⟨Nat.dvd_mul_left _ _, ?_⟩, ?_, ?_⟩
  · rw [htab]
    exact fun t ht ↦ hr.aligned t (hsub t ht)
  · rw [htab]
    exact fun q hq ht ↦ hr.free_apart q (hfree₁ hq) (hsub q ht)
  · have := hlt g₀ (by simp [hl])
    omega
  · rw [htab]
    exact fun ht ↦ hr.free_apart _ hg (hsub _ ht)
  · have hnd := hr.freeList.nodup
    rw [hl] at hnd
    exact framesOf_disjoint (List.Nodup.of_append_right hnd : ([g₀] ++ free₁).Nodup)
      ⟨g₀, List.mem_singleton_self g₀, rfl⟩

/-- What the table `g` opened at entry `i` of `c` and the loop that fills it from the table `f` leave:
the other tables of the parent, the other entries of `c` and the pages `l` taken before. -/
structure StepFrame (n p c : Nat) (i : Fin 512) (f g : Nat) (l l₂ : List Nat) (s s' s₂ : Machine) :
    Prop where
  link : entry s₂.mem c i = g ||| 7
  dest : ∀ j, j ≠ i → entry s₂.mem c j = entry s'.mem c j
  tree : ∀ t ∈ tables (child userEntries s.mem) (n + 1) p,
    t ∉ tables (child userEntries s.mem) n f → ∀ j, entry s₂.mem t j = entry s'.mem t j
  taken : ∀ t ∈ framesOf l, ∀ j, entry s₂.mem t j = entry s'.mem t j
  bytes : ∀ x, x / 4096 * 4096 ∉ tables (child userEntries s.mem) n f → x / 4096 * 4096 ≠ g →
    x / 4096 * 4096 ∉ framesOf l₂ → x / 4096 * 4096 ≠ c → s₂.mem x = s'.mem x

/-- The pages that the loop takes behind `l` are not in `l`. -/
theorem CopyReady.taken_ne {m g₀ q : Nat} {l₂ free₂ : List Nat} (hr : CopyReady m p c s free)
    (hl : free = l ++ g₀ :: (l₂ ++ free₂)) (hq : q ∈ framesOf l) :
    q ≠ g₀ * 4096 ∧ q ∉ framesOf l₂ := by
  have hnd := hr.freeList.nodup
  rw [hl] at hnd
  have hdis := framesOf_disjoint hnd hq
  refine ⟨fun he ↦ hdis ⟨g₀, List.mem_cons_self, he⟩, ?_⟩
  rintro ⟨m, hm, he⟩
  exact hdis ⟨m, by simp [hm], he⟩

theorem CopyReady.stepFrame {g₀ : Nat} {l₂ free₂ : List Nat} (hr : CopyReady (n + 1) p c s free)
    (hl : free = l ++ g₀ :: (l₂ ++ free₂)) (hf : child userEntries s.mem n p i = some f)
    (htab : tables (child userEntries s₁.mem) n f = tables (child userEntries s.mem) n f)
    (ho : Opened c i (g₀ * 4096) s' s₁) (hi : LevelCopied n f (g₀ * 4096) s₁ l₂ s₂ free₂) :
    StepFrame n p c i f (g₀ * 4096) l l₂ s s' s₂ := by
  have hsub : ∀ t ∈ tables (child userEntries s.mem) n f,
      t ∈ tables (child userEntries s.mem) (n + 1) p := fun t ht ↦ mem_tables_child hf ht
  -- the pages that the inner loop and the new table write to
  have hnew : ∀ q, q ∉ framesOf free → q ≠ g₀ * 4096 ∧ q ∉ framesOf l₂ := by
    refine fun q hq ↦ ⟨fun he ↦ hq ⟨g₀, by simp [hl], he⟩, ?_⟩
    rintro ⟨m, hm, he⟩
    exact hq ⟨m, by simp [hl, hm], he⟩
  have hbytes : ∀ x, x / 4096 * 4096 ∉ tables (child userEntries s.mem) n f →
      x / 4096 * 4096 ≠ g₀ * 4096 → x / 4096 * 4096 ∉ framesOf l₂ → x / 4096 * 4096 ≠ c →
      s₂.mem x = s'.mem x := fun x hxf hxg hxl hxc ↦
    (hi.bytes x (by rw [htab]; exact hxf) hxg hxl).trans (ho.bytes x hxg hxc)
  have hpage : ∀ t, 4096 ∣ t → t ∉ tables (child userEntries s.mem) n f →
      t ≠ g₀ * 4096 ∧ t ∉ framesOf l₂ → t ≠ c → ∀ j, entry s₂.mem t j = entry s'.mem t j := by
    intro t htd htf htg htc j
    refine entry_page htd (fun x hx ↦ ?_) j
    rw [← hx] at htf htg htc
    exact hbytes x htf htg.1 htg.2 htc
  have hdest : ∀ j, entry s₂.mem c j = entry s₁.mem c j := by
    intro j
    have hcf := hnew c hr.dest_apart.2
    have hct : c ∉ tables (child userEntries s.mem) n f := fun hm ↦ hr.dest_apart.1 (hsub c hm)
    refine entry_page hr.dest.1 (fun x hx ↦ ?_) j
    rw [← htab] at hct
    rw [← hx] at hcf hct
    exact hi.bytes x hct hcf.1 hcf.2
  refine ⟨(hdest i).trans ho.link, fun j hj ↦ (hdest j).trans (ho.keep j hj), fun t ht htf ↦ ?_, ?_,
    hbytes⟩
  · have htree : t ∉ framesOf free := fun hm ↦ hr.free_apart t hm ht
    exact hpage t (hr.aligned t ht).1 htf (hnew t htree) fun he ↦ hr.dest_apart.1 (he ▸ ht)
  · rintro t ⟨m, hm, rfl⟩
    have hmf : m * 4096 ∈ framesOf free := ⟨m, by simp [hl, hm], rfl⟩
    refine hpage _ (Nat.dvd_mul_left _ _) (fun ht ↦ hr.free_apart _ hmf (hsub _ ht))
      (hr.taken_ne hl ⟨m, hm, rfl⟩) fun he ↦ hr.dest_apart.2 (he ▸ hmf)

theorem StepFrame.side {f' : Nat} {l₂ : List Nat} (h : StepFrame n p c i f g l l₂ s s' s₂)
    (hr : CopyReady (n + 1) p c s free) (hf : child userEntries s.mem n p i = some f) (hj : j ≠ i)
    (hf' : child userEntries s.mem n p j = some f') :
    ∀ t ∈ tables (child userEntries s.mem) n f', ∀ j, entry s₂.mem t j = entry s'.mem t j :=
  fun t ht ↦ h.tree t (mem_tables_child hf' ht)
    (Set.disjoint_left.mp (hr.tree.2 j i f' f hf' hf hj) ht)

theorem CopyReady.frame_link {m : Nat} (hr : CopyReady m p c s free) (hg : g ∈ framesOf free) :
    frame (g ||| 7) = g := by
  obtain ⟨k, hk, rfl⟩ := hg
  have := hr.free_lt k hk
  exact frame_or (Nat.dvd_mul_left _ _) (by omega) (by decide)

/-- The subtree of the child at an earlier entry, before and after the step. -/
theorem CopyLoop.earlier {f' : Nat} {l₂ : List Nat} (h : CopyLoop n i.val p c s l s' free')
    (hr : CopyReady (n + 1) p c s free) (hl : framesOf l ⊆ framesOf free)
    (hf : child userEntries s.mem n p i = some f) (hs : StepFrame n p c i f g l l₂ s s' s₂)
    (hj : j.val < i.val) (hf' : child userEntries s.mem n p j = some f') :
    ∃ g' ∈ framesOf l, entry s₂.mem c j = g' ||| 7 ∧ Copied n s.mem s₂.mem f' g' (framesOf l) ∧
      frame (entry s₂.mem c j) = g' ∧ frame (entry s'.mem c j) = g' ∧
      tables (child userEntries s₂.mem) n g' = tables (child userEntries s'.mem) n g' := by
  have hne : j ≠ i := fun he ↦ Nat.lt_irrefl _ (he ▸ hj)
  obtain ⟨g', hg, hgl, hc⟩ := h.done j hj f' hf'
  have htaken : ∀ t ∈ tables (child userEntries s'.mem) n g', ∀ j,
      entry s₂.mem t j = entry s'.mem t j := fun t ht ↦
    hs.taken t ((hc.frames ht).elim (fun he ↦ he ▸ hg) id)
  have hkeep : tables (child userEntries s'.mem) n f' = tables (child userEntries s.mem) n f' :=
    tables_congr fun m t ht ↦ h.kept t (mem_tables_child hf' ht) m
  have hframe := hr.frame_link (hl hg)
  refine ⟨g', hg, (hs.dest j hne).trans hgl, hc.congr subset_rfl ?_ htaken, ?_, ?_,
    tables_congr fun m t ht ↦ child_congr (htaken t ht) m⟩
  · rw [hkeep]
    exact hs.side hr hf hne hf'
  · rw [hs.dest j hne, hgl, hframe]
  · rw [hgl, hframe]

/-- The new subtree of the child is made of pages that the others do not hold. -/
theorem CopyLoop.apart_step {g₀ : Nat} {l₂ free₂ : List Nat} (hr : CopyReady (n + 1) p c s free)
    (hl : free = l ++ g₀ :: (l₂ ++ free₂)) (h : CopyLoop n i.val p c s l s' free')
    (hf : child userEntries s.mem n p i = some f)
    (hs : StepFrame n p c i f (g₀ * 4096) l l₂ s s' s₂)
    (hi : LevelCopied n f (g₀ * 4096) s₁ l₂ s₂ free₂) :
    ∀ j j' : Fin 512, j.val < i.val + 1 → j'.val < i.val + 1 → j ≠ j' →
      ∀ f' f'', child userEntries s.mem n p j = some f' →
        child userEntries s.mem n p j' = some f'' →
        Disjoint (tables (child userEntries s₂.mem) n (frame (entry s₂.mem c j)))
          (tables (child userEntries s₂.mem) n (frame (entry s₂.mem c j'))) := by
  have hmono : framesOf l ⊆ framesOf free := framesOf_mono fun m hm ↦ by simp [hl, hm]
  have hself : frame (entry s₂.mem c i) = g₀ * 4096 := by
    rw [hs.link, hr.frame_link ⟨g₀, by simp [hl], rfl⟩]
  have hdis : ∀ j : Fin 512, j.val < i.val → ∀ f', child userEntries s.mem n p j = some f' →
      Disjoint (tables (child userEntries s₂.mem) n (frame (entry s₂.mem c j)))
        (tables (child userEntries s₂.mem) n (frame (entry s₂.mem c i))) := by
    intro j hj f' hf'
    obtain ⟨g', hg, -, hc, hfr, -⟩ := h.earlier hr hmono hf hs hj hf'
    rw [hfr, hself, Set.disjoint_left]
    -- a table of the new copy is `g₀` or one of the pages taken behind it
    intro t ht htg
    have htl := hr.taken_ne hl ((hc.frames ht).elim (fun he ↦ he ▸ hg) id)
    rcases hi.copied.frames htg with rfl | htg
    · exact htl.1 rfl
    · exact htl.2 htg
  -- two of the earlier copies, or one of them and the new one
  intro j j' hj hj' hne f' f'' hf' hf''
  rcases lt_succ_cases hj with hj | rfl
  · rcases lt_succ_cases hj' with hj' | rfl
    · obtain ⟨g', -, -, -, hfr, hfr', htab⟩ := h.earlier hr hmono hf hs hj hf'
      obtain ⟨g'', -, -, -, hfr₂, hfr₂', htab₂⟩ := h.earlier hr hmono hf hs hj' hf''
      have hap := h.apart j j' hj hj' hne f' f'' hf' hf''
      rw [hfr', hfr₂'] at hap
      rw [hfr, hfr₂, htab, htab₂]
      exact hap
    · exact hdis j hj f' hf'
  · rcases lt_succ_cases hj' with hj' | rfl
    · exact (hdis j' hj' f'' hf'').symm
    · exact absurd rfl hne

theorem CopyLoop.step {g₀ : Nat} {l₂ free₂ : List Nat} (hr : CopyReady (n + 1) p c s free)
    (hl : free = l ++ g₀ :: (l₂ ++ free₂)) (h : CopyLoop n i.val p c s l s' (g₀ :: (l₂ ++ free₂)))
    (hf : child userEntries s.mem n p i = some f) (ho : Opened c i (g₀ * 4096) s' s₁)
    (hcr3 : s₁.cr3 = s'.cr3) (hfree : FreeList s₁.alloc (l₂ ++ free₂))
    (hi : LevelCopied n f (g₀ * 4096) s₁ l₂ s₂ free₂) :
    CopyLoop n (i.val + 1) p c s (l ++ g₀ :: l₂) s₂ free₂ := by
  obtain ⟨hentry, -⟩ := h.inner_ready hr hl hf ho hfree
  have hchild : ∀ m, ∀ t ∈ tables (child userEntries s.mem) n f,
      child userEntries s₁.mem m t = child userEntries s.mem m t := fun m t ht ↦
    child_congr (hentry t ht) m
  have htab : tables (child userEntries s₁.mem) n f = tables (child userEntries s.mem) n f :=
    tables_congr hchild
  have hs := hr.stepFrame hl hf htab ho hi
  have hold : framesOf l ⊆ framesOf free := framesOf_mono fun m hm ↦ by simp [hl, hm]
  have hmono : framesOf l ⊆ framesOf (l ++ g₀ :: l₂) := framesOf_mono fun m ↦ List.mem_append_left _
  have hmono₂ : framesOf l₂ ⊆ framesOf (l ++ g₀ :: l₂) := framesOf_mono fun m hm ↦ by simp [hm]
  have hgm : g₀ * 4096 ∈ framesOf (l ++ g₀ :: l₂) := ⟨g₀, by simp, rfl⟩
  refine ⟨hi.freeList, hi.cr3.trans (hcr3.trans h.cr3), fun t ht m ↦ ?_, fun j hj f' hf' ↦ ?_,
    CopyLoop.apart_step hr hl h hf hs hi, fun j hj f' hf' t ht j' ↦ ?_, fun j ↦ ?_,
    fun j hj ↦ ?_, fun x hx hxc hxl ↦ ?_⟩
  · -- a table below entry `i` was copied by the inner level, another one was left alone
    by_cases htf : t ∈ tables (child userEntries s.mem) n f
    · rw [hi.kept t (by rw [htab]; exact htf), hchild m t htf]
    · rw [child_congr (hs.tree t ht htf), h.kept t ht]
  · -- the copies from before stay, and the new one hangs at `g₀`
    rcases lt_succ_cases hj with hj | rfl
    · obtain ⟨g, hg, hgl, hc, -⟩ := h.earlier hr hold hf hs hj hf'
      exact ⟨g, hmono hg, hgl, hc.congr hmono (fun _ _ _ ↦ rfl) fun _ _ _ ↦ rfl⟩
    · obtain rfl : f = f' := Option.some.inj (hf.symm.trans hf')
      have hleaf : ∀ q, leaf (child userEntries s₁.mem) (pageEntry s₁.mem) n f q =
          leaf (child userEntries s.mem) (pageEntry s.mem) n f q := fun q ↦
        leaf_congr hchild (fun t ht ↦ pageEntry_congr (hentry t ht)) q
      refine ⟨g₀ * 4096, hgm, hs.link, ⟨fun q ↦ ?_, fun q ↦ ?_, hi.copied.tree,
        hi.copied.frames.trans (Set.insert_subset_insert hmono₂)⟩⟩
      · rw [hi.copied.shared, hleaf]
      · rw [hi.copied.copy, hleaf]
  · have hne : j ≠ i := fun he ↦ Nat.not_succ_le_self _ (he ▸ hj)
    rw [hs.side hr hf hne hf' t ht, h.rest j (Nat.le_of_succ_le hj) f' hf' t ht]
  · rw [hs.tree p self_mem_tables (hr.tree.1 i f hf).2, h.parent]
  · have hne : j ≠ i := by
      rintro rfl
      rcases hj with hj | hj
      · exact Nat.not_succ_le_self _ hj
      · rw [hf] at hj
        cases hj
    rw [hs.dest j hne, h.dest j (hj.imp_left Nat.le_of_succ_le)]
  · -- a byte outside of the parent and of the pages that were taken
    have hxg : x / 4096 * 4096 ≠ g₀ * 4096 := fun he ↦ hxl (by rw [he]; exact hgm)
    rw [hs.bytes x (fun ht ↦ hx (mem_tables_child hf ht)) hxg (fun hm ↦ hxl (hmono₂ hm)) hxc,
      h.bytes x hx hxc fun hm ↦ hxl (hmono hm)]

/-- The sum of `g` over the first `k` entries. -/
def sumEntries (g : Fin 512 → Nat) : (k : Nat) → k ≤ 512 → Nat
  | 0, _ => 0
  | k + 1, h => sumEntries g k (loop_next h) + g ⟨k, h⟩

/-- How many tables the loop over the table `p` of height `n` allocates. -/
def copyCount (mem : Memory) : Nat → Nat → Nat
  | 0, _ => 0
  | n + 1, p => sumEntries (fun i ↦
      ((child userEntries mem n p i).map fun f ↦ copyCount mem n f + 1).getD 0) 512 loop_all

/-- What an entry of the table `p` adds to the count. -/
def entryCount (mem : Memory) (n p : Nat) (i : Fin 512) : Nat :=
  ((child userEntries mem n p i).map fun f ↦ copyCount mem n f + 1).getD 0

theorem copyCount_succ (mem : Memory) (n p : Nat) :
    copyCount mem (n + 1) p = sumEntries (entryCount mem n p) 512 loop_all := rfl

theorem sumEntries_congr {g g' : Fin 512 → Nat} (h : ∀ i, g' i = g i) (k : Nat) (hk : k ≤ 512) :
    sumEntries g' k hk = sumEntries g k hk := by
  rw [funext h]

theorem sumEntries_zero {g : Fin 512 → Nat} (h : ∀ i, g i = 0) (k : Nat) (hk : k ≤ 512) :
    sumEntries g k hk = 0 := by
  induction k with
  | zero => rfl
  | succ k ih => rw [sumEntries, ih, h]

theorem copyCount_congr (h : ∀ m, ∀ t ∈ tables (child userEntries mem) n p,
    child userEntries mem' m t = child userEntries mem m t) :
    copyCount mem' n p = copyCount mem n p := by
  induction n generalizing p with
  | zero => rfl
  | succ n ih =>
      rw [copyCount_succ, copyCount_succ]
      refine sumEntries_congr (fun i ↦ ?_) 512 _
      rw [entryCount, entryCount, h n p self_mem_tables]
      cases hf : child userEntries mem n p i with
      | none => rfl
      | some f =>
          rw [Option.map_some, Option.map_some,
            ih fun m t ht ↦ h m t (mem_tables_child hf ht)]

/-- What the loop over a table of height `n` is to do, when there are pages for its tables. -/
def LevelSpec (n : Nat) : Prop :=
  ∀ (p c : Nat) (s : Machine) (free : List Nat), CopyReady n p c s free →
    (∀ i, entry s.mem c i = 0) →
    ((copyLevel n (kptr p) (kptr c) s).alloc.HasFree ∨ copyCount s.mem n p ≤ free.length) →
    ∃ l free', free = l ++ free' ∧ l.length = copyCount s.mem n p ∧
      LevelCopied n p c s l (copyLevel n (kptr p) (kptr c) s) free'

theorem copyTableEntry_absent {inner : Nat → Nat → Machine → Machine} (hp : p < 2 ^ 31)
    (he : ¬ Present (entry s.mem p i)) :
    Machine.copyTableEntry Machine.tableAlloc inner (kptr p) c i s = s := by
  unfold Machine.copyTableEntry
  dsimp only
  rw [readEntry_kptr s hp, if_neg he]

theorem copyTableEntry_present {inner : Nat → Nat → Machine → Machine} (hp : p < 2 ^ 31)
    (he : Present (entry s.mem p i)) :
    Machine.copyTableEntry Machine.tableAlloc inner (kptr p) c i s =
      inner (kptr (frame (entry s.mem p i))) (s.tableAlloc c i 'V').1 (s.tableAlloc c i 'V').2 := by
  unfold Machine.copyTableEntry
  dsimp only
  rw [readEntry_kptr s hp, if_pos he]

/-- The loop over the first `k` entries of a table above the last level. -/
theorem copyLoop (hn : LevelSpec n) (hr : CopyReady (n + 1) p c s free) (hk : k ≤ 512)
    (hU : n = 2 → k ≤ 510)
    (hfree : (Machine.forEntries (Machine.copyTableEntry Machine.tableAlloc (copyLevel n)
      (kptr p) (kptr c)) k hk s).alloc.HasFree ∨ sumEntries (entryCount s.mem n p) k hk ≤
        free.length) :
    ∃ l free', free = l ++ free' ∧ l.length = sumEntries (entryCount s.mem n p) k hk ∧
      CopyLoop n k p c s l (Machine.forEntries (Machine.copyTableEntry Machine.tableAlloc
        (copyLevel n) (kptr p) (kptr c)) k hk s) free' := by
  induction k with
  | zero => exact ⟨[], free, rfl, rfl, .start hr.freeList⟩
  | succ k ih =>
      obtain ⟨s', hs'⟩ : ∃ s', Machine.forEntries (Machine.copyTableEntry Machine.tableAlloc
        (copyLevel n) (kptr p) (kptr c)) k (loop_next hk) s = s' := ⟨_, rfl⟩
      rw [Machine.forEntries, hs', sumEntries] at hfree
      rw [Machine.forEntries, hs', sumEntries]
      have ih := ih (loop_next hk) fun h ↦ Nat.le_of_succ_le (hU h)
      rw [hs'] at ih
      obtain ⟨m, hm⟩ := pops_copyTableEntry (pops_copyLevel n) (kptr p) (kptr c) ⟨k, hk⟩ s'
      obtain ⟨m', hm'⟩ := pops_forEntries (pops_copyTableEntry (pops_copyLevel n) (kptr p) (kptr c))
        k (loop_next hk) s
      rw [hs'] at hm'
      obtain ⟨j, -, hj⟩ := hm' free hr.freeList
      -- frames that are left behind the loop were left before its last round
      obtain ⟨l, free', hl, hlen, h⟩ := ih (hfree.imp
        (fun hf ↦ hj.hasFree_iff.mpr (hm.ne_nil hj hf)) fun hc ↦ (Nat.le_add_right _ _).trans hc)
      have hp := hr.aligned p self_mem_tables
      -- for a table of the parent the child gets one in the first free frame, which the loop of the
      -- level below fills
      by_cases he : Present (entry s'.mem p ⟨k, hk⟩)
      · have he' : Present (entry s.mem p ⟨k, hk⟩) := by rwa [h.parent] at he
        have hf : child userEntries s.mem n p ⟨k, hk⟩ = some (frame (entry s.mem p ⟨k, hk⟩)) := by
          refine child_of_present (fun h2 ↦ ?_) he'
          have := hU h2
          exact decide_eq_true (Fin.mk_lt_mk.mpr this)
        have hcount : entryCount s.mem n p ⟨k, hk⟩ =
            copyCount s.mem n (frame (entry s.mem p ⟨k, hk⟩)) + 1 := by
          rw [entryCount, hf]
          rfl
        have hne : free' ≠ [] := by
          rcases hfree with hfree | hfree
          · exact hm.ne_nil h.freeList hfree
          · rintro rfl
            rw [hcount, ← hlen, hl, List.append_nil] at hfree
            omega
        rw [copyTableEntry_present hp.2 he, h.parent] at hfree ⊢
        rw [hcount] at hfree ⊢
        generalize frame (entry s.mem p ⟨k, hk⟩) = f at hf hfree ⊢
        match free', hne with
        | g₀ :: free₁, _ =>
            have hg₀ := hr.free_lt g₀ (by simp [hl])
            have hcg : c ≠ g₀ * 4096 := fun he ↦ hr.dest_apart.2 ⟨g₀, by simp [hl], he⟩
            obtain ⟨ha, hf₁, hcr3, -⟩ :=
              tableAlloc_spec (i := ⟨k, hk⟩) h.freeList hg₀ hr.dest.2
            have ho := tableAlloc_opened (i := ⟨k, hk⟩) h.freeList hg₀ hr.dest hcg
            rw [ha] at hfree ⊢
            obtain ⟨hentry, hready⟩ := h.inner_ready (i := ⟨k, hk⟩) hr hl hf ho hf₁
            have hsame := copyCount_congr fun m t ht ↦ child_congr (hentry t ht) m
            obtain ⟨l₂, free₂, rfl, hlen₂, hi⟩ := hn f _ _ _ hready ho.empty (hfree.imp_right
              fun hc ↦ by
                rw [hsame]
                have := congrArg List.length hl
                simp only [List.length_append, List.length_cons] at this
                omega)
            refine ⟨l ++ g₀ :: l₂, free₂, by rw [hl]; simp, ?_,
              CopyLoop.step (i := ⟨k, hk⟩) hr hl h hf ho hcr3 hf₁ hi⟩
            rw [List.length_append, List.length_cons, hlen, hlen₂, hsame]
      · rw [copyTableEntry_absent hp.2 he]
        have he' : ¬ Present (entry s.mem p ⟨k, hk⟩) := by rwa [h.parent] at he
        have hc := child_of_absent (U := userEntries) (k := n) he'
        refine ⟨l, free', hl, ?_, CopyLoop.skip (i := ⟨k, hk⟩) h hc⟩
        rw [hlen, entryCount, hc]
        rfl

/-- A table whose entries lead to copies is a copy. -/
theorem Copied.node (hself : child userEntries mem' n p = child userEntries mem n p)
    (hold : ∀ i f, child userEntries mem n p i = some f →
      ∃ g ∈ T, child userEntries mem' n c i = some g ∧ Copied n mem mem' f g T)
    (hnone : ∀ i, child userEntries mem n p i = none → child userEntries mem' n c i = none)
    (hc : c ∉ T)
    (hapart : ∀ i j g g', child userEntries mem' n c i = some g →
      child userEntries mem' n c j = some g' → i ≠ j →
        Disjoint (tables (child userEntries mem') n g) (tables (child userEntries mem') n g')) :
    Copied (n + 1) mem mem' p c T := by
  have hentry : ∀ i g, child userEntries mem' n c i = some g →
      g ∈ T ∧ ∃ f, Copied n mem mem' f g T := by
    intro i g hg
    cases hf : child userEntries mem n p i with
    | none =>
        rw [hnone i hf] at hg
        cases hg
    | some f =>
        obtain ⟨g', hT, hg', hcop⟩ := hold i f hf
        obtain rfl : g = g' := Option.some.inj (hg.symm.trans hg')
        exact ⟨hT, f, hcop⟩
  have hsub : ∀ i g, child userEntries mem' n c i = some g →
      ∀ t ∈ tables (child userEntries mem') n g, t ∈ T := by
    intro i g hg t ht
    obtain ⟨hT, f, hcop⟩ := hentry i g hg
    rcases hcop.frames ht with rfl | ht
    · exact hT
    · exact ht
  refine ⟨fun q ↦ ?_, fun q ↦ ?_, ⟨fun i g hg ↦ ?_, hapart⟩, ?_⟩
  · -- the parent's pages, then the child's
    match q with
    | [] => rfl
    | i :: q =>
        rw [leaf, leaf, hself]
        cases hf : child userEntries mem n p i with
        | none => rfl
        | some f =>
            obtain ⟨g, -, -, hcop⟩ := hold i f hf
            exact hcop.shared q
  · match q with
    | [] => rfl
    | i :: q =>
        rw [leaf, leaf]
        cases hf : child userEntries mem n p i with
        | none =>
            rw [hnone i hf]
            rfl
        | some f =>
            obtain ⟨g, -, hg, hcop⟩ := hold i f hf
            rw [hg]
            exact hcop.copy q
  · obtain ⟨-, f, hcop⟩ := hentry i g hg
    exact ⟨hcop.tree, fun ht ↦ hc (hsub i g hg c ht)⟩
  · rintro t (rfl | ⟨i, g, hg, ht⟩)
    · exact .inl rfl
    · exact .inr (hsub i g hg t ht)

/-- What the loop leaves is a copy, when the entries it passes over are empty in the new table.
The memory `mem'` may differ in entries of `c` that the copy does not count. -/
theorem CopyLoop.copied (hr : CopyReady (n + 1) p c s free) (hl : free = l ++ free')
    (h : CopyLoop n k p c s l s' free')
    (hk : ∀ i f, child userEntries s.mem n p i = some f → i.val < k)
    (hz : ∀ i, child userEntries s.mem n p i = none → child userEntries s.mem n c i = none)
    (hpage : ∀ t, 4096 ∣ t → t ≠ c → ∀ j, entry mem' t j = entry s'.mem t j)
    (hent : ∀ i, child userEntries mem' n c i = child userEntries s'.mem n c i) :
    Copied (n + 1) s.mem mem' p c (framesOf l) := by
  have hlc : c ∉ framesOf l := fun ⟨m, hm, he⟩ ↦ hr.dest_apart.2 ⟨m, by simp [hl, hm], he⟩
  have hlp : ∀ t ∈ framesOf l, ∀ j, entry mem' t j = entry s'.mem t j := by
    rintro t ⟨m, hm, rfl⟩
    exact hpage _ (Nat.dvd_mul_left _ _) fun he ↦ hlc ⟨m, hm, he.symm⟩
  have hold : ∀ i f, child userEntries s.mem n p i = some f → ∃ g ∈ framesOf l,
      child userEntries s'.mem n c i = some g ∧ Copied n s.mem s'.mem f g (framesOf l) ∧
        ∀ t ∈ tables (child userEntries s'.mem) n g, t ∈ framesOf l := by
    intro i f hf
    obtain ⟨g, hg, hgl, hc⟩ := h.done i (hk i f hf) f hf
    obtain ⟨m, hm, rfl⟩ := hg
    have hlt := hr.free_lt m (by simp [hl, hm])
    refine ⟨_, ⟨m, hm, rfl⟩, ?_, hc, fun t ht ↦ ?_⟩
    · rw [child, if_pos ⟨(child_eq_some hf).2.2, by rw [hgl]; exact present_or (Nat.dvd_mul_left _ _)⟩,
        hgl, frame_or (Nat.dvd_mul_left _ _) (by omega) (by decide)]
    · rcases hc.frames ht with rfl | ht
      · exact ⟨m, hm, rfl⟩
      · exact ht
  have hnone : ∀ i, child userEntries s.mem n p i = none →
      child userEntries s'.mem n c i = none := by
    intro i hi
    rw [child, h.dest i (.inr hi)]
    exact hz i hi
  have hcong : ∀ {g}, (∀ t ∈ tables (child userEntries s'.mem) n g, t ∈ framesOf l) →
      tables (child userEntries mem') n g = tables (child userEntries s'.mem) n g := fun hg ↦
    tables_congr fun m t ht ↦ child_congr (hlp t (hg t ht)) m
  have hp : p ∈ tables (child userEntries s.mem) (n + 1) p := self_mem_tables
  -- the parent's tables are not where `mem'` differs
  have hsub : ∀ {i f}, child userEntries s.mem n p i = some f →
      ∀ t ∈ tables (child userEntries s'.mem) n f, ∀ j, entry mem' t j = entry s'.mem t j := by
    intro i f hf t ht
    rw [tables_congr fun m t ht ↦ h.kept t (mem_tables_child hf ht) m] at ht
    have htp : t ∈ tables (child userEntries s.mem) (n + 1) p := mem_tables_child hf ht
    exact hpage t (hr.aligned t htp).1 fun he ↦ hr.dest_apart.1 (he ▸ htp)
  refine .node ?_ (fun i f hf ↦ ?_) (fun i hi ↦ (hent i).trans (hnone i hi)) hlc
    fun i j g g' hg hg' hij ↦ ?_
  · have hpc : p ≠ c := fun he ↦ hr.dest_apart.1 (he ▸ hp)
    rw [child_congr (hpage p (hr.aligned p hp).1 hpc), h.kept p hp]
  · obtain ⟨g, hg, hgc, hc, hgl⟩ := hold i f hf
    exact ⟨g, hg, (hent i).trans hgc, hc.congr subset_rfl (hsub hf) fun t ht ↦ hlp t (hgl t ht)⟩
  · -- the copies of two entries share no table, as the loop took other frames for each
    rw [hent] at hg hg'
    cases hf : child userEntries s.mem n p i with
    | none =>
        rw [hnone i hf] at hg
        cases hg
    | some f =>
        cases hf' : child userEntries s.mem n p j with
        | none =>
            rw [hnone j hf'] at hg'
            cases hg'
        | some f' =>
            obtain ⟨g₁, -, hg₁, -, hgl⟩ := hold i f hf
            obtain rfl : g = g₁ := Option.some.inj (hg.symm.trans hg₁)
            obtain ⟨g₂, -, hg₂, -, hgl'⟩ := hold j f' hf'
            obtain rfl : g' = g₂ := Option.some.inj (hg'.symm.trans hg₂)
            have := h.apart i j (hk i f hf) (hk j f' hf') hij f f' hf hf'
            rw [(child_eq_some hg).2.1, (child_eq_some hg').2.1] at this
            rwa [hcong hgl, hcong hgl']

theorem CopyLoop.level (hr : CopyReady (n + 1) p c s free) (hl : free = l ++ free')
    (hz : ∀ i, entry s.mem c i = 0) (h : CopyLoop n 512 p c s l s' free') :
    LevelCopied (n + 1) p c s l s' free' := by
  refine ⟨h.freeList, h.cr3, h.kept, h.copied hr hl (fun i _ _ ↦ i.isLt) (fun i _ ↦ ?_)
    (fun _ _ _ _ ↦ rfl) fun _ ↦ rfl, h.bytes⟩
  refine child_of_absent ?_
  rw [hz]
  exact not_present_zero

theorem levelSpec (n : Nat) : n ≤ 2 → LevelSpec n := by
  induction n with
  | zero =>
      intro _ p c s free hr hz _
      exact ⟨[], free, rfl, rfl, levelCopied_zero hr hz⟩
  | succ n ih =>
      intro hn p c s free hr hz hfree
      obtain ⟨l, free', hl, hlen, h⟩ := copyLoop (ih (Nat.le_of_succ_le hn)) hr loop_all
        (by omega) hfree
      exact ⟨l, free', hl, hlen, h.level hr hl hz⟩

/-! ## The whole copy -/

/-- No entry of the new top-level table is left over from earlier use of its frame, but where the
parent has one. -/
def NoStale (mem : Memory) (p c : Nat) : Prop :=
  ∀ i : Fin 512, i < 510 → ¬ Present (entry mem p i) → ¬ Present (entry mem c i)

/-- What the copy of the tables at `p` to `c` does, with the pages `l` taken. -/
structure ForkedTables (p c : Nat) (s : Machine) (l : List Nat) (s' : Machine)
    (free' : List Nat) : Prop where
  freeList : FreeList s'.alloc free'
  cr3 : s'.cr3 = s.cr3
  kept : ∀ t ∈ tableFrames userEntries s.mem p, ∀ m,
    child userEntries s'.mem m t = child userEntries s.mem m t
  pages : ∀ q, pageAt userEntries s'.mem p q = (pageAt userEntries s.mem p q).map cow
  copied : NoStale s.mem p c → Copied 3 s.mem s'.mem p c (framesOf l)
  parent : ∀ j, entry s'.mem p j = entry s.mem p j
  kernel : entry s'.mem c 511 = entry s.mem p 511
  stale : ∀ i : Fin 512, i < 510 → ¬ Present (entry s.mem p i) → entry s'.mem c i = entry s.mem c i
  bytes : ∀ x, x / 4096 * 4096 ∉ tableFrames userEntries s.mem p → x / 4096 * 4096 ≠ c →
    x / 4096 * 4096 ∉ framesOf l → s'.mem x = s.mem x

theorem CopyLoop.pages (h : CopyLoop n k p c s l s' free')
    (hk : ∀ i f, child userEntries s.mem n p i = some f → i.val < k) (q : List (Fin 512)) :
    leaf (child userEntries s'.mem) (pageEntry s'.mem) (n + 1) p q =
      (leaf (child userEntries s.mem) (pageEntry s.mem) (n + 1) p q).map cow := by
  match q with
  | [] => rfl
  | i :: q =>
      rw [leaf, leaf, h.kept p self_mem_tables]
      cases hf : child userEntries s.mem n p i with
      | none => rfl
      | some f =>
          obtain ⟨g, -, -, hc⟩ := h.done i (hk i f hf) f hf
          exact hc.shared q

/-- The entries of the kernel are the same in both top-level tables. -/
theorem forkTables_eq (hp : s.cr3 < 2 ^ 31) (hc : c < 2 ^ 31) :
    (s.forkTables c) = { s.copyPml4e (kptr s.cr3) (kptr c) with
      mem := ((s.copyPml4e (kptr s.cr3) (kptr c)).mem.store64 (c + 8 * (511 : Fin 512))
        (entry (s.copyPml4e (kptr s.cr3) (kptr c)).mem s.cr3 511)).store64
          (c + 8 * (510 : Fin 512))
          (entry ((s.copyPml4e (kptr s.cr3) (kptr c)).mem.store64 (c + 8 * (511 : Fin 512))
            (entry (s.copyPml4e (kptr s.cr3) (kptr c)).mem s.cr3 511)) s.cr3 510) } := by
  unfold Machine.forkTables
  dsimp only
  simp only [Machine.writeEntry, Machine.readEntry, phys_kptr hp, phys_kptr hc]

/-- How many tables `forkSyscall` allocates below the child's top-level table. -/
def forkCount (mem : Memory) (p : Nat) : Nat := sumEntries (entryCount mem 2 p) 510 loop_user

theorem forkCount_congr (h : ∀ m, ∀ t ∈ tableFrames userEntries mem p,
    child userEntries mem' m t = child userEntries mem m t) : forkCount mem' p = forkCount mem p := by
  have hp : p ∈ tableFrames userEntries mem p := self_mem_tables
  have hi : entryCount mem' 2 p = entryCount mem 2 p := by
    funext i
    rw [entryCount, entryCount, h 2 p hp]
    cases hf : child userEntries mem 2 p i with
    | none => rw [Option.map_none, Option.map_none]
    | some f =>
        rw [Option.map_some, Option.map_some,
          copyCount_congr fun m t ht ↦ h m t (mem_tables_child hf ht)]
  unfold forkCount
  rw [hi]

theorem forkCount_zero (h : ∀ i, child userEntries mem 2 p i = none) : forkCount mem p = 0 :=
  sumEntries_zero (fun i ↦ by rw [entryCount, h]; rfl) 510 loop_user

theorem forkTables_spec (hr : CopyReady 3 s.cr3 c s free)
    (hfree : (s.forkTables c).alloc.HasFree ∨ forkCount s.mem s.cr3 ≤ free.length) :
    ∃ l free', free = l ++ free' ∧ l.length = forkCount s.mem s.cr3 ∧
      ForkedTables s.cr3 c s l (s.forkTables c) free' := by
  have hpm : s.cr3 ∈ tableFrames userEntries s.mem s.cr3 := self_mem_tables
  obtain ⟨hpd, hpl⟩ := hr.aligned s.cr3 hpm
  have hpc : s.cr3 ≠ c := fun he ↦ hr.dest_apart.1 (he ▸ hpm)
  rw [forkTables_eq hpl hr.dest.2] at hfree ⊢
  rw [copyPml4e_eq] at hfree ⊢
  obtain ⟨l, free', hl, hlen, h⟩ := copyLoop (levelSpec 2 (Nat.le_refl 2)) hr (k := 510)
    loop_user (fun _ ↦ Nat.le_refl 510) hfree
  generalize Machine.forEntries (Machine.copyTableEntry Machine.tableAlloc (copyLevel 2)
    (kptr s.cr3) (kptr c)) 510 loop_user s = s' at h ⊢
  have hU : ∀ i f, child userEntries s.mem 2 s.cr3 i = some f → i.val < 510 := by
    intro i f hf
    have := of_decide_eq_true ((child_eq_some hf).2.2 rfl)
    exact this
  -- the two entries that are copied last are not the user's
  set e₁ := entry s'.mem s.cr3 511 with he₁
  set e₂ := entry (s'.mem.store64 (c + 8 * (511 : Fin 512)) e₁) s.cr3 510 with he₂
  set mem' := (s'.mem.store64 (c + 8 * (511 : Fin 512)) e₁).store64 (c + 8 * (510 : Fin 512)) e₂
    with hmem'
  have hpage : ∀ t, 4096 ∣ t → t ≠ c → ∀ j, entry mem' t j = entry s'.mem t j := by
    intro t htd htc j
    rw [hmem', entry_store64_of_ne hr.dest.1 htd (by simp [htc]),
      entry_store64_of_ne hr.dest.1 htd (by simp [htc])]
  have hlow : ∀ i : Fin 512, i < 510 → entry mem' c i = entry s'.mem c i := by
    intro i hi
    have h1 : i ≠ 510 := fun he ↦ by simp [he] at hi
    have h2 : i ≠ 511 := fun he ↦ by simp [he] at hi
    rw [hmem', entry_store64_of_ne hr.dest.1 hr.dest.1 (by simp [h1]),
      entry_store64_of_ne hr.dest.1 hr.dest.1 (by simp [h2])]
  have hent : ∀ i, child userEntries mem' 2 c i = child userEntries s'.mem 2 c i := by
    intro i
    by_cases hi : i < 510
    · rw [child, child, hlow i hi]
    · have hu : ¬ userEntries i := by simpa [userEntries] using hi
      simp [child, hu]
  have htab : ∀ t ∈ tableFrames userEntries s.mem s.cr3, ∀ j, entry mem' t j = entry s'.mem t j :=
    fun t ht ↦ hpage t (hr.aligned t ht).1 fun he ↦ hr.dest_apart.1 (he ▸ ht)
  have hkept : ∀ t ∈ tableFrames userEntries s.mem s.cr3, ∀ m,
      child userEntries mem' m t = child userEntries s.mem m t := fun t ht m ↦
    (child_congr (htab t ht) m).trans (h.kept t ht m)
  refine ⟨l, free', hl, hlen, h.freeList, h.cr3, hkept, fun q ↦ ?_, fun hns ↦ ?_, fun j ↦ ?_, ?_,
    fun i hi hpi ↦ ?_, fun x hx hxc hxl ↦ ?_⟩
  · have htree : tableFrames userEntries s'.mem s.cr3 = tableFrames userEntries s.mem s.cr3 :=
      tables_congr fun m t ht ↦ h.kept t ht m
    rw [pageAt, leaf_congr (fun m t ht ↦ child_congr (htab t (htree ▸ ht)) m)
      (fun t ht ↦ pageEntry_congr (htab t (htree ▸ ht))) q]
    exact h.pages hU q
  · refine h.copied hr hl hU (fun i hi ↦ ?_) hpage hent
    rw [child] at hi ⊢
    split at hi
    · cases hi
    · rename_i hi'
      rw [if_neg]
      rintro ⟨hu, hp⟩
      have hui := of_decide_eq_true (hu rfl)
      exact hns i hui (fun hpp ↦ hi' ⟨hu, hpp⟩) hp
  · rw [hpage s.cr3 hpd hpc, h.parent]
  · rw [hmem', entry_store64_of_ne hr.dest.1 hr.dest.1 (by simp),
      entry_store64_self (entry_lt _ _ _), h.parent]
  · rw [hlow i hi]
    refine h.dest i (.inr (child_of_absent hpi))
  · change mem' x = s.mem x
    rw [hmem', store64_of_ne hr.dest.1 hxc, store64_of_ne hr.dest.1 hxc, h.bytes x hx hxc hxl]

end Sbunix
