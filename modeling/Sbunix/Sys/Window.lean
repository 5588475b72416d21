import Sbunix.Sys.Frames

/-!
# The kernel's window

`phy2vir` maps every frame into the window, with tables that all processes share under entry 511.
So `map_v_p2` on an address of the window, and `kmalloc` with it, takes no table and rewrites one
entry of the last level.
-/

namespace Sbunix

open Reasoning

variable {U U' : Fin 512 → Bool} {s s' s'' : Machine} {mem mem' : Memory} {r t w v p n k : Nat}
  {i : Fin 512} {free free' : List Nat}

/-! ## Addresses whose tables are there -/

/-- Below the top level the choice of entries makes no difference. -/
theorem child_low (hk : k ≠ 2) : child U mem k t = child U' mem k t := by
  funext i
  simp only [child, hk, false_implies, true_and]

theorem nextTable_of_child {c : Nat} (ht : t < 2 ^ 31) (hc : child U s.mem k t i = some c) :
    Machine.nextTable Machine.tableAlloc s (kptr t) i = (kptr c, s) := by
  obtain ⟨hp, hf, -⟩ := child_eq_some hc
  rw [nextTable_present ht hp, hf]

/-- The tables that `v` is translated through, under `r`. -/
structure Walk (mem : Memory) (r v t₁ t₂ t₃ : Nat) : Prop where
  top : child allEntries mem 2 r (getIndex v 39) = some t₁
  mid : child allEntries mem 1 t₁ (getIndex v 30) = some t₂
  low : child allEntries mem 0 t₂ (getIndex v 21) = some t₃
  root_lt : r < 2 ^ 31
  top_lt : t₁ < 2 ^ 31
  mid_lt : t₂ < 2 ^ 31
  low_lt : t₃ < 2 ^ 31

variable {t₁ t₂ t₃ : Nat}

theorem mapVP2_of_walk (h : Walk s.mem s.cr3 v t₁ t₂ t₃) :
    s.mapVP2 v p = { s with mem := s.mem.store64 (t₃ + 8 * getIndex v 12) (p ||| 7) } := by
  rw [mapVP2_eq, nextTable_of_child h.root_lt h.top]
  dsimp only
  rw [nextTable_of_child h.top_lt h.mid]
  dsimp only
  rw [nextTable_of_child h.mid_lt h.low]
  dsimp only
  rw [Machine.writeEntry, phys_kptr h.low_lt]

theorem physicalAddress_of_walk (h : Walk s.mem s.cr3 v t₁ t₂ t₃) :
    s.physicalAddress v = some (entry s.mem t₃ (getIndex v 12)) := by
  obtain ⟨hp₁, hf₁, -⟩ := child_eq_some h.top
  obtain ⟨hp₂, hf₂, -⟩ := child_eq_some h.mid
  obtain ⟨hp₃, hf₃, -⟩ := child_eq_some h.low
  unfold Machine.physicalAddress Machine.readEntry
  simp only [phys_kptr h.root_lt, hf₁, phys_kptr h.top_lt, hf₂, phys_kptr h.mid_lt, hf₃,
    phys_kptr h.low_lt]
  rw [if_neg hp₁, if_neg hp₂, if_neg hp₃]

/-! ## The shared tables -/

/-- The tables of the window, of which `w` is the topmost. -/
abbrev windowFrames (mem : Memory) (w : Nat) : Set Nat := tables (child userEntries mem) 2 w

/-- The entries that lead from `w` to the table for page `n`. -/
def windowPath (n : Nat) : List (Fin 512) :=
  [getIndex (kptr (n * 4096)) 30, getIndex (kptr (n * 4096)) 21]

/-- The tables at `w` map the window, up to the pages of the list. -/
structure Window (mem : Memory) (w : Nat) (free : List Nat) : Prop where
  tree : IsTree (child userEntries mem) 2 w
  aligned : ∀ t ∈ windowFrames mem w, 4096 ∣ t ∧ t < 2 ^ 31
  direct : ∀ n ∈ free, ∃ t, descend (child userEntries mem) 2 w (windowPath n) = some t
  apart : ∀ f ∈ framesOf free, f ∉ windowFrames mem w

theorem kptr_index (h : p < 2 ^ 31) : getIndex (kptr p) 39 = 511 := by
  refine Fin.ext ?_
  rw [getIndex_val, kptr_eq h]
  simp only [kernBase]
  change _ = 511
  omega

theorem Window.walk (h : Window mem w free) (hn : n ∈ free) (hlt : n < 2 ^ 19) (hr : r < 2 ^ 31)
    (hw : child allEntries mem 2 r 511 = some w) :
    ∃ t₂ t₃, Walk mem r (kptr (n * 4096)) w t₂ t₃ ∧
      descend (child userEntries mem) 2 w (windowPath n) = some t₃ := by
  obtain ⟨t₃, ht₃⟩ := h.direct n hn
  have hd := ht₃
  rw [windowPath, descend, Option.bind_eq_some_iff] at hd
  obtain ⟨t₂, ht₂, hd⟩ := hd
  rw [descend, Option.bind_eq_some_iff] at hd
  obtain ⟨c, hc, hd⟩ := hd
  obtain rfl : c = t₃ := Option.some.inj hd
  have hm₂ : t₂ ∈ windowFrames mem w := mem_tables_child ht₂ self_mem_tables
  have hm₃ : c ∈ windowFrames mem w := descend_mem ht₃
  refine ⟨t₂, c, ⟨?_, ?_, ?_, hr, (h.aligned w self_mem_tables).2, (h.aligned t₂ hm₂).2,
    (h.aligned c hm₃).2⟩, ht₃⟩
  · rw [kptr_index (by omega)]
    exact hw
  · exact (congrFun (child_low (by decide)) _).trans ht₂
  · exact (congrFun (child_low (by decide)) _).trans hc

/-- The tables that are loaded share the window, and pages of the list are free. -/
structure Ready (w : Nat) (s : Machine) (free : List Nat) : Prop where
  freeList : FreeList s.alloc free
  free_lt : ∀ n ∈ free, n < 2 ^ 19
  window : Window s.mem w free
  root : 4096 ∣ s.cr3 ∧ s.cr3 < 2 ^ 31
  root_apart : s.cr3 ∉ windowFrames s.mem w ∧ s.cr3 ∉ framesOf free
  shared : child allEntries s.mem 2 s.cr3 511 = some w

/-- What the kernel's own allocations do to the machine: frames are taken and written to, and the
last level of the window is. -/
structure Kept (w : Nat) (s : Machine) (free : List Nat) (s' : Machine) (free' : List Nat) :
    Prop where
  ready : Ready w s' free'
  cr3 : s'.cr3 = s.cr3
  frames : windowFrames s'.mem w = windowFrames s.mem w
  taken : ∃ l, free = l ++ free' ∧ ∀ x, x / 4096 * 4096 ∉ windowFrames s.mem w →
    x / 4096 * 4096 ∉ framesOf l → s'.mem x = s.mem x

theorem Kept.refl (h : Ready w s free) : Kept w s free s free :=
  ⟨h, rfl, rfl, [], rfl, fun _ _ _ ↦ rfl⟩

theorem Kept.trans {free'' : List Nat} (h : Kept w s free s' free')
    (h' : Kept w s' free' s'' free'') : Kept w s free s'' free'' := by
  obtain ⟨l, rfl, hl⟩ := h.taken
  obtain ⟨l', rfl, hl'⟩ := h'.taken
  refine ⟨h'.ready, h'.cr3.trans h.cr3, h'.frames.trans h.frames, l ++ l', by rw [List.append_assoc],
    fun x hx hx' ↦ ?_⟩
  rw [framesOf_append, Set.mem_union, not_or] at hx'
  rw [hl' x (by rw [h.frames]; exact hx) hx'.2, hl x hx hx'.1]

/-- A page written to below the window leaves the window as it was. -/
theorem Window.congr (h : Window mem w free) (hs : SameOn (windowFrames mem w) mem mem') :
    Window mem' w free ∧ windowFrames mem' w = windowFrames mem w := by
  have hc : ∀ k, ∀ u ∈ windowFrames mem w, child userEntries mem' k u = child userEntries mem k u :=
    fun k u hu ↦ child_congr (hs.entry (h.aligned u hu).1 hu) k
  have ht : windowFrames mem' w = windowFrames mem w := tables_congr hc
  refine ⟨⟨h.tree.congr hc, ?_, fun n hn ↦ ?_, ?_⟩, ht⟩
  · rw [ht]
    exact h.aligned
  · obtain ⟨t, ht⟩ := h.direct n hn
    exact ⟨t, (descend_congr hc _).trans ht⟩
  · rw [ht]
    exact h.apart

theorem Window.tail (h : Window mem w (n :: free)) : Window mem w free :=
  ⟨h.tree, h.aligned, fun m hm ↦ h.direct m (List.mem_cons_of_mem n hm),
    fun _ ⟨m, hm, hf⟩ ↦ h.apart _ ⟨m, List.mem_cons_of_mem n hm, hf⟩⟩

/-- Rewriting an entry of the last level. -/
theorem Window.store (h : Window mem w free) {e : Nat}
    {l : List (Fin 512)} (ht : descend (child userEntries mem) 2 w l = some t)
    (hl : l.length = 2) :
    Window (mem.store64 (t + 8 * i) e) w free ∧
      windowFrames (mem.store64 (t + 8 * i) e) w = windowFrames mem w ∧
      descend (child userEntries (mem.store64 (t + 8 * i) e)) 2 w l = some t := by
  have hta := (h.aligned t (descend_mem ht)).1
  have hc : ∀ m, ∀ u ∈ windowFrames mem w, u ≠ t →
      child userEntries (mem.store64 (t + 8 * i) e) m u = child userEntries mem m u :=
    fun m u hu hut ↦ child_congr (fun j ↦
      entry_store64_of_ne hta (h.aligned u hu).1 (by simp [hut])) m
  obtain ⟨htab, htree, hdesc⟩ := valueTable_spec h.tree hl ht hc
  refine ⟨⟨htree, ?_, fun n hn ↦ ?_, ?_⟩, htab, (hdesc l).trans ht⟩
  · rw [windowFrames, htab]
    exact h.aligned
  · rw [hdesc]
    exact h.direct n hn
  · rw [windowFrames, htab]
    exact h.apart

/-- `kmalloc` writes its page and one entry of the window's last level, which maps the page. -/
theorem kmalloc_page (h : Ready w s (n :: free)) :
    ∃ t mem, s.kmalloc = (kptr (n * 4096), { s.allocatePage.2 with mem := mem }) ∧
      Window mem w (n :: free) ∧ windowFrames mem w = windowFrames s.mem w ∧
      descend (child userEntries mem) 2 w (windowPath n) = some t ∧
      entry mem t (getIndex (kptr (n * 4096)) 12) = n * 4096 ||| 7 ∧
      ∀ x, x / 4096 * 4096 ∉ windowFrames s.mem w → x / 4096 * 4096 ∉ framesOf [n] →
        mem x = s.mem x := by
  have hn := h.free_lt n List.mem_cons_self
  obtain ⟨ha, -, -, -⟩ := allocatePage_spec h.freeList
  obtain ⟨t₂, t₃, hwalk, hdesc⟩ :=
    h.window.walk List.mem_cons_self hn h.root.2 h.shared
  have hw : Walk s.allocatePage.2.mem s.allocatePage.2.cr3 (kptr (n * 4096)) w t₂ t₃ := hwalk
  have hmap := mapVP2_of_walk (p := n * 4096) hw
  have hk : s.kmalloc = (kptr (n * 4096), { s.allocatePage.2 with
      mem := (s.mem.store64 (t₃ + 8 * getIndex (kptr (n * 4096)) 12) (n * 4096 ||| 7)).fill
        (n * 4096) 4096 0 }) := by
    unfold Machine.kmalloc
    dsimp only
    rw [ha, hmap, Machine.memset, phys_kptr (by omega)]
    rfl
  have ht₃ := descend_mem hdesc
  obtain ⟨hwin, hframes, hstays⟩ := h.window.store (i := getIndex (kptr (n * 4096)) 12)
    (e := n * 4096 ||| 7) hdesc rfl
  set mem₁ := s.mem.store64 (t₃ + 8 * getIndex (kptr (n * 4096)) 12) (n * 4096 ||| 7) with hmem₁
  -- the new frame is none of the window's tables
  have hnw : n * 4096 ∉ windowFrames mem₁ w := by
    rw [hframes]
    exact h.window.apart _ ⟨n, List.mem_cons_self, rfl⟩
  have hfill : ∀ x, x / 4096 * 4096 ≠ n * 4096 → mem₁.fill (n * 4096) 4096 0 x = mem₁ x :=
    fun x hx ↦ Memory.fill_apply_of_lt (by omega)
  have hstore : ∀ x, x / 4096 * 4096 ∉ windowFrames s.mem w → mem₁ x = s.mem x := by
    intro x hx
    have hne : x / 4096 * 4096 ≠ t₃ := fun he ↦ hx (he ▸ ht₃)
    obtain ⟨m, hm⟩ := (h.window.aligned t₃ ht₃).1
    exact Memory.store64_apply_of_lt (by omega)
  have hsame : SameOn (windowFrames mem₁ w) mem₁ (mem₁.fill (n * 4096) 4096 0) := fun x hx ↦
    hfill x fun he ↦ hnw (he ▸ hx)
  obtain ⟨hwin', hframes'⟩ := hwin.congr hsame
  have hmem₃ : t₃ ∈ windowFrames mem₁ w := by rwa [hframes]
  refine ⟨t₃, _, hk, hwin', hframes'.trans hframes, ?_, ?_, fun x hx hxn ↦ ?_⟩
  · rw [← hstays]
    exact descend_congr (fun k u hu ↦ child_congr (hsame.entry (hwin.aligned u hu).1 hu) k) _
  · have hlt : n * 4096 ||| 7 < 2 ^ 64 := Nat.or_lt_two_pow (by omega) (by decide)
    rw [hsame.entry (hwin.aligned t₃ hmem₃).1 hmem₃, hmem₁]
    exact entry_store64_self hlt
  · rw [hfill x fun he ↦ hxn ⟨n, List.mem_singleton_self n, he⟩, hstore x hx]

theorem kmalloc_kept (h : Ready w s (n :: free)) :
    s.kmalloc.1 = kptr (n * 4096) ∧ Kept w s (n :: free) s.kmalloc.2 free := by
  obtain ⟨-, hf, -, -⟩ := allocatePage_spec h.freeList
  obtain ⟨t, mem, hk, hwin, hframes, -, -, hbytes⟩ := kmalloc_page h
  have hroot : SameOn {s.cr3} s.mem mem := by
    intro x hx
    rw [Set.mem_singleton_iff] at hx
    refine hbytes x (by rw [hx]; exact h.root_apart.1) ?_
    rw [hx]
    exact fun ⟨m, hm, he⟩ ↦ h.root_apart.2 ⟨m, by simpa using .inl (by simpa using hm), he⟩
  rw [hk]
  refine ⟨rfl, ⟨hf, fun m hm ↦ h.free_lt m (List.mem_cons_of_mem n hm), hwin.tail, h.root, ?_, ?_⟩,
    rfl, hframes, [n], rfl, hbytes⟩
  · refine ⟨?_, fun ⟨m, hm, he⟩ ↦ h.root_apart.2 ⟨m, List.mem_cons_of_mem n hm, he⟩⟩
    rw [hframes]
    exact h.root_apart.1
  · refine Eq.trans ?_ h.shared
    exact congrFun (child_congr (hroot.entry h.root.1 rfl) 2) 511

theorem kmalloc_mapped (h : Ready w s (n :: free)) :
    s.kmalloc.2.physicalAddress (kptr (n * 4096)) = some (n * 4096 ||| 7) := by
  obtain ⟨t, mem, hk, hwin, -, hdesc, hentry, -⟩ := kmalloc_page h
  have hkept := (kmalloc_kept h).2.ready
  rw [hk] at hkept ⊢
  obtain ⟨t₂, t₃, hwalk, ht₃⟩ := hwin.walk List.mem_cons_self (h.free_lt n List.mem_cons_self)
    hkept.root.2 hkept.shared
  obtain rfl : t = t₃ := Option.some.inj (hdesc.symm.trans ht₃)
  rw [physicalAddress_of_walk hwalk, hentry]

/-! ## Two megabytes of memory -/

/-- The words of a machine whose window reaches over its first 512 pages.  Entry 0 of the top-level
table at page 1 is `user`, word 1 of page 21 is `stale`; pages 5 to 7 and 9 to 11 hold the lower
tables of two trees that both lead to page 8. -/
def bootWords (user stale w : Nat) : Nat :=
  if 0x800 ≤ w ∧ w < 0xa00 then (w - 0x800) * 4096 + 3
  else if w = 0x200 then user else if w = 0x3ff then 0x2007 else if w = 0x5fe then 0x3007
  else if w = 0x600 then 0x4007
  else if w = 0xa00 then 0x6007 else if w = 0xc00 then 0x7007 else if w = 0xe00 then 0x8007
  else if w = 0x1200 then 0xa007 else if w = 0x1400 then 0xb007 else if w = 0x1600 then 0x8007
  else if w = 0x2a01 then stale else 0

/-- Pages 20 to 63 are free. -/
def bootSpace (user stale : Nat) : Machine where
  mem := .ofWords (bootWords user stale)
  cr3 := 0x1000
  alloc :=
    { pageMap := fun n ↦ if n < 20 then 0 else if n < 64 then n + 1 else noPage, base := 0xc000,
      firstFreepage := 20, lastPage := 64 }

section
variable {user stale : Nat} {U : Fin 512 → Bool}

theorem bootWords_zero {n : Nat} (h : n ∉ [0x200, 0x3ff, 0x5fe, 0x600, 0xa00, 0xc00, 0xe00, 0x1200,
    0x1400, 0x1600, 0x2a01]) (h' : n < 0x800 ∨ 0xa00 ≤ n) : bootWords user stale n = 0 := by
  simp only [List.mem_cons, List.not_mem_nil, or_false, not_or] at h
  obtain ⟨h1, h2, h3, h4, h5, h6, h7, h8, h9, h10, h11⟩ := h
  rw [bootWords, if_neg (by omega), if_neg h1, if_neg h2, if_neg h3, if_neg h4, if_neg h5,
    if_neg h6, if_neg h7, if_neg h8, if_neg h9, if_neg h10, if_neg h11]

theorem bootSpace_entry (user stale n : Nat) (i : Fin 512) :
    entry (bootSpace user stale).mem (n * 4096) i =
    bootWords user stale (512 * n + i.val) % 2 ^ 64 := by
  rw [entry, show n * 4096 + 8 * i.val = 8 * (512 * n + i.val) by omega]
  exact Memory.load64_ofWords

/-- A table of the boot machine with one entry. -/
theorem bootSpace_child {n k : Nat} {i : Fin 512} {e : Nat}
    (he : bootWords user stale (512 * n + i.val) % 2 ^ 64 = e) (hp : Present e)
    (hU : k = 2 → U i)
    (hz : ∀ j : Fin 512, j.val ≠ i.val → bootWords user stale (512 * n + j.val) = 0) (j : Fin 512) :
    child U (bootSpace user stale).mem k (n * 4096) j = if j = i then some (frame e) else none := by
  by_cases hj : j = i
  · rw [hj, if_pos rfl, child, bootSpace_entry, he, if_pos ⟨hU, hp⟩]
  · rw [if_neg hj]
    refine child_of_absent ?_
    rw [bootSpace_entry, hz j fun hv ↦ hj (Fin.ext hv)]
    exact not_present_zero

theorem bootSpace_freeList (user stale : Nat) :
    FreeList (bootSpace user stale).alloc (List.range' 20 44) := by
  refine freeList_range' rfl rfl (fun n hn hn' ↦ ?_) rfl (fun n hn ↦ if_pos hn) (by decide)
  exact (if_neg (by omega)).trans (if_pos (by omega))

theorem bootSpace_window (user stale : Nat) :
    windowFrames (bootSpace user stale).mem 0x2000 = {0x2000, 0x3000, 0x4000} ∧
      Window (bootSpace user stale).mem 0x2000 (List.range' 20 44) := by
  -- two tables with one entry each
  have hw : ∀ j, child userEntries (bootSpace user stale).mem 1 0x2000 j =
      if j = 510 then some 0x3000 else none :=
    bootSpace_child (n := 2) (i := 510) (e := 0x3007) rfl (by decide) (by decide)
      fun j hj ↦ bootWords_zero (by simp; omega) (by omega)
  have hd : ∀ j, child userEntries (bootSpace user stale).mem 0 0x3000 j =
      if j = 0 then some 0x4000 else none :=
    bootSpace_child (n := 3) (i := 0) (e := 0x4007) rfl (by decide) (by decide)
      fun j hj ↦ bootWords_zero (by simp at hj ⊢; omega) (by omega)
  have ht : windowFrames (bootSpace user stale).mem 0x2000 = {0x2000, 0x3000, 0x4000} := by
    rw [windowFrames, tables_single hw, tables_single hd]
    rfl
  refine ⟨ht, .single (.single trivial hd ?_) hw ?_, ?_, fun n hn ↦ ⟨0x4000, ?_⟩, ?_⟩
  · exact fun h ↦ by cases h
  · rw [tables_single hd]
    simp [tables]
  · rw [ht]
    rintro t (rfl | rfl | rfl) <;> decide
  · -- the pages handed out have the same two upper indices
    have hn := List.mem_range'_1.mp hn
    have h30 : getIndex (kptr (n * 4096)) 30 = 510 := by
      refine Fin.ext ?_
      rw [getIndex_val, kptr_eq (by omega), kernBase]
      change _ = 510
      omega
    have h21 : getIndex (kptr (n * 4096)) 21 = 0 := by
      refine Fin.ext ?_
      rw [getIndex_val, kptr_eq (by omega), kernBase]
      change _ = 0
      omega
    rw [windowPath, h30, h21, descend, hw, if_pos rfl, Option.bind_some, descend, hd, if_pos rfl]
    rfl
  · rw [ht]
    rintro f ⟨n, hn, rfl⟩ hf
    have hn := List.mem_range'_1.mp hn
    simp only [Set.mem_insert_iff, Set.mem_singleton_iff] at hf
    omega

theorem bootSpace_ready (user stale : Nat) :
    Ready 0x2000 (bootSpace user stale) (List.range' 20 44) where
  freeList := bootSpace_freeList user stale
  free_lt n hn := by
    have := List.mem_range'_1.mp hn
    omega
  window := (bootSpace_window user stale).2
  root := by change 4096 ∣ 0x1000 ∧ 0x1000 < 2 ^ 31; decide
  root_apart := by
    rw [(bootSpace_window user stale).1]
    refine ⟨fun h ↦ ?_, fun ⟨n, hn, he⟩ ↦ ?_⟩
    · simp [bootSpace] at h
    · have := List.mem_range'_1.mp hn
      change 0x1000 = n * 4096 at he
      omega
  shared := by
    have he := bootSpace_entry user stale 1 511
    have hb : bootWords user stale (512 * 1 + (511 : Fin 512).val) % 2 ^ 64 = 0x2007 := rfl
    change child allEntries (bootSpace user stale).mem 2 (1 * 4096) 511 = _
    rw [child, he, hb]
    decide

end

end Sbunix
