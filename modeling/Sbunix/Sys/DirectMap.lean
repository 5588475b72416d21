import Sbunix.Sys.MapPage

/-!
# The kernel's window on physical memory (`kernmemMap`, `phy2vir`)

The boot code builds the kernel's tables while its pointers are physical addresses: first the pages
of the image, then page after page of physical memory from `0xffffffff80000000` on.
-/

namespace Sbunix

open Reasoning

/-- `&kernmem`, from `linker.script`. -/
def kernmem : Nat := 0xffffffff80200000

namespace Machine

/-- One level of `map_v_p`, whose pointers are physical. -/
def nextTableP (alloc : Machine → Nat → Fin 512 → Char → Nat × Machine) (s : Machine) (table : Nat)
    (i : Fin 512) : Nat × Machine :=
  let e := s.readEntry table i
  if e &&& pBit ≠ 0 then (frame e, s) else alloc s table i 'P'

/-- `map_v_p(virtual_address, physical_address)` for the global `pml4e`. -/
def mapVP (s : Machine) (pml4e virtualAddress physicalAddress : Nat) : Machine :=
  let (pdpe, s) := nextTableP pdpeAlloc s pml4e (getIndex virtualAddress 39)
  let (pde, s) := nextTableP pdeAlloc s pdpe (getIndex virtualAddress 30)
  let (pte, s) := nextTableP pteAlloc s pde (getIndex virtualAddress 21)
  s.writeEntry pte (getIndex virtualAddress 12) (physicalAddress ||| (pBit ||| wBit))

/-- `while (physbase < physfree)`; `none` when it has not come to an end after `fuel` steps. -/
def kernmemLoop (pte physfree : Nat) : Nat → Nat → Nat → Machine → Option Machine
  | 0, _, _, _ => none
  | fuel + 1, virtualAddress, physbase, s =>
      if physbase < physfree then
        kernmemLoop pte physfree fuel ((virtualAddress + 0x1000) % 2 ^ 64)
          ((physbase + 0x1000) % 2 ^ 64)
          (s.writeEntry pte (getIndex virtualAddress 12) (physbase ||| (pBit ||| wBit)))
      else some s

/-- `kernmemMap(physbase, physfree)`; the first component is the global `pml4e`. -/
def kernmemMap (s : Machine) (fuel physbase physfree : Nat) : Option (Nat × Machine) :=
  let (pml4e, s) := s.allocatePage
  let s := s.memset pml4e 0 4096
  let (pdpe, s) := pdpeAlloc s pml4e (getIndex kernmem 39) 'P'
  let (pde, s) := pdeAlloc s pdpe (getIndex kernmem 30) 'P'
  let (pte, s) := pteAlloc s pde (getIndex kernmem 21) 'P'
  (kernmemLoop pte physfree fuel kernmem physbase s).map fun s ↦ (pml4e, s)

/-- `while (phy_address <= limit)`. -/
def phy2virLoop (pml4e limit : Nat) : Nat → Nat → Nat → Machine → Option Machine
  | 0, _, _, _ => none
  | fuel + 1, virtualAddress, phyAddress, s =>
      if phyAddress ≤ limit then
        phy2virLoop pml4e limit fuel ((virtualAddress + 0x1000) % 2 ^ 64)
          ((phyAddress + 0x1000) % 2 ^ 64) (s.mapVP pml4e virtualAddress phyAddress)
      else some s

/-- `phy2vir(limit)`: at its end `pageMap` points into the window and the tables are in use. -/
def phy2vir (s : Machine) (fuel pml4e limit : Nat) : Option Machine :=
  (phy2virLoop pml4e limit fuel kernBase 0 s).map fun s ↦
    let s := s.mapVP pml4e 0xffffffff800b8000 0xb8000
    { s with alloc := { s.alloc with base := kptr s.alloc.base } }.loadCR3 pml4e

/-- The calls of `main.c`. -/
def kernelTables (s : Machine) (fuel physbase physfree limit : Nat) : Option Machine :=
  (s.kernmemMap fuel physbase physfree).bind fun (pml4e, s) ↦ s.phy2vir fuel pml4e limit

end Machine

variable {U : Fin 512 → Bool} {s s' : Machine} {r t n v p limit fuel j : Nat} {i : Fin 512}
  {free free' : List Nat}

/-! ## Physical pointers -/

theorem phys_eq (h : t < kernBase) : phys t = t := if_neg (Nat.not_le.mpr h)

theorem lt_kernBase (h : t < 2 ^ 31) : t < kernBase := h.trans (by decide)

theorem writeEntry_phys {e : Nat} (ht : t < 2 ^ 31) :
    s.writeEntry t i e = s.writeEntry (kptr t) i e := by
  rw [Machine.writeEntry, Machine.writeEntry, phys_kptr ht, phys_eq (lt_kernBase ht)]

theorem tableAlloc_phys (h : FreeList s.alloc (n :: free)) (hn : n * 4096 < kernBase)
    (ht : t < kernBase) :
    (s.tableAlloc t i 'P').1 = n * 4096 ∧ FreeList (s.tableAlloc t i 'P').2.alloc free ∧
      Hung s.mem (s.tableAlloc t i 'P').2.mem t i (n * 4096) 3 := by
  obtain ⟨ha, hf, -, -⟩ := allocatePage_spec h
  refine ⟨?_, hf, ?_, by decide, by decide⟩
  · simp only [Machine.tableAlloc, show ('P' = 'V') = False by simp, if_false, ha]
  · simp only [Machine.tableAlloc, show ('P' = 'V') = False by simp, if_false,
      Machine.writeEntry, Machine.memset, ha, phys_eq ht, phys_eq hn]
    rfl

/-- Tables under `r` have been taken from the free list, and only the tables there are written to. -/
structure BootTook (U : Fin 512 → Bool) (r : Nat) (s : Machine) (free : List Nat) (s' : Machine)
    (free' : List Nat) : Prop where
  taken : ∃ k, free = k ++ free' ∧ tableFrames U s'.mem r = tableFrames U s.mem r ∪ framesOf k
  bytes : ∀ x, x / 4096 * 4096 ∉ tableFrames U s'.mem r → s'.mem x = s.mem x

theorem BootTook.refl (U : Fin 512 → Bool) (r : Nat) (s : Machine) (free : List Nat) :
    BootTook U r s free s free := by
  refine ⟨⟨[], rfl, ?_⟩, fun _ _ ↦ rfl⟩
  simp [framesOf]

theorem BootTook.trans {s'' : Machine} {free'' : List Nat} (h : BootTook U r s free s' free')
    (h' : BootTook U r s' free' s'' free'') : BootTook U r s free s'' free'' := by
  obtain ⟨k, rfl, hk⟩ := h.taken
  obtain ⟨k', rfl, hk'⟩ := h'.taken
  refine ⟨⟨k ++ k', by rw [List.append_assoc], ?_⟩, fun x hx ↦ ?_⟩
  · rw [hk', hk, framesOf_append, Set.union_assoc]
  · have hsub : tableFrames U s'.mem r ⊆ tableFrames U s''.mem r := by
      rw [hk']
      exact Set.subset_union_left
    rw [h'.bytes x hx, h.bytes x fun hm ↦ hx (hsub hm)]

theorem PageWrite.took {q : List (Fin 512)} {e : Nat} (h : PageWrite U r q e s free s') :
    BootTook U r s free s' free := by
  refine ⟨⟨[], rfl, ?_⟩, fun x hx ↦ h.bytes x (h.frames ▸ hx)⟩
  rw [h.frames]
  simp [framesOf]

/-- What a new table of the boot code leaves as it was, and where it is. -/
theorem tableAlloc_boot {k : Nat} {q : List (Fin 512)} (h : Paged U s r (n :: free))
    (hd : tableAt U s.mem r q = some t) (hq : q.length + (k + 1) = 3) (hU : k = 2 → U i)
    (hc : child U s.mem k t i = none) :
    (s.tableAlloc t i 'P').1 = n * 4096 ∧ Paged U (s.tableAlloc t i 'P').2 r free ∧
    (∀ l, pageAt U (s.tableAlloc t i 'P').2.mem r l = pageAt U s.mem r l) ∧
    (∀ l u, tableAt U s.mem r l = some u → tableAt U (s.tableAlloc t i 'P').2.mem r l = some u) ∧
    tableAt U (s.tableAlloc t i 'P').2.mem r (q ++ [i]) = some (n * 4096) ∧
    (∀ m j, child U (s.tableAlloc t i 'P').2.mem m (n * 4096) j = none) ∧
    BootTook U r s (n :: free) (s.tableAlloc t i 'P').2 free := by
  have hn := h.free_lt n List.mem_cons_self
  obtain ⟨hfst, hfl, hm⟩ :=
    tableAlloc_phys (i := i) h.freeList (lt_kernBase (by omega))
      (lt_kernBase (h.aligned t (descend_mem hd)).2)
  obtain ⟨hgraft, -, -, -⟩ := hm.graft h (descend_mem hd) hU hc
  obtain ⟨hpaged, htab, hpages, hpaths, hbytes, hdesc⟩ := hm.spec h hd hq hU hc hfl
  exact ⟨hfst, hpaged, hpages, hpaths, hdesc, hgraft.empty, ⟨[n], rfl, htab⟩, hbytes⟩

theorem nextTableP_spec {k : Nat} {q rest : List (Fin 512)} (h : Paged U s r free)
    (hd : tableAt U s.mem r q = some t) (hq : q.length + (k + 1) = 3) (hU : k = 2 → U i)
    (hm : missing (child U s.mem) (k + 1) t (i :: rest) ≤ free.length) :
    ∃ free' t' s', Machine.nextTableP Machine.tableAlloc s t i = (t', s') ∧ Paged U s' r free' ∧
      (∀ l, pageAt U s'.mem r l = pageAt U s.mem r l) ∧
      (∀ l u, tableAt U s.mem r l = some u → tableAt U s'.mem r l = some u) ∧
      BootTook U r s free s' free' ∧ tableAt U s'.mem r (q ++ [i]) = some t' ∧
      missing (child U s'.mem) k t' rest ≤ free'.length ∧
      missing (child U s'.mem) k t' rest + free.length ≤
        free'.length + missing (child U s.mem) (k + 1) t (i :: rest) := by
  have hte : s.readEntry t i = entry s.mem t i := by
    rw [Machine.readEntry, phys_eq (lt_kernBase (h.aligned t (descend_mem hd)).2)]
  -- an entry that is present costs nothing, an absent one costs a free page
  rw [missing] at hm ⊢
  by_cases hpres : Present (entry s.mem t i)
  · have hc : child U s.mem k t i = some (frame (entry s.mem t i)) := child_of_present hU hpres
    rw [hc]
    refine ⟨free, frame (entry s.mem t i), s, ?_, h, fun _ ↦ rfl, fun _ _ hu ↦ hu,
      .refl U r s free, mem_tableFrames_child hq hd hc, ?_, ?_⟩
    · rw [Machine.nextTableP, hte]
      exact if_pos hpres
    · rw [hc] at hm
      exact hm
    · exact Nat.le_of_eq (Nat.add_comm _ _)
  · have hc : child U s.mem k t i = none := child_of_absent hpres
    rw [hc] at hm ⊢
    cases free with
    | nil => exact absurd hm (Nat.not_succ_le_zero _)
    | cons n free =>
        obtain ⟨hfst, hpaged, hpages, hpaths, hdesc, -, htook⟩ := tableAlloc_boot h hd hq hU hc
        refine ⟨free, n * 4096, (s.tableAlloc t i 'P').2, ?_, hpaged, hpages, hpaths, htook, hdesc,
          ?_, ?_⟩
        · rw [Machine.nextTableP, hte]
          exact (if_neg hpres).trans (Prod.ext hfst rfl)
        · exact (missing_le rest).trans (Nat.le_of_succ_le_succ hm)
        · rw [List.length_cons]
          rw [Nat.add_comm, Nat.add_assoc, Nat.add_comm 1]
          exact Nat.add_le_add_left (Nat.add_le_add_right (missing_le rest) 1) _

/-! ## `map_v_p` -/

/-- What `map_v_p(v, p)` does to the tables under `r`. -/
structure BootMapped (r v p : Nat) (s : Machine) (free : List Nat) (s' : Machine)
    (free' : List Nat) : Prop where
  paged : Paged allEntries s' r free'
  pages : ∀ q, pageAt allEntries s'.mem r q =
    if q = pagePath v then some (p ||| 3) else pageAt allEntries s.mem r q
  paths : ∀ q u, tableAt allEntries s.mem r q = some u → tableAt allEntries s'.mem r q = some u
  took : BootTook allEntries r s free s' free'
  taken : free.length ≤ free'.length + missing (child allEntries s.mem) 3 r (tablePath v)

theorem mapVP_eq (s : Machine) (r v p : Nat) :
    s.mapVP r v p =
      let a := Machine.nextTableP Machine.tableAlloc s r (getIndex v 39)
      let b := Machine.nextTableP Machine.tableAlloc a.2 a.1 (getIndex v 30)
      let c := Machine.nextTableP Machine.tableAlloc b.2 b.1 (getIndex v 21)
      c.2.writeEntry c.1 (getIndex v 12) (p ||| 3) := rfl

theorem mapVP_spec (h : Paged allEntries s r free) (hp : 4096 ∣ p) (hp' : p < 2 ^ 64)
    (hm : missing (child allEntries s.mem) 3 r (tablePath v) ≤ free.length) :
    ∃ free', BootMapped r v p s free (s.mapVP r v p) free' := by
  obtain ⟨f₁, t₁, s₁, he₁, h₁, hg₁, hp₁, hb₁, ht₁, hm₁, hl₁⟩ :=
    nextTableP_spec (k := 2) h descend_nil rfl (fun _ ↦ rfl) hm
  obtain ⟨f₂, t₂, s₂, he₂, h₂, hg₂, hp₂, hb₂, ht₂, hm₂, hl₂⟩ :=
    nextTableP_spec (k := 1) h₁ ht₁ rfl (fun _ ↦ rfl) hm₁
  obtain ⟨f₃, t₃, s₃, he₃, h₃, hg₃, hp₃, hb₃, ht₃, -, hl₃⟩ :=
    nextTableP_spec (k := 0) h₂ ht₂ rfl (fun _ ↦ rfl) hm₂
  have hlt : p ||| 3 < 2 ^ 64 := by
    rw [or_low (n := 12) hp (by decide)]
    omega
  have hmap : s.mapVP r v p = s₃.writeEntry (kptr t₃) (getIndex v 12) (p ||| 3) := by
    rw [← writeEntry_phys (h₃.aligned t₃ (descend_mem ht₃)).2]
    rw [mapVP_eq]
    simp only [he₁, he₂, he₃]
  obtain ⟨-, -, hw⟩ := writeEntry_page (i := getIndex v 12) h₃ rfl ht₃
    (present_or_flag hp (by decide)) hlt
  rw [hmap]
  refine ⟨f₃, hw.paged, fun q ↦ ?_, fun q u hu ↦ ?_, ((hb₁.trans hb₂).trans hb₃).trans hw.took,
    ?_⟩
  · rw [hw.pages, hg₃, hg₂, hg₁]
    rfl
  · rw [hw.tables]
    exact hp₃ q u (hp₂ q u (hp₁ q u hu))
  · rw [tablePath]
    simp only [Nat.reduceAdd] at hl₁ hl₂ hl₃
    omega

/-! ## The image -/

theorem present_or_low (x : Nat) : Present (x ||| 3) := by
  rw [Present, Nat.and_or_distrib_right]
  intro h
  exact absurd (Nat.or_eq_zero_iff.mp h).2 (by decide)

theorem kernmemLoop_spec {physbase physfree : Nat} {l : List (Fin 512)}
    (h : Paged allEntries s r free) (hl : l.length = 3)
    (ht : tableAt allEntries s.mem r l = some t) (hp : physfree ≤ 2 ^ 52)
    (hfuel : (physfree + 4095 - physbase) / 4096 < fuel) :
    ∃ s', Machine.kernmemLoop t physfree fuel v physbase s = some s' ∧
      Paged allEntries s' r free ∧
      (∀ q, tableAt allEntries s'.mem r q = tableAt allEntries s.mem r q) ∧
      BootTook allEntries r s free s' free := by
  induction fuel generalizing s v physbase with
  | zero => exact absurd hfuel (Nat.not_lt_zero _)
  | succ fuel ih =>
      rw [Machine.kernmemLoop]
      by_cases hlt : physbase < physfree
      · have hb : physbase ||| 3 < 2 ^ 64 :=
          Nat.or_lt_two_pow (by omega) (by omega)
        obtain ⟨-, -, hw⟩ := writeEntry_page (i := getIndex v 12) h hl ht (present_or_low physbase) hb
        rw [← writeEntry_phys (h.aligned t (descend_mem ht)).2] at hw
        have hnext : (physbase + 0x1000) % 2 ^ 64 = physbase + 0x1000 :=
          Nat.mod_eq_of_lt (by omega)
        rw [if_pos hlt, hnext]
        obtain ⟨s', hs', hpaged, htables, htook⟩ := ih (v := (v + 0x1000) % 2 ^ 64) hw.paged
          ((hw.tables l).trans ht)
          (show (physfree + 4095 - (physbase + 0x1000)) / 4096 < fuel by omega)
        exact ⟨s', hs', hpaged, fun q ↦ (htables q).trans (hw.tables q), hw.took.trans htook⟩
      · rw [if_neg hlt]
        exact ⟨s, rfl, h, fun _ ↦ rfl, .refl allEntries r s free⟩

/-- After `kernmemMap` four frames are taken, and the tables lead to the one of the image. -/
theorem kernmemMap_spec {physbase physfree : Nat} {a b c d : Nat}
    (h : FreeList s.alloc (a :: b :: c :: d :: free))
    (hlt : ∀ n ∈ a :: b :: c :: d :: free, n < 2 ^ 19) (hp : physfree ≤ 2 ^ 52)
    (hfuel : (physfree + 4095 - physbase) / 4096 < fuel) :
    ∃ s', s.kernmemMap fuel physbase physfree = some (a * 4096, s') ∧
      Paged allEntries s' (a * 4096) free ∧
      (∃ t, tableAt allEntries s'.mem (a * 4096) (tablePath kernmem) = some t) ∧
      tableFrames allEntries s'.mem (a * 4096) = framesOf [a, b, c, d] ∧
      ∀ x, x / 4096 * 4096 ∉ tableFrames allEntries s'.mem (a * 4096) → s'.mem x = s.mem x := by
  obtain ⟨ha, hf, -, -⟩ := allocatePage_spec h
  have han : a < 2 ^ 19 := hlt a List.mem_cons_self
  obtain ⟨s₀, hs₀⟩ : ∃ s₀, s.allocatePage.2.memset (a * 4096) 0 4096 = s₀ := ⟨_, rfl⟩
  -- the cleared root leads nowhere
  have hz : ∀ m j, child allEntries s₀.mem m (a * 4096) j = none := by
    intro m j
    have he : entry s₀.mem (a * 4096) j = 0 := by
      rw [← hs₀, Machine.memset, phys_eq (lt_kernBase (by omega))]
      exact entry_fill_self
    exact child_of_zero he
  have ht : tableFrames allEntries s₀.mem (a * 4096) = {a * 4096} := tables_empty hz 3
  have h₀ : Paged allEntries s₀ (a * 4096) (b :: c :: d :: free) := by
    refine ⟨.of_empty hz 3, ?_, ?_, fun n hn ↦ hlt n (List.mem_cons_of_mem a hn), ?_⟩
    · rw [ht]
      rintro t rfl
      exact ⟨Nat.dvd_mul_left _ _, by omega⟩
    · rw [← hs₀]
      exact hf
    · rw [ht]
      rintro f ⟨n, hn, rfl⟩ hf
      have hna : n = a := by
        have := Set.mem_singleton_iff.mp hf
        omega
      exact h.nodup_cons (hna ▸ hn)
  -- one table a level, down to the one of the image
  obtain ⟨hf₁, h₁, -, -, ht₁, hz₁, hb₁⟩ := tableAlloc_boot (k := 2) (i := getIndex kernmem 39) h₀
    descend_nil rfl (fun _ ↦ rfl) (hz 2 _)
  obtain ⟨hf₂, h₂, -, -, ht₂, hz₂, hb₂⟩ := tableAlloc_boot (k := 1) (i := getIndex kernmem 30) h₁
    ht₁ rfl (fun _ ↦ rfl) (hz₁ 1 _)
  obtain ⟨hf₃, h₃, -, -, ht₃, -, hb₃⟩ := tableAlloc_boot (k := 0) (i := getIndex kernmem 21) h₂
    ht₂ rfl (fun _ ↦ rfl) (hz₂ 0 _)
  obtain ⟨s', hs', hpaged, htables, hb₄⟩ :=
    kernmemLoop_spec (v := kernmem) h₃ rfl ht₃ hp hfuel
  have htook := ((hb₁.trans hb₂).trans hb₃).trans hb₄
  have hframes : tableFrames allEntries s'.mem (a * 4096) = framesOf [a, b, c, d] := by
    obtain ⟨k, hk, htab⟩ := htook.taken
    have hbcd : [b, c, d] ++ free = k ++ free := hk
    obtain rfl := List.append_cancel_right hbcd
    rw [htab, ht]
    ext f
    simp [framesOf]
  refine ⟨s', ?_, hpaged, ⟨d * 4096, (htables _).trans ht₃⟩, hframes, fun x hx ↦ ?_⟩
  · rw [Machine.kernmemMap]
    dsimp only
    rw [ha, hs₀]
    simp only [Machine.pdpeAlloc, Machine.pdeAlloc, Machine.pteAlloc, hf₁, hf₂, hf₃, hs',
      Option.map_some]
  · -- the root is cleared before the tables are hung
    have hxa : x / 4096 * 4096 ≠ a * 4096 := by
      intro he
      rw [he] at hx
      exact hx self_mem_tables
    rw [htook.bytes x hx, ← hs₀, Machine.memset, phys_eq (lt_kernBase (by omega))]
    exact Memory.fill_apply_of_lt (by omega)

/-! ## The window -/

theorem window_index (hj : j < 2 ^ 19) :
    (getIndex (kernBase + j * 4096) 39).val = 511 ∧
    (getIndex (kernBase + j * 4096) 30).val = 510 + j / 2 ^ 18 ∧
    (getIndex (kernBase + j * 4096) 21).val = j / 512 % 512 := by
  simp only [getIndex_val, kernBase]
  omega

theorem tablePath_window (hj : j < 2 ^ 19) {m : Nat} (hm : m < 2 ^ 19) :
    ((tablePath (kernBase + j * 4096)).take 1 = (tablePath (kernBase + m * 4096)).take 1) ∧
    (j / 2 ^ 18 = m / 2 ^ 18 →
      (tablePath (kernBase + j * 4096)).take 2 = (tablePath (kernBase + m * 4096)).take 2) ∧
    (j / 512 = m / 512 → tablePath (kernBase + j * 4096) = tablePath (kernBase + m * 4096)) := by
  obtain ⟨h39, h30, h21⟩ := window_index hj
  obtain ⟨h39', h30', h21'⟩ := window_index hm
  have e39 : getIndex (kernBase + j * 4096) 39 = getIndex (kernBase + m * 4096) 39 :=
    Fin.ext (h39.trans h39'.symm)
  have e30 : j / 2 ^ 18 = m / 2 ^ 18 →
      getIndex (kernBase + j * 4096) 30 = getIndex (kernBase + m * 4096) 30 := fun he ↦
    Fin.ext (by rw [h30, h30', he])
  refine ⟨?_, fun he ↦ ?_, fun he ↦ ?_⟩
  · simp only [tablePath, List.take, e39]
  · simp only [tablePath, List.take, e39, e30 he]
  · have e21 : getIndex (kernBase + j * 4096) 21 = getIndex (kernBase + m * 4096) 21 :=
      Fin.ext (by rw [h21, h21', he])
    simp only [tablePath, e39, e30 (by omega), e21]

/-- How many tables the pages from `j` to `last` of the window still need: one for each 512 pages
but the image's, and a directory when the second GiB is reached. -/
def tablesLeft (last j : Nat) : Nat :=
  last / 512 + 1 - (j + 511) / 512 + (if j ≤ 2 ^ 18 ∧ 2 ^ 18 ≤ last then 1 else 0) -
    (if j ≤ 512 ∧ 512 ≤ last then 1 else 0)

/-- The pages before `j` are mapped, the image has its table, and frames are left for the rest. -/
structure DirectUpTo (r last j : Nat) (s : Machine) (free : List Nat) : Prop where
  paged : Paged allEntries s r free
  mapped : ∀ m < j, pageAt allEntries s.mem r (pagePath (kernBase + m * 4096)) =
    some (m * 4096 ||| 3)
  image : ∃ t, tableAt allEntries s.mem r (tablePath kernmem) = some t
  left : tablesLeft last j ≤ free.length

/-- The tables stay where they are when the allocator's pointer to its array changes. -/
theorem DirectUpTo.congr {last : Nat} (h : DirectUpTo r last j s free) (hm : s'.mem = s.mem)
    (hf : FreeList s'.alloc free) : DirectUpTo r last j s' free :=
  ⟨⟨hm ▸ h.paged.tree, hm ▸ h.paged.aligned, hf, h.paged.free_lt, hm ▸ h.paged.free_fresh⟩,
    hm ▸ h.mapped, hm ▸ h.image, h.left⟩

theorem DirectUpTo.table {last m : Nat} (h : DirectUpTo r last j s free) (hm : m < j) :
    ∃ t, tableAt allEntries s.mem r (tablePath (kernBase + m * 4096)) = some t := by
  have hl : (tablePath (kernBase + m * 4096)).length = 3 := rfl
  obtain ⟨t, ht, -⟩ := (leaf_eq_some hl).mp (h.mapped m hm)
  exact ⟨t, ht⟩

theorem missing_of_shared {v v' : Nat} (k : Nat) (hk : k ≤ 3)
    (ht : tableAt allEntries s.mem r (tablePath v') = some t)
    (hv : (tablePath v).take (3 - k) = (tablePath v').take (3 - k)) :
    missing (child allEntries s.mem) 3 r (tablePath v) ≤ k := by
  rw [← List.take_append_drop (3 - k) (tablePath v)]
  rw [tableAt, ← List.take_append_drop (3 - k) (tablePath v'), ← hv] at ht
  refine missing_le_of_descend ?_ ht
  rw [List.length_take]
  change min (3 - k) 3 + k = 3
  omega

/-! Page `j` may need a table if it is the first of 512 and not the image's, and a directory too at
the second GiB. -/

theorem tablesLeft_keep {last : Nat} (hj : j ≤ last) :
    tablesLeft last (j + 1) ≤ tablesLeft last j := by
  unfold tablesLeft
  split_ifs <;> omega

theorem tablesLeft_table {last : Nat} (h : j % 512 = 0) (h512 : j ≠ 512) (hj : j ≤ last) :
    1 + tablesLeft last (j + 1) ≤ tablesLeft last j := by
  unfold tablesLeft
  split_ifs <;> omega

theorem tablesLeft_directory {last : Nat} (hj : 2 ^ 18 ≤ last) :
    2 + tablesLeft last (2 ^ 18 + 1) ≤ tablesLeft last (2 ^ 18) := by
  unfold tablesLeft
  split_ifs <;> omega

/-- The tables that page `j` lacks are accounted for. -/
theorem DirectUpTo.missing {last : Nat} (h : DirectUpTo r last j s free) (hj : j ≤ last)
    (hlast : last < 2 ^ 19) :
    missing (child allEntries s.mem) 3 r (tablePath (kernBase + j * 4096)) +
      tablesLeft last (j + 1) ≤ tablesLeft last j := by
  have hj19 : j < 2 ^ 19 := Nat.lt_of_le_of_lt hj hlast
  obtain ⟨t, ht⟩ := h.image
  have himage : tablePath kernmem = tablePath (kernBase + 512 * 4096) := rfl
  rw [himage] at ht
  obtain ⟨hi₁, hi₂, hi₃⟩ := tablePath_window hj19 (m := 512) (by decide)
  have hkeep := (Nat.zero_add _).trans_le (tablesLeft_keep hj)
  by_cases h0 : j = 0
  · have hm := missing_of_shared 1 (by decide) ht (hi₂ (by omega))
    exact (Nat.add_le_add_right hm _).trans (tablesLeft_table (by omega) (by omega) hj)
  · obtain ⟨t', ht'⟩ := h.table (m := j - 1) (by omega)
    obtain ⟨hp₁, hp₂, hp₃⟩ := tablePath_window hj19 (m := j - 1) (by omega)
    by_cases h512 : j % 512 = 0
    · by_cases hfirst : j = 512
      · have hm := missing_of_shared 0 (by decide) ht (by rw [hi₃ (by omega)])
        exact (Nat.add_le_add_right hm _).trans hkeep
      · by_cases h18 : j = 2 ^ 18
        · have hm := missing_of_shared 2 (by decide) ht' hp₁
          rw [h18] at hm hj ⊢
          exact (Nat.add_le_add_right hm _).trans (tablesLeft_directory hj)
        · have hm := missing_of_shared 1 (by decide) ht' (hp₂ (by omega))
          exact (Nat.add_le_add_right hm _).trans (tablesLeft_table h512 hfirst hj)
    · have hm := missing_of_shared 0 (by decide) ht' (by rw [hp₃ (by omega)])
      exact (Nat.add_le_add_right hm _).trans hkeep

theorem pagePath_window_inj {m : Nat} (hj : j < 2 ^ 19) (hm : m < 2 ^ 19)
    (h : pagePath (kernBase + j * 4096) = pagePath (kernBase + m * 4096)) : j = m := by
  rw [pagePath_eq_iff] at h
  simp only [kernBase] at h
  omega

theorem DirectUpTo.step {last : Nat} (h : DirectUpTo r last j s free) (hj : j ≤ last)
    (hlast : last < 2 ^ 19) :
    ∃ free', DirectUpTo r last (j + 1) (s.mapVP r (kernBase + j * 4096) (j * 4096)) free' ∧
      BootTook allEntries r s free (s.mapVP r (kernBase + j * 4096) (j * 4096)) free' ∧
      free.length + tablesLeft last (j + 1) ≤ free'.length + tablesLeft last j := by
  have hm := h.missing hj hlast
  have hleft := h.left
  obtain ⟨free', hmap⟩ := mapVP_spec (v := kernBase + j * 4096) h.paged
    (Nat.dvd_mul_left 4096 j) (by omega) (by omega)
  obtain ⟨t, ht⟩ := h.image
  have htaken := hmap.taken
  refine ⟨free', ⟨hmap.paged, fun m hmj ↦ ?_, ⟨t, hmap.paths _ _ ht⟩, by omega⟩, hmap.took,
    by omega⟩
  rw [hmap.pages]
  by_cases he : m = j
  · rw [he, if_pos rfl]
  · rw [if_neg fun hp ↦ he (pagePath_window_inj (by omega) (by omega) hp)]
    exact h.mapped m (by omega)

theorem phy2virLoop_spec (h : DirectUpTo r (limit / 4096) j s free)
    (hj : j ≤ limit / 4096 + 1) (hl : limit < 2 ^ 31) (hfuel : limit / 4096 + 1 - j < fuel) :
    ∃ s' free', Machine.phy2virLoop r limit fuel ((kernBase + j * 4096) % 2 ^ 64) (j * 4096) s =
        some s' ∧ DirectUpTo r (limit / 4096) (limit / 4096 + 1) s' free' ∧
        BootTook allEntries r s free s' free' ∧
        free.length ≤ free'.length + tablesLeft (limit / 4096) j := by
  induction fuel generalizing s j free with
  | zero => exact absurd hfuel (Nat.not_lt_zero _)
  | succ fuel ih =>
      rw [Machine.phy2virLoop]
      by_cases hle : j * 4096 ≤ limit
      · -- the address wraps only behind the last page
        have hv : (kernBase + j * 4096) % 2 ^ 64 = kernBase + j * 4096 :=
          Nat.mod_eq_of_lt (by simp only [kernBase]; omega)
        have hv' : (kernBase + j * 4096 + 0x1000) % 2 ^ 64 =
            (kernBase + (j + 1) * 4096) % 2 ^ 64 := by
          rw [Nat.succ_mul, Nat.add_assoc]
        have hp' : (j * 4096 + 0x1000) % 2 ^ 64 = (j + 1) * 4096 := by omega
        obtain ⟨free₁, hstep, hb, hlen⟩ := h.step (by omega) (by omega)
        rw [if_pos hle, hv, hv', hp']
        obtain ⟨s', free', hs', hd, hb', hlen'⟩ := ih hstep (by omega) (by omega)
        exact ⟨s', free', hs', hd, hb.trans hb', by omega⟩
      · rw [if_neg hle]
        obtain rfl : j = limit / 4096 + 1 := by omega
        exact ⟨s, free, rfl, h, .refl allEntries r s free, Nat.le_add_right _ _⟩

/-! ## The direct map -/

/-- Page by page up to `limit`, the address by which the kernel reaches a page of physical memory is
translated to that page, and it is the page's alone. -/
structure DirectMap (mem : Memory) (cr3 limit : Nat) : Prop where
  translated : ∀ p, 4096 ∣ p → p ≤ limit →
    (pageAt allEntries mem cr3 (pagePath (kptr p))).map frame = some p
  distinct : ∀ p q, 4096 ∣ p → 4096 ∣ q → p ≤ limit → q ≤ limit → kptr p = kptr q → p = q

/-- The window has room for 2 GiB: pages 0 and `2 ^ 31` share an address. -/
theorem DirectMap.limit_lt {mem : Memory} (h : DirectMap mem r limit) : limit < 2 ^ 31 := by
  by_contra hl
  have := h.distinct 0 (2 ^ 31) (by decide) (by decide) (Nat.zero_le _) (by omega) (by decide)
  exact absurd this (by decide)

theorem DirectUpTo.directMap (h : DirectUpTo r (limit / 4096) (limit / 4096 + 1) s free)
    (hl : limit < 2 ^ 31) : DirectMap s.mem r limit := by
  refine ⟨fun p hp hpl ↦ ?_, fun p q _ _ hpl hql he ↦ ?_⟩
  · obtain ⟨m, rfl⟩ := hp
    rw [Nat.mul_comm, kptr_eq (by omega), h.mapped m (by omega), Option.map_some,
      frame_or (Nat.dvd_mul_left 4096 m) (by omega) (by decide)]
  · rw [kptr_eq (by omega), kptr_eq (by omega)] at he
    exact Nat.add_left_cancel he

/-- After the calls of `main.c` the pages up to the limit are mapped, and only the tables, in frames
that were free, have been written to. -/
theorem kernelTables_upTo (physbase : Nat) {physfree : Nat} (h : FreeList s.alloc free)
    (hlast : s.alloc.lastPage = limit / 4096) (hp : physfree ≤ 2 ^ 52)
    (hfuel : physfree / 4096 + limit / 4096 + 2 ≤ fuel)
    (hfree : 2 + (limit / 2 ^ 30 + 1) + max (limit / 2 ^ 21 + 1) 2 ≤ free.length)
    (hl : limit < 2 ^ 31) :
    ∃ s' free', s.kernelTables fuel physbase physfree limit = some s' ∧
      DirectUpTo s'.cr3 (limit / 4096) (limit / 4096 + 1) s' free' ∧
      (∃ k, free = k ++ free' ∧ tableFrames allEntries s'.mem s'.cr3 = framesOf k) ∧
      free.length ≤ free'.length + (2 + (limit / 2 ^ 30 + 1) + max (limit / 2 ^ 21 + 1) 2) ∧
      ∀ x, x / 4096 * 4096 ∉ tableFrames allEntries s'.mem s'.cr3 → s'.mem x = s.mem x := by
  have hlt : ∀ n ∈ free, n < 2 ^ 19 := fun n hn ↦ by
    have := h.ascending.lt_end hn
    omega
  obtain ⟨a, b, c, d, free, rfl⟩ : ∃ a b c d l, free = a :: b :: c :: d :: l := by
    have h4 : 4 ≤ free.length := by omega
    match free, h4 with
    | a :: b :: c :: d :: l, _ => exact ⟨a, b, c, d, l, rfl⟩
  obtain ⟨s₁, hs₁, hpaged, himage, htab, hbytes⟩ := kernmemMap_spec h hlt hp
    (show (physfree + 4095 - physbase) / 4096 < fuel by omega)
  have hneed : 4 + tablesLeft (limit / 4096) 0 ≤
      2 + (limit / 2 ^ 30 + 1) + max (limit / 2 ^ 21 + 1) 2 := by
    simp only [tablesLeft]
    split_ifs <;> omega
  have hleft : tablesLeft (limit / 4096) 0 ≤ free.length := by
    simp only [List.length_cons] at hfree
    omega
  have h₀ : DirectUpTo (a * 4096) (limit / 4096) 0 s₁ free :=
    ⟨hpaged, fun m hm ↦ absurd hm (Nat.not_lt_zero m), himage, hleft⟩
  obtain ⟨s₂, free₂, hs₂, h₂, hb₂, hlen₂⟩ := phy2virLoop_spec h₀ (Nat.zero_le _) hl
    (show limit / 4096 + 1 - 0 < fuel by omega)
  -- the screen's page is in the first table, which page 0 has
  obtain ⟨t, ht⟩ := h₂.table (m := 0) (Nat.succ_pos _)
  have hm₀ := missing_of_shared (v := kernBase + 0xb8 * 4096) 0 (by decide) ht
    (by rw [(tablePath_window (j := 0xb8) (m := 0) (by decide) (by decide)).2.2 (by decide)])
  obtain ⟨free₃, hmap⟩ := mapVP_spec (v := kernBase + 0xb8 * 4096) (p := 0xb8000) h₂.paged
    (by decide) (by decide) (by omega)
  have htaken := hmap.taken
  have h₃ : DirectUpTo (a * 4096) (limit / 4096) (limit / 4096 + 1)
      (s₂.mapVP (a * 4096) (kernBase + 0xb8 * 4096) 0xb8000) free₃ := by
    have hleft₂ := h₂.left
    obtain ⟨t', ht'⟩ := h₂.image
    refine ⟨hmap.paged, fun m hm ↦ ?_, ⟨t', hmap.paths _ _ ht'⟩, by omega⟩
    rw [hmap.pages]
    by_cases he : m = 0xb8
    · rw [he, if_pos rfl]
    · rw [if_neg fun hp ↦ he (pagePath_window_inj (by omega) (by decide) hp)]
      exact h₂.mapped m hm
  have hs₂' : Machine.phy2virLoop (a * 4096) limit fuel kernBase 0 s₁ = some s₂ := hs₂
  obtain ⟨s₃, hs₃⟩ : ∃ s₃, s₂.mapVP (a * 4096) (kernBase + 0xb8 * 4096) 0xb8000 = s₃ := ⟨_, rfl⟩
  have hb₃ := hb₂.trans hmap.took
  rw [hs₃] at h₃ hb₃
  obtain ⟨k, hk, htab₃⟩ := hb₃.taken
  have hsub : tableFrames allEntries s₁.mem (a * 4096) ⊆ tableFrames allEntries s₃.mem (a * 4096) := by
    rw [htab₃]
    exact Set.subset_union_left
  refine ⟨{ s₃ with alloc := { s₃.alloc with base := kptr s₃.alloc.base }, cr3 := a * 4096 }, free₃,
    ?_, h₃.congr rfl ⟨h₃.paged.freeList.ascending, h₃.paged.freeList.sentinel,
      h₃.paged.freeList.taken, h₃.paged.freeList.bound⟩, ⟨[a, b, c, d] ++ k, ?_, ?_⟩, ?_,
    fun x hx ↦ ?_⟩
  · rw [Machine.kernelTables, hs₁, Option.bind_some]
    dsimp only
    rw [Machine.phy2vir, hs₂', Option.map_some, ← hs₃]
    rfl
  · rw [hk, List.append_assoc]
    rfl
  · change tableFrames allEntries s₃.mem (a * 4096) = _
    rw [htab₃, htab, framesOf_append]
  · simp only [List.length_cons]
    omega
  · exact (hb₃.bytes x hx).trans (hbytes x fun hm ↦ hx (hsub hm))

theorem kernelTables_spec {physbase physfree : Nat} (h : FreeList s.alloc free)
    (hlast : s.alloc.lastPage = limit / 4096) (hp : physfree ≤ 2 ^ 52)
    (hfuel : physfree / 4096 + limit / 4096 + 2 ≤ fuel)
    (hfree : 2 + (limit / 2 ^ 30 + 1) + max (limit / 2 ^ 21 + 1) 2 ≤ free.length)
    (hl : limit < 2 ^ 31) :
    ∃ s', s.kernelTables fuel physbase physfree limit = some s' ∧
      DirectMap s'.mem s'.cr3 limit := by
  obtain ⟨s', free', hs', hd, -⟩ := kernelTables_upTo physbase h hlast hp hfuel hfree hl
  exact ⟨s', hs', hd.directMap hl⟩

/-- For every limit there is a direct map exactly if the limit lies below 2 GiB. -/
theorem kernelTables_directMap_iff {physbase physfree : Nat} (h : FreeList s.alloc free)
    (hlast : s.alloc.lastPage = limit / 4096) (hp : physfree ≤ 2 ^ 52)
    (hfuel : physfree / 4096 + limit / 4096 + 2 ≤ fuel)
    (hfree : 2 + (limit / 2 ^ 30 + 1) + max (limit / 2 ^ 21 + 1) 2 ≤ free.length) :
    (∃ s', s.kernelTables fuel physbase physfree limit = some s' ∧
      DirectMap s'.mem s'.cr3 limit) ↔ limit < 2 ^ 31 := by
  constructor
  · rintro ⟨s', -, hd⟩
    exact hd.limit_lt
  · exact kernelTables_spec h hlast hp hfuel hfree

theorem kernelTables_directMap_small :
    ∃ s', (freeMachine 0x260 0x400).kernelTables 0x1000 0x200000 0x230000 0x400000 = some s' ∧
      DirectMap s'.mem s'.cr3 0x400000 :=
  (kernelTables_directMap_iff
    (freeMachine_freeList (show 0x260 + 0x1a0 < 2 ^ 52 by decide))
    (by decide) (by decide) (by decide) (by rw [List.length_range']; decide)).mpr (by decide)

/-- With 2 GiB of memory and frames to spare, page `2 ^ 31` gets the address of page 0. -/
theorem kernelTables_wrap :
    FreeList (freeMachine 0x260 0x80000).alloc (List.range' 0x260 0x7fda0) ∧
    kptr 0x80000000 = kptr 0 ∧
    ¬ ∃ s', (freeMachine 0x260 0x80000).kernelTables 0x90000 0x200000 0x230000 0x80000000 =
      some s' ∧ DirectMap s'.mem s'.cr3 0x80000000 :=
  ⟨freeMachine_freeList (show 0x260 + 0x7fda0 < 2 ^ 52 by decide), by decide, fun ⟨_, _, hd⟩ ↦
    absurd hd.limit_lt (by decide)⟩

end Sbunix
