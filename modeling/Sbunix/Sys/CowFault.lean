import Sbunix.Sys.LoadSpace

/-!
# The copy-on-write branch of `pageFault`

The page that could not be written gets a frame of its own with the same bytes.  Nothing else of the
user's is touched: no table is allocated, since the page was there.
-/

namespace Sbunix

open Reasoning Kernel

variable {s s' : Machine} {mem mem' : Memory} {w r v n t e : Nat} {free : List Nat}

/-! ## A page that is there -/

/-- The tables on the way to an address of the user, as the kernel walks them. -/
theorem walk_of_tableAt (h : tableAt userEntries mem r (tablePath v) = some t)
    (hlt : ∀ u ∈ tableFrames userEntries mem r, u < 2 ^ 31) : ∃ t₁ t₂, Walk mem r v t₁ t₂ t := by
  have hall : ∀ {k u i c}, child userEntries mem k u i = some c →
      child allEntries mem k u i = some c := by
    intro k u i c hc
    obtain ⟨hp, hf, -⟩ := child_eq_some hc
    rw [← hf]
    exact child_of_present (fun _ ↦ rfl) hp
  have hd := h
  rw [tableAt, tablePath, descend, Option.bind_eq_some_iff] at hd
  obtain ⟨t₁, h₁, hd⟩ := hd
  rw [descend, Option.bind_eq_some_iff] at hd
  obtain ⟨t₂, h₂, hd⟩ := hd
  rw [descend, Option.bind_eq_some_iff] at hd
  obtain ⟨t₃, h₃, hd⟩ := hd
  obtain rfl : t₃ = t := Option.some.inj hd
  have hm₁ : t₁ ∈ tableFrames userEntries mem r := mem_tables_child h₁ self_mem_tables
  have hm₂ : t₂ ∈ tableFrames userEntries mem r :=
    mem_tables_child h₁ (mem_tables_child h₂ self_mem_tables)
  exact ⟨t₁, t₂, hall h₁, hall h₂, hall h₃, hlt r self_mem_tables, hlt t₁ hm₁, hlt t₂ hm₂,
    hlt t₃ (descend_mem h)⟩

theorem pageEntry_eq_some {i : Fin 512} (h : pageEntry mem t i = some e) :
    entry mem t i = e ∧ Present e := by
  unfold pageEntry at h
  split at h
  · obtain rfl := Option.some.inj h
    exact ⟨rfl, ‹_›⟩
  · cases h

theorem pageAt_lt {q : List (Fin 512)} (h : pageAt userEntries mem r q = some e) : e < 2 ^ 64 := by
  obtain ⟨t, -, i, hi⟩ := leaf_mem h
  obtain ⟨rfl, -⟩ := pageEntry_eq_some hi
  exact entry_lt mem t i

/-- An address that is mapped is mapped to another frame, by one write to a table. -/
theorem mapVP2_page (h : Space w s free) (hv : v < 2 ^ 47)
    (he : pageAt userEntries s.mem s.cr3 (pagePath v) = some e) (hn : n < 2 ^ 19) :
    PageWrite userEntries s.cr3 (pagePath v) (n * 4096 ||| 7) s free (s.mapVP2 v (n * 4096)) ∧
      Space w (s.mapVP2 v (n * 4096)) free ∧ (s.mapVP2 v (n * 4096)).cr3 = s.cr3 ∧
      windowFrames (s.mapVP2 v (n * 4096)).mem w = windowFrames s.mem w := by
  obtain ⟨t, ht, -⟩ := (leaf_eq_some (p := tablePath v) rfl).mp he
  obtain ⟨t₁, t₂, hwalk⟩ := walk_of_tableAt ht fun u hu ↦ (h.user.aligned u hu).2
  have hlt : n * 4096 ||| 7 < 2 ^ 64 := Nat.or_lt_two_pow (by omega) (by decide)
  -- all tables are there, so that only the entry of the page is written
  have hmap : s.mapVP2 v (n * 4096) = s.writeEntry (kptr t) (getIndex v 12) (n * 4096 ||| 7) := by
    rw [mapVP2_of_walk hwalk, Machine.writeEntry, phys_kptr hwalk.low_lt]
  have hwrite : PageWrite userEntries s.cr3 (pagePath v) (n * 4096 ||| 7) s free
      (s.mapVP2 v (n * 4096)) := by
    rw [hmap]
    exact (writeEntry_page h.paged rfl ht (present_or (Nat.dvd_mul_left _ _)) hlt).2.2
  have hc : (s.mapVP2 v (n * 4096)).cr3 = s.cr3 := by
    rw [hmap]
    rfl
  have hmiss : missing (child userEntries s.mem) 3 s.cr3 (tablePath v) ≤ free.length := by
    have hnone := missing_le_of_descend (p := tablePath v) (q := []) (l := []) (k := 0) (u := t) rfl
      (by rwa [List.append_nil])
    rw [List.append_nil] at hnone
    exact hnone.trans (Nat.zero_le _)
  have hroot := mapVP2_root (j := 511) h.paged (user_index hv) (Nat.dvd_mul_left 4096 n) (by omega)
    hmiss fun hj ↦ by
      have hval := congrArg Fin.val hj
      rw [getIndex_val] at hval
      change 511 = _ at hval
      omega
  obtain ⟨hwin, hframes⟩ := h.ready.window.congr fun x hx ↦
    hwrite.bytes x fun ht ↦ h.user.window _ ht hx
  refine ⟨hwrite, ⟨⟨hwrite.paged.freeList, h.ready.free_lt, hwin, ?_, ?_, ?_⟩, ?_⟩, hc, hframes⟩
  · rw [hc]
    exact h.ready.root
  · rw [hc, hframes]
    exact h.ready.root_apart
  · rw [hc, child, hroot]
    exact h.ready.shared
  · rw [hc]
    refine ⟨hwrite.paged.tree, hwrite.paged.aligned, ?_, ?_⟩
    · rw [hframes, hwrite.frames]
      exact h.user.window
    · rw [hwrite.frames]
      exact h.user.free

theorem mapVP2_flags (s : Machine) (v p : Nat) : s.mapVP2 v (p ||| 7) = s.mapVP2 v p := by
  have hor : p ||| 7 ||| 7 = p ||| 7 := by rw [Nat.or_assoc, Nat.or_self]
  rw [mapVP2_eq, mapVP2_eq, hor]

/-! ## The copy -/

/-- The page of `v`, which had the entry `e`, has moved to frame `n`. -/
structure PageCopied (w : Nat) (s : Machine) (n v e : Nat) (free : List Nat) (s' : Machine) :
    Prop where
  space : Space w s' free
  cr3 : s'.cr3 = s.cr3
  frames : windowFrames s'.mem w = windowFrames s.mem w
  tables : tableFrames userEntries s'.mem s.cr3 = tableFrames userEntries s.mem s.cr3
  pages : ∀ q, pageAt userEntries s'.mem s.cr3 q =
    if q = pagePath v then some (n * 4096 ||| 7) else pageAt userEntries s.mem s.cr3 q
  copy : ∀ o < 4096, s'.mem (n * 4096 + o) = s.mem (frame e + o)
  bytes : ∀ x, x / 4096 * 4096 ∉ windowFrames s.mem w →
    x / 4096 * 4096 ∉ tableFrames userEntries s.mem s.cr3 → x / 4096 * 4096 ≠ n * 4096 →
      s'.mem x = s.mem x

/-- `f` is a frame of data: it holds no table and is not free. -/
structure DataFrame (w : Nat) (mem : Memory) (r : Nat) (free : List Nat) (f : Nat) : Prop where
  dvd : 4096 ∣ f
  window : f ∉ windowFrames mem w
  free : f ∉ framesOf free
  user : f ∉ tableFrames userEntries mem r

theorem copyPlan_page (h : Space w s free) (hv : v < 2 ^ 47) (hd : 4096 ∣ v)
    (he : pageAt userEntries s.mem s.cr3 (pagePath v) = some e) (hn : n < 2 ^ 19)
    (hne : frame e ≠ n * 4096) (hnt : n * 4096 ∉ tableFrames userEntries s.mem s.cr3) :
    CopyPlan s (kptr (n * 4096)) v 4096 (tableFrames userEntries s.mem s.cr3)
      (fun k ↦ n * 4096 + k) (fun k ↦ frame e + k) := by
  have hfd := frame_dvd (pageAt_lt he)
  refine ⟨fun mem hm k hk ↦ ?_, fun mem hm k hk ↦ ?_, fun k hk l hl hkl ↦ ?_,
    fun k hk l hl hkl ↦ ?_, fun k hk ↦ ?_⟩
  · rw [Machine.translateWrite, kptr_page hn, if_pos (by omega)]
    exact congrArg some (by omega)
  · have hvk : v + k < 2 ^ 47 := by omega
    have hpath : pagePath (v + k) = pagePath v := by
      rw [pagePath_eq_iff]
      omega
    have hwalk : ({ s with mem := mem } : Machine).walk (v + k) = some e := by
      rw [← he, ← pageAt_congr h.user.dvd hm, ← hpath]
      exact (pageAt_restrict (user_index hvk)).symm
    rw [translate_user hvk, hwalk, Option.map_some]
    exact congrArg some (by omega)
  · omega
  · apply hne
    omega
  · rwa [frame_of_offset hk]

/-- The copy into the new page. -/
theorem memcpy_page (h : Space w s free) (hv : v < 2 ^ 47) (hd : 4096 ∣ v)
    (he : pageAt userEntries s.mem s.cr3 (pagePath v) = some e) (hn : n < 2 ^ 19)
    (hnw : n * 4096 ∉ windowFrames s.mem w)
    (hnt : n * 4096 ∉ tableFrames userEntries s.mem s.cr3) (hne : frame e ≠ n * 4096) :
    ∃ s', s.memcpy (kptr (n * 4096)) v 4096 = some s' ∧ Space w s' free ∧ s'.cr3 = s.cr3 ∧
      windowFrames s'.mem w = windowFrames s.mem w ∧
      SameOn (tableFrames userEntries s.mem s.cr3) s.mem s'.mem ∧
      (∀ o < 4096, s'.mem (n * 4096 + o) = s.mem (frame e + o)) ∧
      ∀ x, x / 4096 * 4096 ≠ n * 4096 → s'.mem x = s.mem x := by
  obtain ⟨mem, hcopy, hbytes, hrest⟩ := memcpy_spec (copyPlan_page h hv hd he hn hne hnt)
  have hout : ∀ x, x / 4096 * 4096 ≠ n * 4096 → mem x = s.mem x := fun x hx ↦
    hrest x fun k hk hxk ↦ hx (by rw [hxk, frame_of_offset hk])
  obtain ⟨s', hs', ha', hc', hm'⟩ : ∃ s' : Machine, { s with mem := mem } = s' ∧
      s'.alloc = s.alloc ∧ s'.cr3 = s.cr3 ∧ s'.mem = mem := ⟨_, rfl, rfl, rfl, rfl⟩
  rw [hs'] at hcopy
  rw [← hm'] at hbytes hout
  have hst : SameOn (tableFrames userEntries s.mem s.cr3) s.mem s'.mem := fun x hx ↦
    hout x fun hxn ↦ hnt (hxn ▸ hx)
  obtain ⟨hspace, hframes, -⟩ := h.congr ha' hc' (fun x hx ↦ hout x fun hxn ↦ hnw (hxn ▸ hx)) hst
  exact ⟨s', hcopy, hspace, hc', hframes, hst, hbytes, hout⟩

theorem copyOnWrite_spec (h : Space w s (n :: free)) (hv : v < 2 ^ 47)
    (he : pageAt userEntries s.mem s.cr3 (pagePath v) = some e)
    (hf : DataFrame w s.mem s.cr3 (n :: free) (frame e)) :
    ∃ s', copyOnWrite s v s.cr3 = some s' ∧ PageCopied w s n v e free s' := by
  have hn := h.ready.free_lt n List.mem_cons_self
  have hnf : n * 4096 ∈ framesOf (n :: free) := ⟨n, List.mem_cons_self, rfl⟩
  obtain ⟨hp, hk⟩ := kmalloc_kept h.ready
  have hpa := kmalloc_mapped h.ready
  have hsame := hk.sameOn h.user
  obtain ⟨l, hl, hbytes₁⟩ := hk.taken
  obtain rfl : l = [n] := List.append_cancel_right hl.symm
  obtain ⟨s₁, hs₁⟩ : ∃ s₁, s.kmalloc.2 = s₁ := ⟨_, rfl⟩
  rw [hs₁] at hk hpa hsame hbytes₁
  have hspace₁ : Space w s₁ free := by
    refine ⟨hk.ready, ?_⟩
    rw [hk.cr3]
    exact hk.userTree h.user
  have htab₁ := tableFrames_congr h.user.dvd hsame
  -- the page as the kernel reads it
  have hpage : frame v = v / 4096 * 4096 := frame_eq (by omega)
  have hpath : pagePath (frame v) = pagePath v := by
    rw [pagePath_eq_iff, hpage]
    omega
  have he₁ : pageAt userEntries s₁.mem s₁.cr3 (pagePath (frame v)) = some e := by
    rw [hpath, hk.cr3, pageAt_congr h.user.dvd hsame, he]
  have hnw : n * 4096 ∉ windowFrames s.mem w := h.ready.window.apart _ hnf
  have hnt : n * 4096 ∉ tableFrames userEntries s.mem s.cr3 := fun ht ↦ h.user.free _ ht hnf
  obtain ⟨s₂, hcopy, hspace₂, hc₂, hframes₂, hst, hbytes₂, hrest⟩ :=
    memcpy_page hspace₁ (by omega) (by omega) he₁ hn (by rwa [hk.frames])
      (by rwa [hk.cr3, htab₁]) fun hfe ↦ hf.free (hfe ▸ hnf)
  rw [hk.cr3] at hst hc₂
  have htab₂ := tableFrames_congr (by rw [htab₁]; exact h.user.dvd) hst
  have hpages₂ : ∀ q, pageAt userEntries s₂.mem s.cr3 q = pageAt userEntries s.mem s.cr3 q :=
    fun q ↦ (pageAt_congr (by rw [htab₁]; exact h.user.dvd) hst q).trans
      (pageAt_congr h.user.dvd hsame q)
  have he₂ : pageAt userEntries s₂.mem s₂.cr3 (pagePath (frame v)) = some e := by
    rw [hc₂, hpages₂, hpath, he]
  obtain ⟨hwrite, hspace₃, hc₃, hframes₃⟩ := mapVP2_page hspace₂ (by omega) he₂ hn
  obtain ⟨s₃, hs₃⟩ : ∃ s₃, s₂.mapVP2 (frame v) (n * 4096) = s₃ := ⟨_, rfl⟩
  rw [hs₃] at hwrite hspace₃ hc₃ hframes₃
  rw [hc₂] at hwrite hc₃
  have hrun : copyOnWrite s v s.cr3 = some s₃ := by
    have hkp : frame (kptr (n * 4096)) = kptr (n * 4096) := by
      rw [kptr_page hn, frame_eq (by simp only [kernBase]; omega)]
      simp only [kernBase]
      omega
    unfold copyOnWrite
    dsimp only
    rw [hs₁, hp, hkp, hpa, Option.bind_some, hcopy, Option.map_some, mapVP2_flags, hs₃]
    change some (s₃.loadCR3 s.cr3) = some s₃
    rw [← hc₃]
    rfl
  refine ⟨s₃, hrun, hspace₃, hc₃, hframes₃.trans (hframes₂.trans hk.frames),
    hwrite.frames.trans (htab₂.trans htab₁), fun q ↦ ?_, fun o ho ↦ ?_, fun x hxw hxt hxn ↦ ?_⟩
  · rw [hwrite.pages, hpath, hpages₂]
  · have hnew : ∀ x, x / 4096 * 4096 = n * 4096 → s₃.mem x = s₂.mem x := fun x hx ↦
      hwrite.bytes x (by rw [hx, htab₂, htab₁]; exact hnt)
    rw [hnew _ (frame_of_offset ho), hbytes₂ o ho]
    have hfd := frame_dvd (pageAt_lt he)
    have hpg : (frame e + o) / 4096 * 4096 = frame e := by omega
    refine hbytes₁ _ (by rw [hpg]; exact hf.window) ?_
    rw [hpg]
    rintro ⟨m, hm, hfe⟩
    exact hf.free ⟨m, List.mem_singleton.mp hm ▸ List.mem_cons_self, hfe⟩
  · rw [hwrite.bytes x (by rwa [htab₂, htab₁]), hrest x hxn]
    refine hbytes₁ x hxw ?_
    rintro ⟨m, hm, hfe⟩
    exact hxn (by rw [hfe, List.mem_singleton.mp hm])

/-- A fault at a write to a page that is there and marked is handled, without a look at the VMAs. -/
theorem pageFault_cow {k : Kernel} {fuel errCode : Nat} (h : Space w k.toMachine (n :: free))
    (hcr3 : (k.procs.pcbs k.procs.current).cr3 = k.cr3) (hv : v < 2 ^ 47)
    (he : pageAt userEntries k.mem k.cr3 (pagePath v) = some e) (hc : e &&& cowBit ≠ 0)
    (hf : DataFrame w k.mem k.cr3 (n :: free) (frame e)) (hp : errCode &&& pBit ≠ 0)
    (hw : errCode &&& wBit ≠ 0) :
    ∃ s', k.pageFault fuel errCode v = some (.resume (k.onMachine s')) ∧
      PageCopied w k.toMachine n v e free s' := by
  obtain ⟨s', hs', hcopied⟩ := copyOnWrite_spec h hv he hf
  refine ⟨s', ?_, hcopied⟩
  have haddr := ((physicalAddress_iff h.paged (user_index hv)).mpr he).1
  have hp' : errCode &&& 0xF &&& pBit ≠ 0 := by rwa [Nat.and_assoc]
  have hw' : errCode &&& 0xF &&& wBit ≠ 0 := by rwa [Nat.and_assoc]
  unfold pageFault
  dsimp only
  rw [if_pos ⟨hp', hw'⟩, haddr, Option.bind_some, if_pos hc, hcr3, hs', Option.map_some]

end Sbunix
