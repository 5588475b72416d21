import Sbunix.Sys.ForkSpace

/-!
# Pages for a new program

A program is loaded while its own tables are: pages of the free list are mapped one by one, and
bytes are copied to them.  Each mapped page has a frame of its own, and its bytes are what was
copied there or what the frame held before.
-/

namespace Sbunix

open Reasoning

variable {s s' s₀ : Machine} {w r v p n : Nat} {free free' free₀ : List Nat} {i j : Fin 512}

/-- The tables in use share the window, and the user's are a tree apart from the free pages. -/
structure Space (w : Nat) (s : Machine) (free : List Nat) : Prop where
  ready : Ready w s free
  user : UserTree s.mem w s.cr3 free

theorem Space.paged (h : Space w s free) : Paged userEntries s s.cr3 free :=
  ⟨h.user.tree, h.user.aligned, h.ready.freeList, h.ready.free_lt, fun f hf ht ↦ h.user.free f ht hf⟩

/-! ## The other entries of the top-level table -/

/-- `map_v_p2(v, p)` writes to one entry of the top-level table at most. -/
theorem mapVP2_root (h : Paged userEntries s s.cr3 free) (hv : userEntries (getIndex v 39))
    (hp : 4096 ∣ p) (hp' : p < 2 ^ 64)
    (hm : missing (child userEntries s.mem) 3 s.cr3 (tablePath v) ≤ free.length)
    (hj : j ≠ getIndex v 39) : entry (s.mapVP2 v p).mem s.cr3 j = entry s.mem s.cr3 j := by
  have hne : ∀ {s' : Machine} {l : List (Fin 512)} {t : Nat} {f : List Nat},
      Paged userEntries s' s.cr3 f → tableAt userEntries s'.mem s.cr3 l = some t → l ≠ [] →
      s.cr3 ≠ t := by
    rintro s' l t f hs ht hl rfl
    exact hl (hs.tree.descend_inj ht descend_nil)
  obtain ⟨f₁, t₁, he₁, h₁, ht₁, hm₁⟩ := nextTable_spec (k := 2) h descend_nil rfl (fun _ ↦ hv) hm
  obtain ⟨f₂, t₂, he₂, h₂, ht₂, hm₂⟩ :=
    nextTable_spec (k := 1) h₁.paged ht₁ rfl (fun hk ↦ by cases hk) hm₁
  obtain ⟨f₃, t₃, he₃, h₃, ht₃, -⟩ :=
    nextTable_spec (k := 0) h₂.paged ht₂ rfl (fun hk ↦ by cases hk) hm₂
  have hlt : p ||| 7 < 2 ^ 64 := by
    rw [or_low (n := 12) hp (by decide)]
    omega
  obtain ⟨hone, -, -⟩ := writeEntry_page (i := getIndex v 12) h₃.paged rfl ht₃ (present_or hp) hlt
  rw [mapVP2_eq]
  simp only [he₁, he₂, he₃]
  rw [hone s.cr3 self_mem_tables j fun he ↦ hne h₃.paged ht₃ (by simp) (Prod.mk.inj he).1,
    h₃.keep s.cr3 self_mem_tables j fun he ↦ hne h₂.paged ht₂ (by simp) (Prod.mk.inj he).1,
    h₂.keep s.cr3 self_mem_tables j fun he ↦ hne h₁.paged ht₁ (by simp) (Prod.mk.inj he).1]
  exact h₁.keep s.cr3 self_mem_tables j fun he ↦ hj (Prod.mk.inj he).2

/-! ## What keeps a space -/

theorem Window.sublist {mem : Memory} (h : Window mem w free) (hl : free' ⊆ free) :
    Window mem w free' :=
  ⟨h.tree, h.aligned, fun m hm ↦ h.direct m (hl hm), fun f hf ↦ h.apart f (framesOf_mono hl hf)⟩

/-- Writes elsewhere than to the tables. -/
theorem Space.congr (h : Space w s free) (ha : s'.alloc = s.alloc) (hc : s'.cr3 = s.cr3)
    (hw : SameOn (windowFrames s.mem w) s.mem s'.mem)
    (hu : SameOn (tableFrames userEntries s.mem s.cr3) s.mem s'.mem) :
    Space w s' free ∧ windowFrames s'.mem w = windowFrames s.mem w ∧
      tableFrames userEntries s'.mem s.cr3 = tableFrames userEntries s.mem s.cr3 := by
  obtain ⟨hwin, hframes⟩ := h.ready.window.congr hw
  have htab := tableFrames_congr h.user.dvd hu
  have hroot := hu.entry (h.user.dvd _ self_mem_tables) self_mem_tables
  refine ⟨⟨⟨ha ▸ h.ready.freeList, h.ready.free_lt, hwin, hc ▸ h.ready.root, ?_, ?_⟩, ?_⟩, hframes,
    htab⟩
  · rw [hframes, hc]
    exact h.ready.root_apart
  · rw [hc]
    exact (congrFun (child_congr hroot 2) 511).trans h.ready.shared
  · rw [hc]
    exact h.user.congr hu hframes (List.Subset.refl free)

theorem Space.mapVP2 (h : Space w s free) (hv : v < 2 ^ 47) (hp : 4096 ∣ p) (hp' : p < 2 ^ 64)
    (hlen : 3 ≤ free.length) :
    ∃ free', Mapped userEntries s.cr3 v p s free (s.mapVP2 v p) free' ∧
      free.length ≤ free'.length + 3 ∧ Space w (s.mapVP2 v p) free' ∧
      windowFrames (s.mapVP2 v p).mem w = windowFrames s.mem w := by
  have hi : (getIndex v 39).val < 256 := by
    rw [getIndex_val]
    omega
  have hU : userEntries (getIndex v 39) := decide_eq_true (show (getIndex v 39).val < 510 by omega)
  have hm : missing (child userEntries s.mem) 3 s.cr3 (tablePath v) ≤ free.length :=
    (missing_le _).trans hlen
  obtain ⟨free', hmap⟩ := mapVP2_spec h.paged hU hp hp' hm
  obtain ⟨l, rfl, htab⟩ := hmap.taken
  have hpop := pops_mapVP2 s v p (l ++ free') h.ready.freeList
  have hl3 : l.length ≤ 3 := by
    obtain ⟨k, hk, hf⟩ := hpop
    have hu := congrArg List.length (hf.unique hmap.paged.freeList)
    rw [List.length_drop, List.length_append] at hu
    rw [List.length_append] at hlen
    omega
  have hsub : free' ⊆ l ++ free' := List.subset_append_right l free'
  have hlsub : l ⊆ l ++ free' := List.subset_append_left l free'
  have hnw : ∀ t ∈ tableFrames userEntries (s.mapVP2 v p).mem s.cr3, t ∉ windowFrames s.mem w := by
    intro t ht
    rw [htab] at ht
    rcases ht with ht | ht
    · exact h.user.window t ht
    · exact h.ready.window.apart t (framesOf_mono hlsub ht)
  have hsame : SameOn (windowFrames s.mem w) s.mem (s.mapVP2 v p).mem := fun x hx ↦
    hmap.bytes x fun ht ↦ hnw _ ht hx
  obtain ⟨hwin, hframes⟩ := h.ready.window.congr hsame
  -- the kernel's entry is not on the path of a user address
  have hroot := mapVP2_root h.paged hU hp hp' hm (j := 511) fun he ↦ by
    rw [← he] at hi
    exact absurd hi (by decide)
  refine ⟨free', hmap, by rw [List.length_append]; omega, ⟨⟨hmap.paged.freeList,
    fun m hm ↦ h.ready.free_lt m (hsub hm), hwin.sublist hsub, ?_, ?_, ?_⟩, ?_⟩, hframes⟩
  · rw [hmap.cr3]
    exact h.ready.root
  · rw [hmap.cr3, hframes]
    exact ⟨h.ready.root_apart.1, fun hf ↦ h.ready.root_apart.2 (framesOf_mono hsub hf)⟩
  · rw [hmap.cr3, child, hroot]
    exact h.ready.shared
  · rw [hmap.cr3]
    refine ⟨hmap.paged.tree, hmap.paged.aligned, ?_, fun t ht hf ↦ hmap.paged.free_fresh t hf ht⟩
    rw [hframes]
    exact hnw

/-! ## The loader's view -/

/-- Loading has come from `s₀` to `s`: page `x` of the user has got frame `A x`, which holds the bytes
of `img` and for the rest what it held before. -/
structure Loaded (w : Nat) (s₀ : Machine) (free₀ : List Nat) (A : Nat → Option Nat)
    (img : Nat → Option UInt8) (s : Machine) (free : List Nat) : Prop where
  space : Space w s free
  cr3 : s.cr3 = s₀.cr3
  frames : windowFrames s.mem w = windowFrames s₀.mem w
  suffix : free <:+ free₀
  tables : tableFrames userEntries s.mem s.cr3 ⊆
    tableFrames userEntries s₀.mem s₀.cr3 ∪ framesOf free₀
  pages : ∀ v < 2 ^ 47, pageAt userEntries s.mem s.cr3 (pagePath v) =
    ((A (v / 4096)).map fun n ↦ n * 4096 ||| 7).or (pageAt userEntries s₀.mem s₀.cr3 (pagePath v))
  high : ∀ q, (∀ v < 2 ^ 47, q ≠ pagePath v) →
    pageAt userEntries s.mem s.cr3 q = pageAt userEntries s₀.mem s₀.cr3 q
  owned : ∀ x n, A x = some n → n ∈ free₀ ∧ n ∉ free ∧
    n * 4096 ∉ tableFrames userEntries s.mem s.cr3
  inj : ∀ x y n, A x = some n → A y = some n → x = y
  bytes : ∀ x n, A x = some n → ∀ o < 4096,
    s.mem (n * 4096 + o) = (img (x * 4096 + o)).getD (s₀.mem (n * 4096 + o))
  untouched : ∀ n ∈ free, ∀ o < 4096, s.mem (n * 4096 + o) = s₀.mem (n * 4096 + o)
  rest : ∀ y, y / 4096 * 4096 ∉ windowFrames s₀.mem w → y / 4096 * 4096 ∉ framesOf free₀ →
    y / 4096 * 4096 ∉ tableFrames userEntries s₀.mem s₀.cr3 → s.mem y = s₀.mem y

variable {A : Nat → Option Nat} {img : Nat → Option UInt8}

theorem Loaded.start (h : Space w s₀ free₀) :
    Loaded w s₀ free₀ (fun _ ↦ none) (fun _ ↦ none) s₀ free₀ where
  space := h
  cr3 := rfl
  frames := rfl
  suffix := List.suffix_rfl
  tables := Set.subset_union_left
  pages _ _ := rfl
  high _ _ := rfl
  owned _ _ hx := by cases hx
  inj _ _ _ hx := by cases hx
  bytes _ _ hx := by cases hx
  untouched _ _ _ _ := rfl
  rest _ _ _ _ := rfl

theorem frame_of_offset {o : Nat} (ho : o < 4096) : (n * 4096 + o) / 4096 * 4096 = n * 4096 := by
  omega

theorem mem_framesOf {l : List Nat} : n * 4096 ∈ framesOf l ↔ n ∈ l := by
  constructor
  · rintro ⟨m, hm, he⟩
    have hnm : n = m := by omega
    exact hnm ▸ hm
  · exact fun h ↦ ⟨n, h, rfl⟩

theorem Loaded.kmalloc (h : Loaded w s₀ free₀ A img s (n :: free)) (h₀ : Space w s₀ free₀) :
    s.kmalloc.1 = kptr (n * 4096) ∧ Loaded w s₀ free₀ A img s.kmalloc.2 free := by
  obtain ⟨hfst, hk⟩ := kmalloc_kept h.space.ready
  obtain ⟨l, hl, hbytes⟩ := hk.taken
  obtain rfl : l = [n] := by
    apply List.append_cancel_right
    exact hl.symm
  have hsame := hk.sameOn h.space.user
  have htab : tableFrames userEntries s.kmalloc.2.mem s.cr3 =
      tableFrames userEntries s.mem s.cr3 := tableFrames_congr h.space.user.dvd hsame
  -- the record's own frame is the only one of the free ones that is written to
  have hmem : ∀ m ∈ free₀, m ≠ n → ∀ o < 4096,
      s.kmalloc.2.mem (m * 4096 + o) = s.mem (m * 4096 + o) := by
    intro m hm hmn o ho
    apply hbytes
    · rw [frame_of_offset ho, h.frames]
      exact h₀.ready.window.apart _ (mem_framesOf.mpr hm)
    · rw [frame_of_offset ho, mem_framesOf, List.mem_singleton]
      exact hmn
  have hnf : n ∉ free := h.space.ready.freeList.nodup_cons
  refine ⟨hfst, ⟨hk.ready, ?_⟩, hk.cr3.trans h.cr3, hk.frames.trans h.frames,
    (List.suffix_cons n free).trans h.suffix, ?_, fun v hv ↦ ?_, fun q hq ↦ ?_, fun x m hx ↦ ?_,
    h.inj, fun x m hx o ho ↦ ?_, fun m hm o ho ↦ ?_, fun y hyw hyf hyt ↦ ?_⟩
  · rw [hk.cr3]
    exact hk.userTree h.space.user
  · rw [hk.cr3, htab]
    exact h.tables
  · rw [hk.cr3, pageAt_congr h.space.user.dvd hsame]
    exact h.pages v hv
  · rw [hk.cr3, pageAt_congr h.space.user.dvd hsame]
    exact h.high q hq
  · obtain ⟨hm₀, hm, hmt⟩ := h.owned x m hx
    rw [hk.cr3, htab]
    exact ⟨hm₀, fun hmf ↦ hm (List.mem_cons_of_mem n hmf), hmt⟩
  · obtain ⟨hm₀, hm, -⟩ := h.owned x m hx
    rw [hmem m hm₀ (fun he ↦ hm (he ▸ List.mem_cons_self)) o ho]
    exact h.bytes x m hx o ho
  · have hm' : m ∈ n :: free := List.mem_cons_of_mem n hm
    rw [hmem m (h.suffix.subset hm') (fun he ↦ hnf (he ▸ hm)) o ho]
    exact h.untouched m hm' o ho
  · rw [hbytes y (by rwa [h.frames]) fun hf ↦ hyf (framesOf_mono ?_ hf)]
    · exact h.rest y hyw hyf hyt
    · intro m hm
      rw [List.mem_singleton.mp hm]
      exact h.suffix.subset List.mem_cons_self

/-- `img` without page `x`. -/
def clearPage (x : Nat) (img : Nat → Option UInt8) : Nat → Option UInt8 := fun a ↦
  if a / 4096 = x then none else img a

theorem Space.allocatePage (h : Space w s (n :: free)) : Space w s.allocatePage.2 free := by
  obtain ⟨-, hf, -, -⟩ := allocatePage_spec h.ready.freeList
  have hsub : free ⊆ n :: free := List.subset_cons_self n free
  refine ⟨⟨hf, fun m hm ↦ h.ready.free_lt m (hsub hm), h.ready.window.sublist hsub, h.ready.root,
    ⟨h.ready.root_apart.1, fun hm ↦ h.ready.root_apart.2 (framesOf_mono hsub hm)⟩,
    h.ready.shared⟩, ?_⟩
  exact h.user.congr (fun _ _ ↦ rfl) rfl hsub

/-! Page `y` is given the frame `n`, before anything is written. -/

theorem update_some_inj {y : Nat} (hinj : ∀ x x' m, A x = some m → A x' = some m → x = x')
    (hne : ∀ x, A x ≠ some n) (x x' m : Nat) (hx : Function.update A y (some n) x = some m)
    (hx' : Function.update A y (some n) x' = some m) : x = x' := by
  by_cases hxy : x = y
  · by_cases hxy' : x' = y
    · rw [hxy, hxy']
    · rw [hxy, Function.update_self] at hx
      rw [Function.update_of_ne hxy', ← hx] at hx'
      exact absurd hx' (hne x')
  · rw [Function.update_of_ne hxy] at hx
    by_cases hxy' : x' = y
    · rw [hxy', Function.update_self] at hx'
      exact absurd (hx.trans hx'.symm) (hne x)
    · rw [Function.update_of_ne hxy'] at hx'
      exact hinj x x' m hx hx'

theorem Loaded.owned_update {x y m : Nat} (h : Loaded w s₀ free₀ A img s (n :: free))
    (hx : Function.update A y (some n) x = some m) :
    m ∈ free₀ ∧ m ∉ free ∧ m * 4096 ∉ tableFrames userEntries s.mem s.cr3 := by
  by_cases he : x = y
  · rw [he, Function.update_self] at hx
    obtain rfl := Option.some.inj hx
    exact ⟨h.suffix.subset List.mem_cons_self, h.space.ready.freeList.nodup_cons, fun ht ↦
      h.space.user.free _ ht (mem_framesOf.mpr List.mem_cons_self)⟩
  · rw [Function.update_of_ne he] at hx
    obtain ⟨hm₀, hm, hmt⟩ := h.owned x m hx
    exact ⟨hm₀, fun hm' ↦ hm (List.mem_cons_of_mem n hm'), hmt⟩

/-- A free frame holds what it held at the start, and no byte of the image. -/
theorem Loaded.bytes_update {x y m o : Nat} (h : Loaded w s₀ free₀ A img s (n :: free))
    (hx : Function.update A y (some n) x = some m) (ho : o < 4096) :
    s.mem (m * 4096 + o) = (clearPage y img (x * 4096 + o)).getD (s₀.mem (m * 4096 + o)) := by
  have hpage : (x * 4096 + o) / 4096 = x := by omega
  rw [clearPage, hpage]
  by_cases he : x = y
  · rw [he, Function.update_self] at hx
    obtain rfl := Option.some.inj hx
    rw [if_pos he]
    exact h.untouched n List.mem_cons_self o ho
  · rw [Function.update_of_ne he] at hx
    rw [if_neg he]
    exact h.bytes x m hx o ho

theorem Loaded.mapped {s₁ : Machine} (h : Loaded w s₀ free₀ A img s (n :: free)) (hv : v < 2 ^ 47)
    (hm₁ : s₁.mem = s.mem) (hc₁ : s₁.cr3 = s.cr3)
    (hmap : Mapped userEntries s₁.cr3 v (n * 4096) s₁ free s' free') (hspace : Space w s' free')
    (hframes : windowFrames s'.mem w = windowFrames s₁.mem w) :
    Loaded w s₀ free₀ (Function.update A (v / 4096) (some n)) (clearPage (v / 4096) img) s'
      free' := by
  have hcr3 : s'.cr3 = s.cr3 := hmap.cr3.trans hc₁
  have hpages := hmap.pages
  have hold := hmap.bytes
  obtain ⟨l, hl, htab⟩ := hmap.taken
  rw [hc₁, hm₁] at htab hpages
  rw [hc₁, hm₁] at hold
  rw [hm₁] at hframes
  have hlf : l ⊆ free := by
    rw [hl]
    exact List.subset_append_left l free'
  have hf'f : free' ⊆ free := by
    rw [hl]
    exact List.subset_append_right l free'
  have hf₀ : free ⊆ free₀ := fun m hm ↦ h.suffix.subset (List.mem_cons_of_mem n hm)
  have hl₀ : framesOf l ⊆ framesOf free₀ := framesOf_mono fun m hm ↦ hf₀ (hlf hm)
  have hsuf : free' <:+ free₀ := by
    refine List.IsSuffix.trans ?_ ((List.suffix_cons n free).trans h.suffix)
    rw [hl]
    exact List.suffix_append l free'
  -- frames that were in use have not become tables
  have hnt : ∀ m, m * 4096 ∉ tableFrames userEntries s.mem s.cr3 → m ∉ free →
      m * 4096 ∉ tableFrames userEntries s'.mem s.cr3 := by
    intro m hm hml ht
    rw [htab] at ht
    rcases ht with ht | ht
    · exact hm ht
    · exact hml (hlf (mem_framesOf.mp ht))
  have hbytes : ∀ m, m * 4096 ∉ tableFrames userEntries s'.mem s.cr3 → ∀ o < 4096,
      s'.mem (m * 4096 + o) = s.mem (m * 4096 + o) := by
    intro m hm o ho
    exact hold _ (by rwa [frame_of_offset ho])
  refine ⟨hspace, hcr3.trans h.cr3, hframes.trans h.frames, hsuf, ?_, fun u hu ↦ ?_,
    fun q hq ↦ ?_, fun x m hx ↦ ?_, ?_, fun x m hx o ho ↦ ?_, fun m hm o ho ↦ ?_,
    fun y hyw hyf hyt ↦ ?_⟩
  · rw [hcr3, htab]
    refine Set.union_subset h.tables ?_
    exact Set.Subset.trans hl₀ Set.subset_union_right
  · rw [hcr3, hpages]
    by_cases he : u / 4096 = v / 4096
    · rw [if_pos (pagePath_eq_iff.mpr (by rw [he])), he, Function.update_self, Option.map_some,
        Option.some_or]
    · rw [if_neg fun hp ↦ he ?_, Function.update_of_ne he]
      · exact h.pages u hu
      · rw [pagePath_eq_iff] at hp
        omega
  · rw [hcr3, hpages, if_neg (hq v hv)]
    exact h.high q hq
  · obtain ⟨hm₀, hm, hmt⟩ := h.owned_update hx
    rw [hcr3]
    exact ⟨hm₀, fun hm' ↦ hm (hf'f hm'), hnt m hmt hm⟩
  · exact update_some_inj h.inj fun x hx ↦ (h.owned x n hx).2.1 List.mem_cons_self
  · obtain ⟨-, hm, hmt⟩ := h.owned_update hx
    rw [hbytes m (hnt m hmt hm) o ho]
    exact h.bytes_update hx ho
  · have hmt : m * 4096 ∉ tableFrames userEntries s'.mem s.cr3 := fun ht ↦
      hspace.user.free _ (by rw [hcr3]; exact ht) (mem_framesOf.mpr hm)
    rw [hbytes m hmt o ho]
    exact h.untouched m (List.mem_cons_of_mem n (hf'f hm)) o ho
  · refine (hold y fun ht ↦ ?_).trans (h.rest y hyw hyf hyt)
    rw [htab] at ht
    rcases ht with ht | ht
    · rcases h.tables ht with ht | ht
      · exact hyt ht
      · exact hyf ht
    · exact hyf (hl₀ ht)

theorem Loaded.mapNew (h : Loaded w s₀ free₀ A img s free) (hv : v < 2 ^ 47)
    (hlen : 4 ≤ free.length) :
    ∃ n free', free.length ≤ free'.length + 4 ∧ free' <:+ free ∧
      Loaded w s₀ free₀ (Function.update A (v / 4096) (some n)) (clearPage (v / 4096) img)
        (s.mapNew v) free' := by
  cases free with
  | nil => exact absurd hlen (by decide)
  | cons n free =>
      rw [List.length_cons] at hlen
      have hn := h.space.ready.free_lt n List.mem_cons_self
      obtain ⟨ha, -, hm₁, hc₁⟩ := allocatePage_spec h.space.ready.freeList
      have heq : s.mapNew v = s.allocatePage.2.mapVP2 v (n * 4096) := by
        rw [← ha]
        rfl
      obtain ⟨free', hmap, hlen', hspace, hframes⟩ := h.space.allocatePage.mapVP2 (p := n * 4096)
        hv (Nat.dvd_mul_left _ _) (by omega) (by omega)
      obtain ⟨l, hl, -⟩ := hmap.taken
      rw [heq]
      refine ⟨n, free', ?_, ?_, h.mapped hv hm₁ hc₁ hmap hspace hframes⟩
      · rw [List.length_cons]
        omega
      · exact List.IsSuffix.trans ⟨l, hl.symm⟩ (List.suffix_cons n free)

/-! ## What the process sees -/

theorem user_lt_kernBase (hv : v < 2 ^ 47) : ¬ kernBase ≤ v := by
  simp only [kernBase]
  omega

theorem user_index (hv : v < 2 ^ 47) : userEntries (getIndex v 39) := by
  apply decide_eq_true
  show (getIndex v 39).val < 510
  rw [getIndex_val]
  omega

theorem walk_user (hv : v < 2 ^ 47) : s.walk v = pageAt userEntries s.mem s.cr3 (pagePath v) :=
  (pageAt_restrict (user_index hv)).symm

/-- The entry of a loaded page, in any memory that has the tables. -/
theorem Loaded.walk_same (h : Loaded w s₀ free₀ A img s free) (hv : v < 2 ^ 47)
    (hx : A (v / 4096) = some n) {mem : Memory}
    (hs : SameOn (tableFrames userEntries s.mem s.cr3) s.mem mem) :
    ({ s with mem := mem } : Machine).walk v = some (n * 4096 ||| 7) := by
  have hpage := h.pages v hv
  rw [hx, Option.map_some, Option.some_or] at hpage
  rw [← hpage, ← pageAt_congr h.space.user.dvd hs]
  exact (pageAt_restrict (user_index hv)).symm

/-- A page is the one that has been loaded, or as it was before. -/
theorem Loaded.walk (h : Loaded w s₀ free₀ A img s free) (hv : v < 2 ^ 47) :
    s.walk v = ((A (v / 4096)).map fun n ↦ n * 4096 ||| 7).or (s₀.walk v) := by
  rw [walk_user hv, walk_user hv, h.pages v hv]

theorem Loaded.walk_page (h : Loaded w s₀ free₀ A img s free) (hv : v < 2 ^ 47)
    (hx : A (v / 4096) = some n) : s.walk v = some (n * 4096 ||| 7) := by
  rw [h.walk hv, hx]
  rfl

theorem translate_user (hv : v < 2 ^ 47) :
    s.translate v = (s.walk v).map fun e ↦ frame e + v % 4096 := by
  rw [Machine.translate, if_neg (user_lt_kernBase hv)]

theorem Loaded.frame_lt (h : Loaded w s₀ free₀ A img s free) (h₀ : Space w s₀ free₀) {x : Nat}
    (hx : A x = some n) : n < 2 ^ 19 := h₀.ready.free_lt n (h.owned x n hx).1

theorem frame_page (hn : n < 2 ^ 19) : frame (n * 4096 ||| 7) = n * 4096 :=
  frame_or (Nat.dvd_mul_left _ _) (by omega) (by decide)

theorem Loaded.readByte (h : Loaded w s₀ free₀ A img s free) (h₀ : Space w s₀ free₀)
    (hv : v < 2 ^ 47) (hx : A (v / 4096) = some n) :
    s.readByte v = some ((img v).getD (s₀.mem (n * 4096 + v % 4096))) := by
  have ho : v % 4096 < 4096 := Nat.mod_lt _ (by decide)
  have hb := h.bytes _ n hx (v % 4096) ho
  rw [Nat.div_add_mod' v 4096] at hb
  rw [Machine.readByte, Machine.translate, if_neg (user_lt_kernBase hv),
    h.walk_page hv hx, Option.map_some,
    Option.map_some, frame_page (h.frame_lt h₀ hx), hb]

/-! ## Copying to the pages -/

/-- `img` with the bytes `b 0`, `b 1`, ... of a copy. -/
def copyBytes (dest len : Nat) (b : Nat → UInt8) (img : Nat → Option UInt8) : Nat → Option UInt8 :=
  fun a ↦ if dest ≤ a ∧ a < dest + len then some (b (a - dest)) else img a

/-- The physical addresses `a` to `a + len` hold nothing that the loader writes to. -/
structure Apart (w : Nat) (s₀ : Machine) (free₀ : List Nat) (a len : Nat) : Prop where
  window : ∀ k < len, (a + k) / 4096 * 4096 ∉ windowFrames s₀.mem w
  free : ∀ k < len, (a + k) / 4096 * 4096 ∉ framesOf free₀
  user : ∀ k < len, (a + k) / 4096 * 4096 ∉ tableFrames userEntries s₀.mem s₀.cr3

theorem Loaded.apart (h : Loaded w s₀ free₀ A img s free) {a len k : Nat}
    (ha : Apart w s₀ free₀ a len) (hk : k < len) : s.mem (a + k) = s₀.mem (a + k) :=
  h.rest _ (ha.window k hk) (ha.free k hk) (ha.user k hk)

theorem Loaded.copyPlan (h : Loaded w s₀ free₀ A img s free) (h₀ : Space w s₀ free₀)
    {dest src len : Nat} (hdest : dest + len ≤ 2 ^ 47) (hA : ∀ k < len, A ((dest + k) / 4096) ≠ none)
    (hsrc : kernBase ≤ src) (ha : Apart w s₀ free₀ (src - kernBase) len) :
    CopyPlan s dest src len (tableFrames userEntries s.mem s.cr3)
      (fun k ↦ (A ((dest + k) / 4096)).getD 0 * 4096 + (dest + k) % 4096)
      (fun k ↦ src - kernBase + k) := by
  have hsome : ∀ k < len, ∃ n, A ((dest + k) / 4096) = some n := fun k hk ↦
    Option.ne_none_iff_exists'.mp (hA k hk)
  have hmod : ∀ x : Nat, x % 4096 < 4096 := fun x ↦ Nat.mod_lt x (by decide)
  refine ⟨fun mem hm k hk ↦ ?_, fun mem hm k hk ↦ ?_, fun k hk l hl he ↦ ?_,
    fun k hk l hl he ↦ ?_, fun k hk ↦ ?_⟩
  · -- what is written goes through the user's tables
    obtain ⟨n, hn⟩ := hsome k hk
    have hv : dest + k < 2 ^ 47 := by omega
    have hw : (n * 4096 ||| 7) &&& wBit = 2 := or_and_flag (Nat.dvd_mul_left _ _) (by decide)
    rw [Machine.translateWrite, if_neg (user_lt_kernBase hv), h.walk_same hv hn hm,
      Option.bind_some, hw, if_pos (by decide), frame_page (h.frame_lt h₀ hn), hn,
      Option.getD_some]
  · -- what is read is behind the kernel's window
    rw [Machine.translate, if_pos (by omega)]
    exact congrArg some (by omega)
  · obtain ⟨n, hn⟩ := hsome k hk
    -- two bytes in one frame belong to one page
    obtain ⟨m, hm⟩ := hsome l hl
    rw [hn, hm, Option.getD_some, Option.getD_some] at he
    have hmk := hmod (dest + k)
    have hml := hmod (dest + l)
    obtain rfl : n = m := by omega
    have hpage := h.inj _ _ n hn hm
    omega
  · obtain ⟨n, hn⟩ := hsome k hk
    rw [hn, Option.getD_some] at he
    refine ha.free l hl ?_
    rw [← he, frame_of_offset (hmod _)]
    exact mem_framesOf.mpr (h.owned _ n hn).1
  · obtain ⟨n, hn⟩ := hsome k hk
    rw [hn, Option.getD_some, frame_of_offset (hmod _)]
    exact (h.owned _ n hn).2.2

/-- Writes to the pages alone, which then hold the bytes of `img'`. -/
theorem Loaded.write {img' : Nat → Option UInt8}
    (h : Loaded w s₀ free₀ A img s free) (h₀ : Space w s₀ free₀)
    (ha : s'.alloc = s.alloc) (hc : s'.cr3 = s.cr3)
    (hout : ∀ y, (∀ x n, A x = some n → y / 4096 * 4096 ≠ n * 4096) → s'.mem y = s.mem y)
    (hin : ∀ x n, A x = some n → ∀ o < 4096,
      s'.mem (n * 4096 + o) = (img' (x * 4096 + o)).getD (s₀.mem (n * 4096 + o))) :
    Loaded w s₀ free₀ A img' s' free := by
  have hown : ∀ x n, A x = some n → n * 4096 ∉ windowFrames s₀.mem w := fun x n hx ↦
    h₀.ready.window.apart _ (mem_framesOf.mpr (h.owned x n hx).1)
  have hsw : SameOn (windowFrames s.mem w) s.mem s'.mem := fun y hy ↦
    hout y fun x n hx he ↦ hown x n hx (by rw [← h.frames, ← he]; exact hy)
  have hsu : SameOn (tableFrames userEntries s.mem s.cr3) s.mem s'.mem := fun y hy ↦
    hout y fun x n hx he ↦ (h.owned x n hx).2.2 (by rw [← he]; exact hy)
  obtain ⟨hspace, hframes, htab⟩ := h.space.congr ha hc hsw hsu
  refine ⟨hspace, hc.trans h.cr3, hframes.trans h.frames, h.suffix, ?_, fun v hv ↦ ?_,
    fun q hq ↦ ?_, fun x n hx ↦ ?_, h.inj, hin, fun n hn o ho ↦ ?_, fun y hyw hyf hyt ↦ ?_⟩
  · rw [hc, htab]
    exact h.tables
  · rw [hc, pageAt_congr h.space.user.dvd hsu]
    exact h.pages v hv
  · rw [hc, pageAt_congr h.space.user.dvd hsu]
    exact h.high q hq
  · rw [hc, htab]
    exact h.owned x n hx
  · rw [← h.untouched n hn o ho]
    refine hout _ fun x m hx he ↦ ?_
    rw [frame_of_offset ho] at he
    obtain rfl : n = m := by omega
    exact (h.owned x n hx).2.1 hn
  · rw [← h.rest y hyw hyf hyt]
    exact hout y fun x n hx he ↦ hyf (by rw [he]; exact mem_framesOf.mpr (h.owned x n hx).1)

/-- A copy from the kernel's image to pages of the user. -/
theorem Loaded.memcpy (h : Loaded w s₀ free₀ A img s free) (h₀ : Space w s₀ free₀)
    {dest src len : Nat} (hdest : dest + len ≤ 2 ^ 47) (hA : ∀ k < len, A ((dest + k) / 4096) ≠ none)
    (hsrc : kernBase ≤ src) (ha : Apart w s₀ free₀ (src - kernBase) len) :
    ∃ s', s.memcpy dest src len = some s' ∧
      Loaded w s₀ free₀ A (copyBytes dest len (fun k ↦ s₀.mem (src - kernBase + k)) img) s' free := by
  obtain ⟨mem, hcopy, hwritten, hkept⟩ := memcpy_spec (h.copyPlan h₀ hdest hA hsrc ha)
  have hmod : ∀ x : Nat, x % 4096 < 4096 := fun x ↦ Nat.mod_lt x (by decide)
  obtain ⟨s', hs', ha', hc', hm'⟩ : ∃ s' : Machine, { s with mem := mem } = s' ∧
      s'.alloc = s.alloc ∧ s'.cr3 = s.cr3 ∧ s'.mem = mem := ⟨_, rfl, rfl, rfl, rfl⟩
  rw [hs'] at hcopy
  rw [← hm'] at hwritten hkept
  refine ⟨s', hcopy, h.write h₀ ha' hc' (fun y hy ↦ hkept y fun k hk he ↦ ?_)
    fun x n hx o ho ↦ ?_⟩
  · obtain ⟨n, hn⟩ := Option.ne_none_iff_exists'.mp (hA k hk)
    rw [hn, Option.getD_some] at he
    exact hy _ n hn (by rw [he, frame_of_offset (hmod _)])
  · rw [copyBytes]
    -- a byte of the destination, or another one
    by_cases hin : dest ≤ x * 4096 + o ∧ x * 4096 + o < dest + len
    · have hk : x * 4096 + o - dest < len := by omega
      have hd : dest + (x * 4096 + o - dest) = x * 4096 + o := by omega
      have hw := hwritten _ hk
      rw [hd, show (x * 4096 + o) / 4096 = x by omega, hx, Option.getD_some,
        show (x * 4096 + o) % 4096 = o by omega] at hw
      rw [if_pos hin, Option.getD_some]
      exact hw.trans (h.apart ha hk)
    · rw [if_neg hin, ← h.bytes x n hx o ho]
      refine hkept _ fun k hk he ↦ hin ?_
      obtain ⟨m, hm⟩ := Option.ne_none_iff_exists'.mp (hA k hk)
      rw [hm, Option.getD_some] at he
      have hmk := hmod (dest + k)
      obtain rfl : n = m := by omega
      have hpage := h.inj _ _ n hx hm
      omega

/-- A write of the process to one of the pages. -/
theorem Loaded.writeByte (h : Loaded w s₀ free₀ A img s free) (h₀ : Space w s₀ free₀)
    (hv : v < 2 ^ 47) (hx : A (v / 4096) = some n) (b : UInt8) :
    ∃ s', s.writeByte v b = some s' ∧
      Loaded w s₀ free₀ A (Function.update img v (some b)) s' free := by
  have hw : (n * 4096 ||| 7) &&& wBit = 2 := or_and_flag (Nat.dvd_mul_left _ _) (by decide)
  have hwrite : s.writeByte v b =
      some { s with mem := Function.update s.mem (n * 4096 + v % 4096) b } := by
    rw [Machine.writeByte, Machine.translateWrite, if_neg (user_lt_kernBase hv),
      h.walk_page hv hx, Option.bind_some, hw,
      if_pos (by decide), frame_page (h.frame_lt h₀ hx), Option.map_some]
  obtain ⟨s', hs', ha', hc', hm'⟩ : ∃ s' : Machine,
      { s with mem := Function.update s.mem (n * 4096 + v % 4096) b } = s' ∧
      s'.alloc = s.alloc ∧ s'.cr3 = s.cr3 ∧
      s'.mem = Function.update s.mem (n * 4096 + v % 4096) b := ⟨_, rfl, rfl, rfl, rfl⟩
  rw [hs'] at hwrite
  refine ⟨s', hwrite, h.write h₀ ha' hc' (fun y hy ↦ ?_) fun x m hm o ho ↦ ?_⟩
  all_goals rw [hm']
  · refine Function.update_of_ne ?_ _ _
    rintro rfl
    exact hy _ n hx (frame_of_offset (Nat.mod_lt _ (by decide)))
  · by_cases he : x * 4096 + o = v
    · obtain rfl : x = v / 4096 := by omega
      obtain rfl : m = n := Option.some.inj (hm.symm.trans hx)
      rw [show o = v % 4096 by omega, Function.update_self,
        Nat.div_add_mod' v 4096, Function.update_self, Option.getD_some]
    · rw [Function.update_of_ne he, Function.update_of_ne]
      · exact h.bytes x m hm o ho
      · intro hne
        have ho' : v % 4096 < 4096 := Nat.mod_lt _ (by decide)
        obtain rfl : m = n := by omega
        have hpage := h.inj x _ m hm hx
        omega

end Sbunix
