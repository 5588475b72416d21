import Sbunix.Reasoning.CopyOnWrite
import Sbunix.Sys.CowFault
import Sbunix.Sys.FaultVmas
import Sbunix.Sys.ElfImage

/-!
# Processes that share pages

After a fork two processes map the same frames, all of them without the W bit.  A frame that may be
written in place belongs to one page of one process, and no frame of data holds a table, so a write
or a copy changes what one process sees at one page.
-/

namespace Sbunix

open Reasoning Kernel

variable {k k' : Kernel} {s s' : Machine} {mem mem' : Memory} {w n v e p r f fuel : Nat}
  {free free' ps : List Nat} {q : List (Fin 512)} {b : UInt8}

/-! ## The processes as users of frames -/

namespace Kernel

/-- The top-level table of process `p`. -/
def root (k : Kernel) (p : Nat) : Nat := (k.procs.pcbs p).cr3

/-- Process `p` runs, with its tables loaded. -/
def switch (k : Kernel) (p : Nat) : Kernel := k.onProcess p (k.loadCR3 (k.root p))

/-- The user tables of process `p`. -/
abbrev userTables (k : Kernel) (p : Nat) : Set Nat := tableFrames userEntries k.mem (k.root p)

/-- The entry that process `p` has for the page of a path. -/
abbrev userPage (k : Kernel) (p : Nat) (q : List (Fin 512)) : Option Nat :=
  pageAt userEntries k.mem (k.root p) q

/-- Which frames the processes `ps` use for their pages, which of them they may write, and what the
frames hold. -/
def sharing (k : Kernel) (ps : List Nat) :
    CowState Nat (List (Fin 512)) Nat (Fin 4096 → UInt8) where
  map p q := if p ∈ ps then (k.userPage p q).map fun e ↦ (frame e, decide (e &&& wBit ≠ 0)) else none
  data f o := k.mem (f + o)

end Kernel

/-- The address spaces of the processes `ps` are well formed and apart, but for frames of data. -/
structure Isolated (w : Nat) (k : Kernel) (ps free : List Nat) : Prop where
  space : ∀ p ∈ ps, Space w (k.loadCR3 (k.root p)) free
  pcb : ∀ p ∈ ps, p ∉ windowOf free
  tables : ∀ p ∈ ps, ∀ r ∈ ps, p ≠ r → Disjoint (k.userTables p) (k.userTables r)
  data : ∀ p ∈ ps, ∀ q e, k.userPage p q = some e →
    ∀ r ∈ ps, DataFrame w k.mem (k.root r) free (frame e)
  marked : ∀ p ∈ ps, ∀ q e, k.userPage p q = some e → e &&& wBit ≠ 0 ∨ e &&& cowBit ≠ 0
  exclusive : (k.sharing ps).Exclusive

theorem sharing_map (hp : p ∈ ps) : (k.sharing ps).map p q =
    (k.userPage p q).map fun e ↦ (frame e, decide (e &&& wBit ≠ 0)) := if_pos hp

theorem sharing_map_eq_some {m : Nat × Bool} (h : (k.sharing ps).map p q = some m) :
    p ∈ ps ∧ ∃ e, k.userPage p q = some e ∧ m = (frame e, decide (e &&& wBit ≠ 0)) := by
  unfold Kernel.sharing at h
  dsimp only at h
  split at h
  · obtain ⟨e, he, rfl⟩ := Option.map_eq_some_iff.mp h
    exact ⟨‹_›, e, he, rfl⟩
  · cases h

theorem readAs_user (hv : v < 2 ^ 47) :
    k.readAs p v = (k.userPage p (pagePath v)).map fun e ↦ k.mem (frame e + v % 4096) := by
  have hwalk : (k.loadCR3 (k.root p)).walk v = k.userPage p (pagePath v) :=
    (pageAt_restrict (user_index hv)).symm
  change (k.loadCR3 (k.root p)).readByte v = _
  rw [Machine.readByte, translate_user hv, hwalk, Option.map_map]
  rfl

/-- What a process reads at a mapped address is what it sees at the page. -/
theorem readAs_view (hp : p ∈ ps) (hv : v < 2 ^ 47) : k.readAs p v =
    ((k.sharing ps).view p (pagePath v)).map fun d ↦ d ⟨v % 4096, Nat.mod_lt v (by decide)⟩ := by
  rw [readAs_user hv, CowState.view, sharing_map hp]
  cases k.userPage p (pagePath v) <;> rfl

theorem Isolated.used (h : Isolated w k ps free) (hf : (k.sharing ps).Used f) (hr : r ∈ ps) :
    DataFrame w k.mem (k.root r) free f := by
  obtain ⟨p, q, b, hm⟩ := hf
  obtain ⟨hp, e, he, heq⟩ := sharing_map_eq_some hm
  obtain ⟨rfl, -⟩ := Prod.mk.inj heq
  exact h.data p hp q e he r hr

/-! ## What keeps a space -/

/-- Another process has changed frames of its own. -/
theorem Space.other (h : Space w (s.loadCR3 r) free) (hr : Ready w s' free') (hsub : free' ⊆ free)
    (hw : windowFrames s'.mem w = windowFrames s.mem w)
    (hs : SameOn (tableFrames userEntries s.mem r) s.mem s'.mem) :
    Space w (s'.loadCR3 r) free' := by
  have hroot := hs.entry (h.user.dvd _ self_mem_tables) self_mem_tables
  refine ⟨hr.loadCR3 h.ready.root ?_ (fun hf ↦ h.ready.root_apart.2 (framesOf_mono hsub hf)) ?_,
    h.user.congr hs hw hsub⟩
  · rw [hw]
    exact h.ready.root_apart.1
  · exact (congrFun (child_congr hroot 2) 511).trans h.ready.shared

theorem DataFrame.congr (h : DataFrame w mem r free f) (hsub : free' ⊆ free)
    (hw : windowFrames mem' w = windowFrames mem w)
    (ht : tableFrames userEntries mem' r = tableFrames userEntries mem r) :
    DataFrame w mem' r free' f := by
  refine ⟨h.dvd, ?_, fun hf ↦ h.free (framesOf_mono hsub hf), ?_⟩
  · rw [hw]
    exact h.window
  · rw [ht]
    exact h.user

theorem DataFrame.page (h : DataFrame w mem r free f) (o : Fin 4096) :
    (f + o) / 4096 * 4096 = f := by
  obtain ⟨m, rfl⟩ := h.dvd
  have := o.isLt
  omega

/-- Outside the tables of the window, the tables of `p` and the pages `T` nothing is written. -/
def WritesIn (w : Nat) (k : Kernel) (p : Nat) (T : Set Nat) (mem' : Memory) : Prop :=
  ∀ x, x / 4096 * 4096 ∉ windowFrames k.mem w → x / 4096 * 4096 ∉ k.userTables p →
    x / 4096 * 4096 ∉ T → mem' x = k.mem x

theorem WritesIn.tables {T : Set Nat} (hb : WritesIn w k p T mem') (h : Isolated w k ps free)
    (hT : T ⊆ framesOf free) (hp : p ∈ ps) (hr : r ∈ ps) (hrp : r ≠ p) :
    SameOn (k.userTables r) k.mem mem' := fun x hx ↦
  hb x ((h.space r hr).user.window _ hx) (Set.disjoint_left.mp (h.tables r hr p hp hrp) hx)
    fun hxt ↦ (h.space r hr).user.free _ hx (hT hxt)

theorem WritesIn.data {T : Set Nat} (hb : WritesIn w k p T mem') (h : Isolated w k ps free)
    (hT : T ⊆ framesOf free) (hp : p ∈ ps) (hf : (k.sharing ps).Used f) (o : Fin 4096) :
    mem' (f + o) = k.mem (f + o) := by
  have hd := h.used hf hp
  refine hb _ ?_ ?_ ?_
  all_goals rw [hd.page o]
  · exact hd.window
  · exact hd.user
  · exact fun ht ↦ hd.free (hT ht)

theorem sharing_map_congr (hpages : ∀ p ∈ ps, ∀ q, k'.userPage p q = k.userPage p q) (p : Nat)
    (q : List (Fin 512)) : (k'.sharing ps).map p q = (k.sharing ps).map p q := by
  by_cases hp : p ∈ ps
  · rw [sharing_map hp, sharing_map hp, hpages p hp]
  · exact (if_neg hp).trans (if_neg hp).symm

/-! ## Writing in place -/

theorem writeByte_inv (hv : v < 2 ^ 47) (h : s.writeByte v b = some s') :
    ∃ e, pageAt userEntries s.mem s.cr3 (pagePath v) = some e ∧ e &&& wBit ≠ 0 ∧
      s' = { s with mem := Function.update s.mem (frame e + v % 4096) b } := by
  rw [Machine.writeByte, Machine.translateWrite, if_neg (user_lt_kernBase hv),
    Option.map_eq_some_iff] at h
  obtain ⟨a, ha, rfl⟩ := h
  obtain ⟨e, he, ha⟩ := Option.bind_eq_some_iff.mp ha
  split at ha
  · obtain rfl := Option.some.inj ha
    exact ⟨e, (pageAt_restrict (user_index hv)).trans he, ‹_›, rfl⟩
  · cases ha

/-- A write that does not fault changes one byte of the writer's page. -/
theorem Isolated.write (h : Isolated w k ps free) (hp : p ∈ ps) (hv : v < 2 ^ 47)
    (hw : (k.switch p).writeByte v b = some s) :
    Isolated w ((k.switch p).onMachine s) ps free ∧
      ∃ f, CowState.Write p (pagePath v) f
        (Function.update ((k.sharing ps).data f) ⟨v % 4096, Nat.mod_lt v (by decide)⟩ b)
        (k.sharing ps) (((k.switch p).onMachine s).sharing ps) := by
  obtain ⟨e, he, hew, rfl⟩ := writeByte_inv hv hw
  have hdata := h.data p hp _ e he
  have hfd := (hdata p hp).dvd
  obtain ⟨k', hk', hroot, hprocs, halloc, hmem⟩ : ∃ k' : Kernel, (k.switch p).onMachine
      { (k.switch p).toMachine with
        mem := Function.update (k.switch p).mem (frame e + v % 4096) b } = k' ∧
      (∀ r, k'.root r = k.root r) ∧ (∀ r, k'.procs.pcbs r = k.procs.pcbs r) ∧
      k'.alloc = k.alloc ∧ k'.mem = Function.update k.mem (frame e + v % 4096) b :=
    ⟨_, rfl, fun _ ↦ rfl, fun _ ↦ rfl, rfl, rfl⟩
  rw [hk']
  -- the frame is data, and so no table of any process
  have hout : ∀ x, x / 4096 * 4096 ≠ frame e → k'.mem x = k.mem x := by
    intro x hx
    rw [hmem]
    refine Function.update_of_ne ?_ _ _
    rintro rfl
    omega
  have htab : ∀ r ∈ ps, SameOn (k.userTables r) k.mem k'.mem := fun r hr x hx ↦
    hout x fun hxe ↦ (hdata r hr).user (hxe ▸ hx)
  have hwin : SameOn (windowFrames k.mem w) k.mem k'.mem := fun x hx ↦
    hout x fun hxe ↦ (hdata p hp).window (hxe ▸ hx)
  have hspace : ∀ r ∈ ps, Space w (k'.loadCR3 (k.root r)) free ∧
      windowFrames k'.mem w = windowFrames k.mem w ∧
      tableFrames userEntries k'.mem (k.root r) = k.userTables r := fun r hr ↦
    (h.space r hr).congr halloc rfl hwin (htab r hr)
  have hpages : ∀ r ∈ ps, ∀ q, k'.userPage r q = k.userPage r q := fun r hr q ↦ by
    rw [Kernel.userPage, hroot]
    exact pageAt_congr (h.space r hr).user.dvd (htab r hr) q
  have hwrite : CowState.Write p (pagePath v) (frame e)
      (Function.update ((k.sharing ps).data (frame e)) ⟨v % 4096, Nat.mod_lt v (by decide)⟩ b)
      (k.sharing ps) (k'.sharing ps) := by
    refine ⟨?_, sharing_map_congr hpages, ?_, fun g hg hgu ↦ ?_⟩
    · rw [sharing_map hp]
      exact (congrArg _ he).trans (by rw [Option.map_some, decide_eq_true hew])
    · funext o
      change k'.mem (frame e + o) = _
      rw [hmem]
      by_cases ho : o = ⟨v % 4096, Nat.mod_lt v (by decide)⟩
      · rw [ho, Function.update_self, Function.update_self]
      · rw [Function.update_of_ne ho, Function.update_of_ne]
        · rfl
        · exact fun hoe ↦ ho (Fin.ext (Nat.add_left_cancel hoe))
    · have hgd := (h.used hgu hp).dvd
      funext o
      exact hout _ (by have := o.isLt; omega)
  refine ⟨⟨fun r hr ↦ ?_, h.pcb, fun r hr r' hr' hne ↦ ?_, fun r hr q e' he' r' hr' ↦ ?_,
    fun r hr q e' he' ↦ ?_, hwrite.exclusive h.exclusive⟩, frame e, hwrite⟩
  · rw [hroot]
    exact (hspace r hr).1
  · rw [Kernel.userTables, Kernel.userTables, hroot, hroot, (hspace r hr).2.2, (hspace r' hr').2.2]
    exact h.tables r hr r' hr' hne
  · rw [hpages r hr] at he'
    rw [hroot]
    exact (h.data r hr q e' he' r' hr').congr (List.Subset.refl free) (hspace r' hr').2.1
      (hspace r' hr').2.2
  · rw [hpages r hr] at he'
    exact h.marked r hr q e' he'

/-! ## A page of its own -/

/-- The memory after process `p` has got page `n` as a copy of the frame behind its entry `e` for
`v`. -/
structure CopyFrames (w : Nat) (k : Kernel) (ps : List Nat) (p n v e : Nat) (free : List Nat)
    (k' : Kernel) : Prop where
  root : ∀ r, k'.root r = k.root r
  frames : windowFrames k'.mem w = windowFrames k.mem w
  tables : ∀ r ∈ ps, tableFrames userEntries k'.mem (k.root r) = k.userTables r
  pages : ∀ r ∈ ps, ∀ q, k'.userPage r q =
    if r = p ∧ q = pagePath v then some (n * 4096 ||| 7) else k.userPage r q
  spaces : ∀ r ∈ ps, Space w (k'.loadCR3 (k.root r)) free
  data : ∀ f, (k.sharing ps).Used f → ∀ o : Fin 4096, k'.mem (f + o) = k.mem (f + o)
  copy : ∀ o < 4096, k'.mem (n * 4096 + o) = k.mem (frame e + o)

theorem Isolated.copyFrames (h : Isolated w k ps (n :: free)) (hp : p ∈ ps)
    (hc : PageCopied w (k.switch p).toMachine n v e free s) :
    CopyFrames w k ps p n v e free ((k.switch p).onMachine s) := by
  obtain ⟨hspace, hcr3, hframes, htables, hpages, hcopy, hbytes⟩ := hc
  change windowFrames s.mem w = windowFrames k.mem w at hframes
  have hwrites : WritesIn w k p {n * 4096} s.mem := hbytes
  have hT : {n * 4096} ⊆ framesOf (n :: free) :=
    Set.singleton_subset_iff.mpr ⟨n, List.mem_cons_self, rfl⟩
  -- the other processes' tables are as they were
  have hsame : ∀ r ∈ ps, r ≠ p → SameOn (k.userTables r) k.mem s.mem := fun r hr hrp ↦
    hwrites.tables h hT hp hr hrp
  refine ⟨fun _ ↦ rfl, hframes, fun r hr ↦ ?_, fun r hr q ↦ ?_, fun r hr ↦ ?_,
    fun f hf o ↦ hwrites.data h hT hp hf o, hcopy⟩
  · by_cases hrp : r = p
    · rw [hrp]
      exact htables
    · exact tableFrames_congr (h.space r hr).user.dvd (hsame r hr hrp)
  · by_cases hrp : r = p
    · subst hrp
      simp only [true_and]
      exact hpages q
    · rw [if_neg fun hc ↦ hrp hc.1]
      exact pageAt_congr (h.space r hr).user.dvd (hsame r hr hrp) q
  · by_cases hrp : r = p
    · have hroot : s.cr3 = k.root p := hcr3
      rw [hrp, ← hroot]
      exact hspace
    · exact (h.space r hr).other hspace.ready (List.subset_cons_self n free) hframes
        (hsame r hr hrp)

theorem CopyFrames.copied (hc : CopyFrames w k ps p n v e free k')
    (h : Isolated w k ps (n :: free)) (hp : p ∈ ps) (he : k.userPage p (pagePath v) = some e) :
    CowState.Copy p (pagePath v) (frame e) (n * 4096) (k.sharing ps) (k'.sharing ps) := by
  have hn := (h.space p hp).ready.free_lt n List.mem_cons_self
  have hnf : n * 4096 ∈ framesOf (n :: free) := ⟨n, List.mem_cons_self, rfl⟩
  refine ⟨⟨decide (e &&& wBit ≠ 0), ?_⟩, fun hu ↦ (h.used hu hp).free hnf, ?_,
    fun r q hrq ↦ ?_, ?_, fun g hg ↦ ?_⟩
  · rw [sharing_map hp, he, Option.map_some]
  · have hw : (n * 4096 ||| 7) &&& wBit = 2 := or_and_flag (Nat.dvd_mul_left _ _) (by decide)
    rw [sharing_map hp, hc.pages p hp, if_pos ⟨rfl, rfl⟩, Option.map_some, frame_page hn, hw]
    rfl
  · by_cases hr : r ∈ ps
    · rw [sharing_map hr, sharing_map hr, hc.pages r hr, if_neg hrq]
    · exact (if_neg hr).trans (if_neg hr).symm
  · funext o
    exact hc.copy o o.isLt
  · funext o
    exact hc.data g hg o

/-- The new page is one of data for every process. -/
theorem CopyFrames.dataFrame (hc : CopyFrames w k ps p n v e free k')
    (h : Isolated w k ps (n :: free)) (hr : r ∈ ps) :
    DataFrame w k'.mem (k.root r) free (n * 4096) := by
  have hnf : n * 4096 ∈ framesOf (n :: free) := ⟨n, List.mem_cons_self, rfl⟩
  have hready := (h.space r hr).ready
  refine ⟨Nat.dvd_mul_left _ _, ?_, ?_, ?_⟩
  · rw [hc.frames]
    exact hready.window.apart _ hnf
  · exact fun hf ↦ hready.freeList.nodup_cons (mem_framesOf.mp hf)
  · rw [hc.tables r hr]
    exact fun ht ↦ (h.space r hr).user.free _ ht hnf

/-- The copy of a page changes the tables of its process only, and no process sees it. -/
theorem Isolated.copy (h : Isolated w k ps (n :: free)) (hp : p ∈ ps)
    (he : k.userPage p (pagePath v) = some e)
    (hc : PageCopied w (k.switch p).toMachine n v e free s) :
    Isolated w ((k.switch p).onMachine s) ps free ∧
      CowState.Copy p (pagePath v) (frame e) (n * 4096) (k.sharing ps)
        (((k.switch p).onMachine s).sharing ps) := by
  have hcf := h.copyFrames hp hc
  have hcopied := hcf.copied h hp he
  generalize (k.switch p).onMachine s = k' at hcf hcopied ⊢
  have hn := (h.space p hp).ready.free_lt n List.mem_cons_self
  have hsub : free ⊆ n :: free := List.subset_cons_self n free
  refine ⟨⟨fun r hr ↦ ?_, fun r hr hw ↦ h.pcb r hr (windowOf_mono hsub hw),
    fun r hr r' hr' hne ↦ ?_, fun r hr q e' he' r' hr' ↦ ?_, fun r hr q e' he' ↦ ?_,
    hcopied.exclusive h.exclusive⟩, hcopied⟩
  · rw [hcf.root]
    exact hcf.spaces r hr
  · rw [Kernel.userTables, Kernel.userTables, hcf.root, hcf.root, hcf.tables r hr,
      hcf.tables r' hr']
    exact h.tables r hr r' hr' hne
  · rw [hcf.pages r hr] at he'
    rw [hcf.root]
    split at he'
    · obtain rfl := Option.some.inj he'
      rw [frame_page hn]
      exact hcf.dataFrame h hr'
    · exact (h.data r hr q e' he' r' hr').congr hsub hcf.frames (hcf.tables r' hr')
  · rw [hcf.pages r hr] at he'
    split at he'
    · obtain rfl := Option.some.inj he'
      left
      rw [or_and_flag (Nat.dvd_mul_left _ _) (by decide)]
      decide
    · exact h.marked r hr q e' he'

/-! ## Fork -/

theorem cow_flags (he : e < 2 ^ 64) : cow e &&& wBit = 0 ∧ cow e &&& cowBit ≠ 0 := by
  rw [cow, or_and_flag (frame_dvd he) (by decide), or_and_flag (frame_dvd he) (by decide)]
  decide

/-- The frame that `forkSyscall` takes for the child's top-level table has no present entry below
510 where the table of `p` has none. -/
def ClearRoot (k : Kernel) (p : Nat) : Prop :=
  NoStale k.mem (k.root p) k.alloc.allocatePage.2.allocatePage.1

theorem allocatePage_second {a : PageAlloc} {m : Nat} (h : FreeList a (m :: n :: free)) :
    a.allocatePage.2.allocatePage.1 = n * 4096 := by
  rw [(allocatePage_cons h).2]
  exact (allocatePage_cons h.unsetPage).1

/-- The memory after a fork of `p`, whose child has its top-level table at `c`. -/
structure ForkFrames (w : Nat) (k : Kernel) (ps free : List Nat) (p c : Nat) (k' : Kernel)
    (free' : List Nat) : Prop where
  fresh : c ∈ framesOf free ∧ c ∉ framesOf free'
  sub : free' ⊆ free
  frames : windowFrames k'.mem w = windowFrames k.mem w
  tables : ∀ r ∈ ps, tableFrames userEntries k'.mem (k.root r) = k.userTables r
  pages : ∀ r ∈ ps, ∀ q, pageAt userEntries k'.mem (k.root r) q =
    if r = p then (k.userPage r q).map cow else k.userPage r q
  spaces : ∀ r ∈ ps, Space w (k'.loadCR3 (k.root r)) free'
  data : ∀ f, (k.sharing ps).Used f → ∀ o : Fin 4096, k'.mem (f + o) = k.mem (f + o)
  childSpace : Space w (k'.loadCR3 c) free'
  childTables : tableFrames userEntries k'.mem c ⊆ framesOf free
  childPages : ∀ q, pageAt userEntries k'.mem c q = (k.userPage p q).map cow

theorem Isolated.forkFrames {m : Nat} {l taken : List Nat} (h : Isolated w k ps free) (hp : p ∈ ps)
    (hf : ForkedMachine w (k.switch p).toMachine m n l taken k'.toMachine free')
    (hsplit : free = taken ++ free') (hclear : NoStale k.mem (k.root p) (n * 4096)) :
    ForkFrames w k ps free p (n * 4096) k' free' := by
  obtain ⟨hl, ⟨hn, -⟩, hready, hcr3, hspace⟩ := hf
  change k'.cr3 = k.root p at hcr3
  change ForkedSpace w (k.root p) (n * 4096) l taken k.mem k'.mem at hspace
  have htf : framesOf taken ⊆ framesOf free := by
    rw [hsplit]
    exact framesOf_mono (List.subset_append_left taken free')
  have hsub : free' ⊆ free := by
    rw [hsplit]
    exact List.subset_append_right taken free'
  have hnd := (h.space p hp).ready.freeList.nodup
  rw [hsplit] at hnd
  have hcopied := hspace.copied hclear
  have hwrites : WritesIn w k p (framesOf taken) k'.mem := hspace.bytes
  have hsame : ∀ r ∈ ps, r ≠ p → SameOn (k.userTables r) k.mem k'.mem := fun r hr hrp ↦
    hwrites.tables h htf hp hr hrp
  -- the parent's entries have changed, but not which tables they lead to
  have htab : ∀ r ∈ ps, tableFrames userEntries k'.mem (k.root r) = k.userTables r := by
    intro r hr
    by_cases hrp : r = p
    · rw [hrp]
      exact tables_congr fun m t ht ↦ hspace.kept t ht m
    · exact tableFrames_congr (h.space r hr).user.dvd (hsame r hr hrp)
  have hchild : tableFrames userEntries k'.mem (n * 4096) ⊆ framesOf taken := by
    intro t ht
    rcases hcopied.frames ht with rfl | ht
    · exact ⟨n, hn, rfl⟩
    · exact framesOf_mono hl ht
  have hfresh : n * 4096 ∉ framesOf free' := framesOf_disjoint hnd ⟨n, hn, rfl⟩
  refine ⟨⟨htf ⟨n, hn, rfl⟩, hfresh⟩, hsub, hspace.frames, htab, fun r hr q ↦ ?_, fun r hr ↦ ?_,
    fun f hu o ↦ hwrites.data h htf hp hu o, ?_, fun t ht ↦ htf (hchild ht), hcopied.copy⟩
  · by_cases hrp : r = p
    · rw [if_pos hrp, hrp]
      exact hspace.pages q
    · rw [if_neg hrp]
      exact pageAt_congr (h.space r hr).user.dvd (hsame r hr hrp) q
  · by_cases hrp : r = p
    · -- the parent's own tables were written, which `ForkedSpace` accounts for
      subst hrp
      have hu := (h.space r hr).user
      refine ⟨by rw [← hcr3]; exact hready, hu.tree.congr fun m t ht ↦ hspace.kept t ht m, ?_, ?_, ?_⟩
      all_goals
        change ∀ t ∈ tableFrames userEntries k'.mem (k.root r), _
        rw [htab r hr]
      · exact hu.aligned
      · change ∀ t ∈ k.userTables r, t ∉ windowFrames k'.mem w
        rw [hspace.frames]
        exact hu.window
      · exact fun t ht hf ↦ hu.free t ht (framesOf_mono hsub hf)
    · exact (h.space r hr).other hready hsub hspace.frames (hsame r hr hrp)
  · have hr := (h.space p hp).ready
    have hlt : ∀ m ∈ taken, m < 2 ^ 19 := fun m hm ↦
      hr.free_lt m (by rw [hsplit]; exact List.mem_append_left free' hm)
    have hnlt := hlt n hn
    refine ⟨hready.loadCR3 ⟨Nat.dvd_mul_left _ _, by omega⟩ ?_ hfresh ?_, hcopied.tree,
      fun t ht ↦ ?_, fun t ht ↦ ?_, fun t ht hf ↦ framesOf_disjoint hnd (hchild ht) hf⟩
    · rw [hspace.frames]
      exact hr.window.apart _ (htf ⟨n, hn, rfl⟩)
    · rw [child, hspace.kernel]
      exact hr.shared
    · obtain ⟨m, hm, rfl⟩ := hchild ht
      have := hlt m hm
      exact ⟨Nat.dvd_mul_left _ _, by omega⟩
    · change t ∉ windowFrames k'.mem w
      rw [hspace.frames]
      exact hr.window.apart t (htf (hchild ht))

section ForkFrames

variable {c t : Nat}

theorem ForkFrames.userPage_old (hf : ForkFrames w k ps free p t k' free')
    (hroot : ∀ r ∈ ps, k'.root r = k.root r) (hr : r ∈ ps) (q : List (Fin 512)) :
    k'.userPage r q = if r = p then (k.userPage r q).map cow else k.userPage r q := by
  rw [Kernel.userPage, hroot r hr]
  exact hf.pages r hr q

theorem ForkFrames.userPage_child (hf : ForkFrames w k ps free p t k' free') (hct : k'.root c = t)
    (q : List (Fin 512)) : k'.userPage c q = (k.userPage p q).map cow := by
  rw [Kernel.userPage, hct]
  exact hf.childPages q

/-- Every page after the fork is a page from before, with the same frame. -/
theorem ForkFrames.origin (hf : ForkFrames w k ps free p t k' free') (hp : p ∈ ps)
    (hct : k'.root c = t) (hroot : ∀ r ∈ ps, k'.root r = k.root r) (hr : r ∈ c :: ps)
    (he : k'.userPage r q = some e) :
    ∃ r' ∈ ps, ∃ e', k.userPage r' q = some e' ∧ frame e = frame e' ∧
      (e = e' ∨ e &&& cowBit ≠ 0) := by
  have hcow : (k.userPage p q).map cow = some e → ∃ e', k.userPage p q = some e' ∧
      frame e = frame e' ∧ (e = e' ∨ e &&& cowBit ≠ 0) := by
    intro he
    obtain ⟨e', he', rfl⟩ := Option.map_eq_some_iff.mp he
    have hlt := pageAt_lt he'
    exact ⟨e', he', frame_cow hlt, .inr (cow_flags hlt).2⟩
  rcases List.mem_cons.mp hr with rfl | hr
  · rw [hf.userPage_child hct] at he
    exact ⟨p, hp, hcow he⟩
  · rw [hf.userPage_old hroot hr] at he
    split at he
    · rename_i hrp
      subst hrp
      exact ⟨r, hr, hcow he⟩
    · exact ⟨r, hr, e, he, rfl, .inl rfl⟩

/-- What parent and child map after the fork. -/
theorem sharing_map_cow (hp : p ∈ ps) :
    ((k.userPage p q).map cow).map (fun e ↦ (frame e, decide (e &&& wBit ≠ 0))) =
      ((k.sharing ps).map p q).map fun m ↦ (m.1, false) := by
  rw [sharing_map hp]
  cases he : k.userPage p q with
  | none => rfl
  | some e =>
      have hlt := pageAt_lt he
      simp [frame_cow hlt, (cow_flags hlt).1]

theorem ForkFrames.fork (hf : ForkFrames w k ps free p t k' free') (hp : p ∈ ps) (hc : c ∉ ps)
    (hct : k'.root c = t) (hroot : ∀ r ∈ ps, k'.root r = k.root r) :
    CowState.Fork p c (k.sharing ps) (k'.sharing (c :: ps)) := by
  refine ⟨fun hcp ↦ hc (hcp ▸ hp), fun q ↦ ?_, fun q ↦ ?_, fun r hrp hrc q ↦ ?_, fun f hu ↦ ?_⟩
  · rw [sharing_map List.mem_cons_self, hf.userPage_child hct, sharing_map_cow hp]
  · rw [sharing_map (List.mem_cons_of_mem c hp), hf.userPage_old hroot hp, if_pos rfl,
      sharing_map_cow hp]
  · by_cases hr : r ∈ ps
    · rw [sharing_map hr, sharing_map (List.mem_cons_of_mem c hr), hf.userPage_old hroot hr,
        if_neg hrp]
    · refine (if_neg fun hm ↦ ?_).trans (if_neg hr).symm
      exact hr ((List.mem_cons.mp hm).resolve_left hrc)
  · funext o
    exact hf.data f hu o

/-- A frame of data stays one, for the child too. -/
theorem ForkFrames.dataFrame (hf : ForkFrames w k ps free p t k' free') (hp : p ∈ ps)
    (hct : k'.root c = t) (hroot : ∀ r ∈ ps, k'.root r = k.root r) (hr : r ∈ c :: ps)
    (hd : ∀ r ∈ ps, DataFrame w k.mem (k.root r) free f) :
    DataFrame w k'.mem (k'.root r) free' f := by
  rcases List.mem_cons.mp hr with rfl | hr
  · have hdp := hd p hp
    rw [hct]
    refine ⟨hdp.dvd, ?_, fun hfr ↦ hdp.free (framesOf_mono hf.sub hfr), fun ht ↦
      hdp.free (hf.childTables ht)⟩
    rw [hf.frames]
    exact hdp.window
  · rw [hroot r hr]
    exact (hd r hr).congr hf.sub hf.frames (hf.tables r hr)

theorem ForkFrames.tables_child (hf : ForkFrames w k ps free p t k' free')
    (h : Isolated w k ps free) (hct : k'.root c = t) (hroot : ∀ r ∈ ps, k'.root r = k.root r)
    (hr : r ∈ ps) : Disjoint (k'.userTables c) (k'.userTables r) := by
  rw [Kernel.userTables, Kernel.userTables, hct, hroot r hr, hf.tables r hr]
  exact Set.disjoint_left.mpr fun x hx hx' ↦ (h.space r hr).user.free x hx' (hf.childTables hx)

/-- The processes after a fork, with a child `c` whose top-level table is at `t`. -/
theorem ForkFrames.isolated (h : Isolated w k ps free) (hp : p ∈ ps)
    (hf : ForkFrames w k ps free p t k' free') (hc : c ∈ windowOf free)
    (hc' : c ∉ windowOf free') (hct : k'.root c = t) (hroot : ∀ r ∈ ps, k'.root r = k.root r) :
    Isolated w k' (c :: ps) free' ∧ CowState.Fork p c (k.sharing ps) (k'.sharing (c :: ps)) := by
  have hfork := hf.fork hp (fun hm ↦ h.pcb c hm hc) hct hroot
  refine ⟨⟨fun r hr ↦ ?_, fun r hr hw ↦ ?_, fun r hr r' hr' hne ↦ ?_, fun r hr q e he r' hr' ↦ ?_,
    fun r hr q e he ↦ ?_, hfork.exclusive h.exclusive⟩, hfork⟩
  · rcases List.mem_cons.mp hr with rfl | hr
    · rw [hct]
      exact hf.childSpace
    · rw [hroot r hr]
      exact hf.spaces r hr
  · rcases List.mem_cons.mp hr with rfl | hr
    · exact hc' hw
    · exact h.pcb r hr (windowOf_mono hf.sub hw)
  · rcases List.mem_cons.mp hr with rfl | hr₁
    · exact hf.tables_child h hct hroot ((List.mem_cons.mp hr').resolve_left hne.symm)
    · rcases List.mem_cons.mp hr' with rfl | hr₂
      · exact (hf.tables_child h hct hroot hr₁).symm
      · rw [Kernel.userTables, Kernel.userTables, hroot r hr₁, hroot r' hr₂, hf.tables r hr₁,
          hf.tables r' hr₂]
        exact h.tables r hr₁ r' hr₂ hne
  · obtain ⟨r₀, hr₀, e₀, he₀, hfe, -⟩ := hf.origin hp hct hroot hr he
    rw [hfe]
    exact hf.dataFrame hp hct hroot hr' (h.data r₀ hr₀ q e₀ he₀)
  · obtain ⟨r₀, hr₀, e₀, he₀, -, heq | hcow⟩ := hf.origin hp hct hroot hr he
    · rw [heq]
      exact h.marked r₀ hr₀ q e₀ he₀
    · exact .inr hcow

end ForkFrames

/-- The child of `p` is next to it, with its PCB in the first free page and its top-level table in
the second. -/
theorem Isolated.forked {regs : ForkRegs} (h : Isolated w k ps free) (hp : p ∈ ps)
    (hrun : (k.switch p).forkSyscall fuel regs = some k') (hfree : k'.alloc.HasFree) :
    ∃ m n free₁ l taken free', free = m :: n :: free₁ ∧ free = taken ++ free' ∧
      ForkedMachine w (k.switch p).toMachine m n l taken k'.toMachine free' ∧
      k'.procs.nextOf p ∈ windowOf free ∧ k'.procs.nextOf p ∉ windowOf free' ∧
      k'.root (k'.procs.nextOf p) = n * 4096 ∧ ∀ r ∈ ps, k'.root r = k.root r := by
  have hspace := h.space p hp
  obtain ⟨m, n, free₁, l, taken, free', hf, hsplit, hm, a, ha, hcr3, hprocs⟩ :=
    forkSyscall_space (k := k.switch p) hspace.ready hspace.user rfl (h.pcb p hp) hrun hfree
  -- the new PCB is in the window of a free page, so it is nobody's
  have hpm : kptr (m * 4096) ∈ windowOf free := ⟨m, by rw [hf]; exact List.mem_cons_self, rfl⟩
  have hcp : a.child ≠ (k.switch p).procs.current := fun he ↦ h.pcb p hp (by
    rw [ha] at he
    change kptr (m * 4096) = p at he
    rw [← he]
    exact hpm)
  have hnext : k'.procs.nextOf p = a.child := by
    rw [hprocs, Procs.forkSyscall_nextOf hcp]
    exact insertAfter_cur hcp.symm
  have hcps : a.child ∉ ps := fun hmem ↦ h.pcb _ hmem (ha ▸ hpm)
  -- its page has been taken
  have hc' : a.child ∉ windowOf free' := by
    obtain ⟨x, rest, rfl⟩ := List.exists_cons_of_ne_nil (List.ne_nil_of_mem hm.root.1)
    obtain ⟨rfl, -⟩ := List.cons.inj (hf.symm.trans hsplit)
    have hnd := hspace.ready.freeList.nodup
    have hlt := hspace.ready.free_lt
    rw [hsplit, List.cons_append] at hnd hlt
    have hsub : m :: free' ⊆ m :: (rest ++ free') :=
      List.cons_subset_cons m (List.subset_append_right rest free')
    rw [ha]
    exact not_mem_windowOf (fun y hy ↦ hlt y (hsub hy)) fun hmem ↦
      (List.nodup_cons.mp hnd).1 (List.mem_append_right rest hmem)
  rw [hnext]
  refine ⟨m, n, free₁, l, taken, free', hf, hsplit, hm, ha ▸ hpm, hc', ?_, fun r hr ↦ ?_⟩
  · rw [Kernel.root, hprocs, (Procs.forkSyscall_spaces hcp).2.2.2, hcr3]
  · rw [Kernel.root, hprocs]
    by_cases hrp : r = p
    · subst hrp
      exact (Procs.forkSyscall_spaces hcp).2.1
    · rw [Procs.forkSyscall_pcbs_other (fun hrc ↦ hcps (hrc ▸ hr)) hrp]
      rfl

/-- A fork of `p`: parent and child share all pages, and nobody sees it. -/
theorem Isolated.fork {regs : ForkRegs} (h : Isolated w k ps free) (hp : p ∈ ps)
    (hclear : ClearRoot k p) (hrun : (k.switch p).forkSyscall fuel regs = some k')
    (hfree : k'.alloc.HasFree) :
    ∃ free', Isolated w k' (k'.procs.nextOf p :: ps) free' ∧
      CowState.Fork p (k'.procs.nextOf p) (k.sharing ps) (k'.sharing (k'.procs.nextOf p :: ps)) := by
  obtain ⟨m, n, free₁, l, taken, free', hf, hsplit, hm, hc, hc', hct, hroot⟩ :=
    h.forked hp hrun hfree
  have hns : NoStale k.mem (k.root p) (n * 4096) := by
    have hlist := (h.space p hp).ready.freeList
    rw [hf] at hlist
    rw [← allocatePage_second hlist]
    exact hclear
  exact ⟨free', (h.forkFrames hp hm hsplit hns).isolated h hp hc hc' hct hroot⟩

end Sbunix
