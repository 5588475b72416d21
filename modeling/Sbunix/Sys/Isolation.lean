import Sbunix.Sys.ExecPassing
import Sbunix.Sys.FrameRun
import Sbunix.Sys.StackVmas

/-!
# Processes that fork, fault, store and load programs

Address spaces stay apart whatever the processes do: a fork shares frames that no one writes in place,
a fault and a new program take frames that were free, and what one process stores no other reads.
-/

namespace Sbunix

open Reasoning Kernel

variable {k k' k₀ : Kernel} {s s' s₀ : Machine} {w n p r u v v' x e a fuel errCode f : Nat}
  {free free' rest l ps ps' ps₀ : List Nat} {q : List (Fin 512)} {b : UInt8} {A : Nat → Option Nat}
  {img : Nat → Option UInt8} {E : Nat → Nat → Option UInt8}

/-! ## Fewer processes -/

theorem Isolated.mono (h : Isolated w k ps free) (hsub : ps' ⊆ ps) : Isolated w k ps' free where
  space p hp := h.space p (hsub hp)
  pcb p hp := h.pcb p (hsub hp)
  tables p hp r hr := h.tables p (hsub hp) r (hsub hr)
  data p hp q e he r hr := h.data p (hsub hp) q e he r (hsub hr)
  marked p hp := h.marked p (hsub hp)
  exclusive p q p' q' f b hm hm' := by
    obtain ⟨hp, e, he, heq⟩ := sharing_map_eq_some hm
    obtain ⟨hp', e', he', heq'⟩ := sharing_map_eq_some hm'
    refine h.exclusive p q p' q' f b ?_ ?_
    · rw [sharing_map (hsub hp), he, heq, Option.map_some]
    · rw [sharing_map (hsub hp'), he', heq', Option.map_some]

/-! ## Processes that look on -/

/-- Nothing is written but to the tables of the window and to frames that are no tables of the
processes. -/
structure LookOn (w : Nat) (k : Kernel) (ps free : List Nat) (k' : Kernel) (free' : List Nat) :
    Prop where
  ready : Ready w k'.toMachine free'
  frames : windowFrames k'.mem w = windowFrames k.mem w
  subset : free' ⊆ free
  root : ∀ p ∈ ps, k'.root p = k.root p
  tables : ∀ p ∈ ps, SameOn (k.userTables p) k.mem k'.mem

theorem Isolated.settled (h : Isolated w k ps free) (hp : p ∈ ps)
    (hx : x / 4096 * 4096 ∈ k.userTables p ∨
      ∃ q e, k.userPage p q = some e ∧ x / 4096 * 4096 = frame e) :
    Settled w k.toMachine free x := by
  rcases hx with hx | ⟨q, e, he, hx⟩
  · exact ⟨(h.space p hp).user.window _ hx, (h.space p hp).user.free _ hx⟩
  · have hd := h.data p hp q e he p hp
    exact ⟨hx ▸ hd.window, hx ▸ hd.free⟩

theorem DataFrame.offset {o : Nat} {mem : Memory} (h : DataFrame w mem r free f) (ho : o < 4096) :
    (f + o) / 4096 * 4096 = f := h.page ⟨o, ho⟩

/-- What is in use stays as it is. -/
theorem Isolated.lookOn (h : Isolated w k ps free) (hs : SameInUse w k.toMachine free k'.toMachine)
    (hr : Ready w k'.toMachine free') (hw : windowFrames k'.mem w = windowFrames k.mem w)
    (hsub : free' ⊆ free) (hroot : ∀ p ∈ ps, k'.root p = k.root p) :
    LookOn w k ps free k' free' where
  ready := hr
  frames := hw
  subset := hsub
  root := hroot
  tables _ hp _ hx := hs _ (h.settled hp (.inl hx))

theorem LookOn.userTables (hl : LookOn w k ps free k' free') (h : Isolated w k ps free)
    (hp : p ∈ ps) : k'.userTables p = k.userTables p := by
  rw [Kernel.userTables, hl.root p hp]
  exact tableFrames_congr (h.space p hp).user.dvd (hl.tables p hp)

theorem LookOn.userPage (hl : LookOn w k ps free k' free') (h : Isolated w k ps free)
    (hp : p ∈ ps) (q : List (Fin 512)) : k'.userPage p q = k.userPage p q := by
  rw [Kernel.userPage, hl.root p hp]
  exact pageAt_congr (h.space p hp).user.dvd (hl.tables p hp) q

theorem LookOn.isolated (hl : LookOn w k ps free k' free') (h : Isolated w k ps free) :
    Isolated w k' ps free' where
  space p hp := by
    rw [hl.root p hp]
    exact (h.space p hp).other hl.ready hl.subset hl.frames (hl.tables p hp)
  pcb p hp hw := h.pcb p hp (windowOf_mono hl.subset hw)
  tables p hp r hr hne := by
    rw [hl.userTables h hp, hl.userTables h hr]
    exact h.tables p hp r hr hne
  data p hp q e he r hr := by
    rw [hl.userPage h hp] at he
    rw [hl.root r hr]
    exact (h.data p hp q e he r hr).congr hl.subset hl.frames
      (tableFrames_congr (h.space r hr).user.dvd (hl.tables r hr))
  marked p hp q e he := by
    rw [hl.userPage h hp] at he
    exact h.marked p hp q e he
  exclusive p q p' q' f b hm hm' := by
    rw [sharing_map_congr fun p hp q ↦ hl.userPage h hp q] at hm hm'
    exact h.exclusive p q p' q' f b hm hm'

theorem LookOn.readAs (hl : LookOn w k ps free k' free') (h : Isolated w k ps free)
    (hs : SameInUse w k.toMachine free k'.toMachine) (hp : p ∈ ps) (hv : v < 2 ^ 47) :
    k'.readAs p v = k.readAs p v := by
  rw [readAs_user hv, readAs_user hv, hl.userPage h hp]
  cases he : k.userPage p (pagePath v) with
  | none => rfl
  | some e =>
      have hoff := (h.data p hp _ e he p hp).offset (Nat.mod_lt v (by decide))
      exact congrArg some (hs _ (h.settled hp (.inr ⟨_, e, he, hoff⟩)))

/-! ## One more process -/

/-- A process joins with tables and pages in frames that are none of the others'. -/
theorem Isolated.cons {S : Set Nat} (h : Isolated w k ps free) (hp : Isolated w k [p] free)
    (htab : k.userTables p ⊆ S) (hdata : ∀ q e, k.userPage p q = some e → frame e ∈ S)
    (hout : ∀ r ∈ ps, Disjoint (k.userTables r) S)
    (hout' : ∀ r ∈ ps, ∀ q e, k.userPage r q = some e → frame e ∉ S) :
    Isolated w k (p :: ps) free := by
  have hself : ∀ r, k.root r ∈ k.userTables r := fun _ ↦ self_mem_tables
  have hnot : p ∉ ps := fun hmem ↦
    Set.disjoint_left.mp (hout p hmem) (hself p) (htab (hself p))
  have hone : p ∈ [p] := List.mem_singleton_self p
  have hjoin : CowState.Join p (k.sharing ps) (k.sharing (p :: ps)) := by
    refine ⟨fun q f b hm hu ↦ ?_, fun q q' f b hm hm' ↦ ?_, fun r hr q ↦ ?_⟩
    · obtain ⟨-, e, he, heq⟩ := sharing_map_eq_some hm
      obtain ⟨r, q', b', hm'⟩ := hu
      obtain ⟨hr, e', he', heq'⟩ := sharing_map_eq_some hm'
      obtain ⟨rfl, -⟩ := Prod.mk.inj heq
      obtain ⟨hfr, -⟩ := Prod.mk.inj heq'
      exact hout' r hr q' e' he' (hfr ▸ hdata q e he)
    · rw [sharing_map List.mem_cons_self, ← sharing_map hone] at hm hm'
      exact (hp.exclusive p q p q' f b hm hm').2
    · by_cases hmem : r ∈ ps
      · rw [sharing_map hmem, sharing_map (List.mem_cons_of_mem p hmem)]
      · exact (if_neg fun hc ↦ hmem ((List.mem_cons.mp hc).resolve_left hr)).trans (if_neg hmem).symm
  refine ⟨List.forall_mem_cons.mpr ⟨hp.space p hone, h.space⟩,
    List.forall_mem_cons.mpr ⟨hp.pcb p hone, h.pcb⟩, fun r hr r' hr' hne ↦ ?_,
    fun r hr q e he r' hr' ↦ ?_, List.forall_mem_cons.mpr ⟨hp.marked p hone, h.marked⟩,
    hjoin.exclusive h.exclusive⟩
  · rw [List.mem_cons] at hr hr'
    rcases hr with rfl | hr
    · rcases hr' with rfl | hr'
      · exact absurd rfl hne
      · exact ((hout r' hr').mono_right htab).symm
    · rcases hr' with rfl | hr'
      · exact (hout r hr).mono_right htab
      · exact h.tables r hr r' hr' hne
  · rw [List.mem_cons] at hr hr'
    rcases hr with rfl | hr
    · have hd := hp.data r hone q e he r hone
      rcases hr' with rfl | hr'
      · exact hd
      · exact ⟨hd.dvd, hd.window, hd.free, fun ht ↦
          Set.disjoint_left.mp (hout r' hr') ht (hdata q e he)⟩
    · rcases hr' with rfl | hr'
      · have hd := h.data r hr q e he r hr
        exact ⟨hd.dvd, hd.window, hd.free, fun ht ↦ hout' r hr q e he (htab ht)⟩
      · exact h.data r hr q e he r' hr'

/-! ## A process with a program -/

/-- The entries of a space that was empty are those of the pages that have been loaded. -/
theorem Loaded.page_owned (hl : Loaded w s₀ rest A img s free)
    (hempty : ∀ q, pageAt userEntries s₀.mem s₀.cr3 q = none)
    (he : pageAt userEntries s.mem s.cr3 q = some e) :
    ∃ v n, q = pagePath v ∧ A (v / 4096) = some n ∧ e = n * 4096 ||| 7 := by
  by_cases hq : ∀ v < 2 ^ 47, q ≠ pagePath v
  · rw [hl.high q hq, hempty] at he
    cases he
  · push Not at hq
    obtain ⟨v, hv, rfl⟩ := hq
    rw [hl.pages v hv, hempty, Option.or_none, Option.map_eq_some_iff] at he
    obtain ⟨n, hn, rfl⟩ := he
    exact ⟨v, n, rfl, hn, rfl⟩

/-- A process with a program in an address space of its own. -/
theorem Loaded.isolated (hl : Loaded w s₀ rest A img k.toMachine free) (h₀ : Space w s₀ rest)
    (hempty : ∀ q, pageAt userEntries s₀.mem s₀.cr3 q = none) (hroot : k.root p = k.cr3)
    (hp : p ∉ windowOf free) :
    Isolated w k [p] free ∧ ∀ q e, k.userPage p q = some e → frame e ∈ framesOf rest := by
  have hown : ∀ q e, k.userPage p q = some e →
      ∃ v n, q = pagePath v ∧ A (v / 4096) = some n ∧ e = n * 4096 ||| 7 ∧ frame e = n * 4096 := by
    intro q e he
    rw [Kernel.userPage, hroot] at he
    obtain ⟨v, n, hq, hn, rfl⟩ := hl.page_owned hempty he
    exact ⟨v, n, hq, hn, rfl, frame_page (hl.frame_lt h₀ hn)⟩
  refine ⟨⟨?_, ?_, ?_, ?_, ?_, ?_⟩, fun q e he ↦ ?_⟩
  · intro r hr
    rw [List.mem_singleton.mp hr, hroot]
    exact hl.space
  · intro r hr
    rwa [List.mem_singleton.mp hr]
  · intro r hr r' hr' hne
    exact absurd ((List.mem_singleton.mp hr).trans (List.mem_singleton.mp hr').symm) hne
  · intro r hr q e he r' hr'
    rw [List.mem_singleton.mp hr] at he
    rw [List.mem_singleton.mp hr', hroot]
    obtain ⟨v, n, -, hn, -, hf⟩ := hown q e he
    obtain ⟨hn₀, hnf, hnt⟩ := hl.owned _ n hn
    rw [hf]
    refine ⟨Nat.dvd_mul_left _ _, ?_, fun hm ↦ hnf (mem_framesOf.mp hm), hnt⟩
    rw [hl.frames]
    exact h₀.ready.window.apart _ (mem_framesOf.mpr hn₀)
  · intro r hr q e he
    rw [List.mem_singleton.mp hr] at he
    obtain ⟨v, n, -, -, rfl, -⟩ := hown q e he
    left
    rw [or_and_flag (Nat.dvd_mul_left _ _) (by decide)]
    decide
  · intro r q r' q' f b hm hm'
    obtain ⟨hr, e, he, heq⟩ := sharing_map_eq_some hm
    obtain ⟨hr', e', he', heq'⟩ := sharing_map_eq_some hm'
    rw [List.mem_singleton] at hr hr'
    subst hr hr'
    obtain ⟨v, n, rfl, hn, -, hf⟩ := hown q e he
    obtain ⟨v', n', rfl, hn', -, hf'⟩ := hown q' e' he'
    obtain ⟨rfl, -⟩ := Prod.mk.inj heq
    obtain ⟨hff, -⟩ := Prod.mk.inj heq'
    -- no two pages have been given one frame
    obtain rfl : n = n' := by omega
    exact ⟨rfl, pagePath_eq_iff.mpr (by rw [hl.inj _ _ n hn hn'])⟩
  · obtain ⟨v, n, -, hn, -, hf⟩ := hown q e he
    rw [hf]
    exact mem_framesOf.mpr (hl.owned _ n hn).1

/-! ## A page that was not there -/

/-- The memory after process `p` has got page `n` for `v`, and the frames `l` for the tables on the
way. -/
structure MapFrames (w : Nat) (k : Kernel) (ps : List Nat) (p n v : Nat) (l free : List Nat)
    (k' : Kernel) : Prop where
  root : ∀ r, k'.root r = k.root r
  frames : windowFrames k'.mem w = windowFrames k.mem w
  self : k'.userTables p = k.userTables p ∪ framesOf l
  other : ∀ r ∈ ps, r ≠ p → k'.userTables r = k.userTables r
  pages : ∀ r ∈ ps, ∀ q, k'.userPage r q =
    if r = p ∧ q = pagePath v then some (n * 4096 ||| 7) else k.userPage r q
  spaces : ∀ r ∈ ps, Space w (k'.loadCR3 (k'.root r)) free
  data : ∀ f, (k.sharing ps).Used f → ∀ o : Fin 4096, k'.mem (f + o) = k.mem (f + o)

theorem Isolated.mapFrames (h : Isolated w k ps (n :: free)) (hp : p ∈ ps) (hv : v < 2 ^ 47)
    (hlen : 3 ≤ free.length) : ∃ l free', free = l ++ free' ∧
      MapFrames w k ps p n v l free' ((k.switch p).onMachine ((k.switch p).mapNew v)) := by
  have hspace := h.space p hp
  have hn := hspace.ready.free_lt n List.mem_cons_self
  obtain ⟨ha, -, hm₁, hc₁⟩ := allocatePage_spec hspace.ready.freeList
  obtain ⟨free', hmap, -, hspace', hframes⟩ := hspace.allocatePage.mapVP2 (p := n * 4096) hv
    (Nat.dvd_mul_left _ _) (by omega) hlen
  have heq : (k.switch p).mapNew v = (k.loadCR3 (k.root p)).allocatePage.2.mapVP2 v (n * 4096) := by
    rw [← ha]
    rfl
  rw [← heq] at hmap hspace' hframes
  generalize (k.switch p).mapNew v = s at hmap hspace' hframes ⊢
  generalize (k.loadCR3 (k.root p)).allocatePage.2 = s₁ at hm₁ hc₁ hmap hframes
  change s₁.mem = k.mem at hm₁
  change s₁.cr3 = k.root p at hc₁
  rw [hm₁] at hframes
  have hcr3 : s.cr3 = k.root p := hmap.cr3.trans hc₁
  obtain ⟨l, hl, htab⟩ := hmap.taken
  have hpages := hmap.pages
  have hbytes := hmap.bytes
  rw [hc₁, hm₁] at htab hpages
  rw [hc₁, hm₁, htab] at hbytes
  have hsub : ∀ m ∈ l ++ free', m ∈ n :: free := fun m hm ↦ List.mem_cons_of_mem n (hl ▸ hm)
  have hT : framesOf l ⊆ framesOf (n :: free) :=
    framesOf_mono fun m hm ↦ hsub m (List.mem_append_left free' hm)
  have hwrites : WritesIn w k p (framesOf l) s.mem := fun x _ hxt hxl ↦
    hbytes x (not_or.mpr ⟨hxt, hxl⟩)
  have hsame : ∀ r ∈ ps, r ≠ p → SameOn (k.userTables r) k.mem s.mem := fun r hr hrp ↦
    hwrites.tables h hT hp hr hrp
  refine ⟨l, free', hl, fun _ ↦ rfl, hframes, htab, fun r hr hrp ↦ ?_, fun r hr q ↦ ?_,
    fun r hr ↦ ?_, fun f hf o ↦ hwrites.data h hT hp hf o⟩
  · exact tableFrames_congr (h.space r hr).user.dvd (hsame r hr hrp)
  · by_cases hrp : r = p
    · subst hrp
      simp only [true_and]
      exact hpages q
    · rw [if_neg fun hc ↦ hrp hc.1]
      exact pageAt_congr (h.space r hr).user.dvd (hsame r hr hrp) q
  · by_cases hrp : r = p
    · subst hrp
      change Space w (s.loadCR3 (k.root r)) free'
      rw [← hcr3]
      exact hspace'
    · exact (h.space r hr).other hspace'.ready (fun m hm ↦ hsub m (List.mem_append_right l hm))
        hframes (hsame r hr hrp)

section MapFrames

variable (hf : MapFrames w k ps p n v l free k')
include hf

/-- A frame of data, or the new page, is no table of any process. -/
theorem MapFrames.dataFrame (hp : p ∈ ps) (hd : 4096 ∣ f) (hw : f ∉ windowFrames k.mem w)
    (hl : f ∉ framesOf (l ++ free)) (ht : ∀ r ∈ ps, f ∉ k.userTables r) (hr : r ∈ ps) :
    DataFrame w k'.mem (k'.root r) free f := by
  refine ⟨hd, ?_, fun hm ↦ hl (framesOf_mono (List.subset_append_right l free) hm), ?_⟩
  · rw [hf.frames]
    exact hw
  · change f ∉ k'.userTables r
    by_cases hrp : r = p
    · rw [hrp, hf.self]
      exact not_or.mpr ⟨ht p hp, fun hm ↦ hl (framesOf_mono (List.subset_append_left l free) hm)⟩
    · rw [hf.other r hr hrp]
      exact ht r hr

variable (h : Isolated w k ps (n :: (l ++ free)))
include h

theorem MapFrames.grant (hp : p ∈ ps) :
    CowState.Grant p (pagePath v) (n * 4096) (k.sharing ps) (k'.sharing ps) := by
  have hn := (h.space p hp).ready.free_lt n List.mem_cons_self
  have hnf : n * 4096 ∈ framesOf (n :: (l ++ free)) := ⟨n, List.mem_cons_self, rfl⟩
  refine ⟨fun hu ↦ (h.used hu hp).free hnf, ?_, fun r q hrq ↦ ?_, fun g hg ↦ ?_⟩
  · have hw : (n * 4096 ||| 7) &&& wBit = 2 := or_and_flag (Nat.dvd_mul_left _ _) (by decide)
    rw [sharing_map hp, hf.pages p hp, if_pos ⟨rfl, rfl⟩, Option.map_some, frame_page hn, hw]
    rfl
  · by_cases hr : r ∈ ps
    · rw [sharing_map hr, sharing_map hr, hf.pages r hr, if_neg hrq]
    · exact (if_neg hr).trans (if_neg hr).symm
  · funext o
    exact hf.data g hg o

theorem MapFrames.tables (hr : r ∈ ps) (hrp : r ≠ p)
    (hdis : Disjoint (k.userTables p) (k.userTables r)) :
    Disjoint (k'.userTables p) (k'.userTables r) := by
  rw [hf.self, hf.other r hr hrp]
  refine hdis.sup_left (Set.disjoint_left.mpr fun t ht htr ↦ (h.space r hr).user.free t htr ?_)
  exact framesOf_mono (fun m hm ↦ List.mem_cons_of_mem n (List.mem_append_left free hm)) ht

/-- A new page changes the tables of its process only. -/
theorem MapFrames.isolated (hp : p ∈ ps) : Isolated w k' ps free := by
  have hn := (h.space p hp).ready.free_lt n List.mem_cons_self
  have hnf : n * 4096 ∈ framesOf (n :: (l ++ free)) := ⟨n, List.mem_cons_self, rfl⟩
  have hsub : l ++ free ⊆ n :: (l ++ free) := List.subset_cons_self n (l ++ free)
  have hsub' : free ⊆ n :: (l ++ free) := fun m hm ↦ hsub (List.mem_append_right l hm)
  refine ⟨hf.spaces, fun r hr hw ↦ h.pcb r hr (windowOf_mono hsub' hw), fun r hr r' hr' hne ↦ ?_,
    fun r hr q e he r' hr' ↦ ?_, fun r hr q e he ↦ ?_, (hf.grant h hp).exclusive h.exclusive⟩
  · by_cases hrp : r = p
    · subst hrp
      exact hf.tables h hr' hne.symm (h.tables r hr r' hr' hne)
    · by_cases hrp' : r' = p
      · subst hrp'
        exact (hf.tables h hr hrp (h.tables r' hr' r hr hne.symm)).symm
      · rw [hf.other r hr hrp, hf.other r' hr' hrp']
        exact h.tables r hr r' hr' hne
  · rw [hf.pages r hr] at he
    split at he
    · obtain rfl := Option.some.inj he
      rw [frame_page hn]
      exact hf.dataFrame hp (Nat.dvd_mul_left _ _) ((h.space p hp).ready.window.apart _ hnf)
        (fun hm ↦ (h.space p hp).ready.freeList.nodup_cons (mem_framesOf.mp hm))
        (fun r hr ht ↦ (h.space r hr).user.free _ ht hnf) hr'
    · have hd := h.data r hr q e he
      exact hf.dataFrame hp (hd r hr).dvd (hd r hr).window
        (fun hm ↦ (hd r hr).free (framesOf_mono hsub hm)) (fun r hr ↦ (hd r hr).user) hr'
  · rw [hf.pages r hr] at he
    split at he
    · obtain rfl := Option.some.inj he
      left
      rw [or_and_flag (Nat.dvd_mul_left _ _) (by decide)]
      decide
    · exact h.marked r hr q e he

end MapFrames

theorem heapPage_le (h : heapPage a fuel e = some u) : u ≤ a := by
  induction fuel generalizing e with
  | zero => cases h
  | succ fuel ih =>
      rw [heapPage] at h
      split at h
      · exact ih h
      · obtain rfl := Option.some.inj h
        omega

/-- The search is over when a heap takes the fault, with a page for an address below its end. -/
theorem StackEnds.found (h : StackEnds k) (hf : Kernel.faultVmas a fuel x k = some (k', true)) :
    ∃ u z vmEnd, u < 2 ^ 47 ∧ k' = (k.onMachine (k.mapNew u)).setVmEnd z vmEnd := by
  induction fuel generalizing x with
  | zero => cases hf
  | succ fuel ih =>
      rw [Kernel.faultVmas] at hf
      dsimp only at hf
      split at hf
      · cases hf
      · split at hf
        · rename_i hheap
          obtain ⟨u, hu, he⟩ := Option.map_eq_some_iff.mp hf
          have hlow := heapPage_le hu
          have hend : heapEnd < 2 ^ 47 := by decide
          exact ⟨u, x, _, by omega, (Prod.mk.inj he).1.symm⟩
        · split at hf
          · rename_i hstack
            exact absurd hstack h.not_stackFault
          · exact ih hf

/-- A fault on a page that is not present, and is over, has been taken by a VMA. -/
theorem pageFault_taken (hpb : errCode &&& pBit = 0)
    (h : k.pageFault fuel errCode a = some (.resume k')) :
    faultVmas a fuel (k.mms (k.procs.pcbs k.procs.current).mm).mmap k = some (k', true) := by
  have hp : (errCode &&& 0xF) &&& pBit = 0 := by
    rw [Nat.and_assoc]
    exact hpb
  unfold Kernel.pageFault at h
  dsimp only at h
  rw [if_neg fun hc ↦ hc.1 hp, decide_eq_true hp] at h
  split at h
  · cases h
  · obtain ⟨⟨k₁, found⟩, hk₁, he⟩ := Option.map_eq_some_iff.mp h
    cases found with
    | false => cases he
    | true =>
        obtain rfl := FaultResult.resume.inj he
        exact hk₁

theorem Isolated.grow (h : Isolated w k ps free) (hs : StackEnds k) (hp : p ∈ ps)
    (hpb : errCode &&& pBit = 0) (hlen : 4 ≤ free.length)
    (hf : (k.switch p).pageFault fuel errCode a = some (.resume k')) :
    ∃ u n free', Isolated w k' ps free' ∧
      CowState.Grant p (pagePath u) (n * 4096) (k.sharing ps) (k'.sharing ps) := by
  have hsw : StackEnds (k.switch p) := hs.congr rfl
  obtain ⟨u, z, vmEnd, hu, rfl⟩ := hsw.found (pageFault_taken hpb hf)
  obtain ⟨n, free, rfl⟩ := List.exists_cons_of_length_pos (l := free) (by omega)
  rw [List.length_cons] at hlen
  obtain ⟨l, free', rfl, hmap⟩ := h.mapFrames hp hu (by omega)
  have h' := hmap.isolated h hp
  exact ⟨u, n, free', ⟨h'.space, h'.pcb, h'.tables, h'.data, h'.marked, h'.exclusive⟩,
    hmap.grant h hp⟩

/-! ## Calls that leave the memory alone -/

theorem Isolated.congr (h : Isolated w k ps free) (hm : k'.mem = k.mem) (ha : k'.alloc = k.alloc)
    (hr : ∀ p, k'.root p = k.root p) : Isolated w k' ps free := by
  have hload : ∀ r, k'.loadCR3 r = k.loadCR3 r := fun r ↦ by
    rw [Machine.loadCR3, Machine.loadCR3, hm, ha]
  have hpages : ∀ p ∈ ps, ∀ q, k'.userPage p q = k.userPage p q := fun p _ q ↦ by
    rw [Kernel.userPage, hm, hr]
  have htab : ∀ p, k'.userTables p = k.userTables p := fun p ↦ by
    rw [Kernel.userTables, hm, hr]
  refine ⟨fun p hp ↦ ?_, h.pcb, fun p hp r hr ↦ ?_, fun p hp q e he r hr' ↦ ?_, fun p hp q e he ↦ ?_,
    fun p q p' q' f b hm hm' ↦ ?_⟩
  · rw [hr, hload]
    exact h.space p hp
  · rw [htab, htab]
    exact h.tables p hp r hr
  · rw [hpages p hp] at he
    rw [hr, hm]
    exact h.data p hp q e he r hr'
  · rw [hpages p hp] at he
    exact h.marked p hp q e he
  · rw [sharing_map_congr hpages] at hm hm'
    exact h.exclusive p q p' q' f b hm hm'

section
variable (s : Procs) (sp : SwitchPoint) (q : Nat)

theorem contextSwitch_cr3 (next prev : Nat) :
    ((s.contextSwitch next prev sp).pcbs q).cr3 = (s.pcbs q).cr3 :=
  (modify_field (by intro c; rfl) q).trans (modify_field (by intro c; rfl) q)

theorem setNext_cr3 (a v : Nat) : ((s.setNext a v).pcbs q).cr3 = (s.pcbs q).cr3 :=
  modify_field (by intro c; rfl) q

theorem yieldSyscall_cr3 : ((s.yieldSyscall sp).pcbs q).cr3 = (s.pcbs q).cr3 := by
  unfold Procs.yieldSyscall
  dsimp only
  split
  · exact contextSwitch_cr3 _ sp q _ _
  · rfl

theorem exitSyscall_cr3 {s' : Procs} (h : s.exitSyscall fuel sp = some s') :
    (s'.pcbs q).cr3 = (s.pcbs q).cr3 := by
  unfold Procs.exitSyscall at h
  obtain ⟨temp, -, rfl⟩ := Option.map_eq_some_iff.mp h
  have hstate : ((s.setState s.current .zombie).pcbs q).cr3 = (s.pcbs q).cr3 :=
    modify_field (by intro c; rfl) q
  rw [yieldSyscall_cr3]
  split
  · exact (setNext_cr3 _ q _ _).trans hstate
  · exact (setNext_cr3 _ q _ _).trans ((setNext_cr3 _ q _ _).trans hstate)

theorem waitpidSyscall_cr3 (pid : Nat) :
    ((s.waitpidSyscall pid sp).pcbs q).cr3 = (s.pcbs q).cr3 := by
  unfold Procs.waitpidSyscall
  split
  · have hwait : ((s.modify s.current fun p ↦ { p with waitOnChildpid := pid }).pcbs q).cr3 =
        (s.pcbs q).cr3 := modify_field (by intro c; rfl) q
    refine (contextSwitch_cr3 _ sp q _ _).trans ?_
    exact (setNext_cr3 _ q _ _).trans ((setNext_cr3 _ q _ _).trans hwait)
  · rfl

end

/-- Calls that change the records of the processes at most. -/
def Call.recordsOnly : List Call := [.malloc, .yield, .exit, .waitpid]

theorem Kernel.Serves.recordsOnly {c : Call} (h : Serves c k k') (hc : c ∈ Call.recordsOnly) :
    k'.mem = k.mem ∧ k'.alloc = k.alloc ∧ k'.vmas = k.vmas ∧ ∀ q, k'.root q = k.root q := by
  cases h with
  | fork | exec | fault | store => exact absurd hc (by decide)
  | malloc k size => exact ⟨rfl, rfl, rfl, fun _ ↦ rfl⟩
  | yield k sp => exact ⟨rfl, rfl, rfl, fun q ↦ yieldSyscall_cr3 k.procs sp q⟩
  | exit h => exact ⟨rfl, rfl, rfl, fun q ↦ exitSyscall_cr3 k.procs _ q h⟩
  | waitpid k pid sp => exact ⟨rfl, rfl, rfl, fun q ↦ waitpidSyscall_cr3 k.procs sp q pid⟩

/-! ## A new program -/

section
variable {ehdr tarfs file argv stack heap : Nat} {f : Elf} {name : CString} {args : List CString}
  {y : ExecEnd}

/-- A table that is all of its tree has no entry of the user. -/
theorem NewSpace.page_none (h : NewSpace w s free s' r free') (q : List (Fin 512)) :
    pageAt userEntries s'.mem r q = none := by
  have hchild : ∀ i, child userEntries s'.mem 2 r i = none := by
    intro i
    by_contra hne
    obtain ⟨t, ht⟩ := Option.ne_none_iff_exists'.mp hne
    have hmem : t ∈ tableFrames userEntries s'.mem r := mem_tables_child ht self_mem_tables
    rw [h.tables, Set.mem_singleton_iff] at hmem
    -- it would be the table itself, which a tree does not reach twice
    subst hmem
    exact (h.space.user.tree.1 i t ht).2 self_mem_tables
  cases q with
  | nil => rfl
  | cons i q =>
      change leaf _ _ 3 r (i :: q) = none
      rw [leaf, hchild]
      rfl

theorem ProgramEntered.sameInUse (h : ProgramEntered w k free k' free') :
    SameInUse w k.toMachine free k'.toMachine := by
  obtain ⟨s, rest, A, img, hnew, -, hl⟩ := h.loaded
  intro x hx
  rw [← hnew.inUse x hx]
  refine hl.rest x ?_ (fun hm ↦ hx.2 (framesOf_mono hnew.subset hm)) fun hm ↦ hx.2 ?_
  · change _ ∉ windowFrames s.mem w
    rw [hnew.frames]
    exact hx.1
  · change _ ∈ tableFrames userEntries s.mem k'.cr3 at hm
    rw [hnew.tables, Set.mem_singleton_iff] at hm
    rw [hm]
    exact hnew.root

/-- The call takes frames that were free for the new process, and the others look on. -/
theorem ProgramEntered.isolated (h : Isolated w k ps free)
    (hc : ProgramEntered w k free k' free') :
    Isolated w k' (k'.procs.current :: ps) free' ∧
      ∀ r ∈ ps, ∀ v < 2 ^ 47, k'.readAs r v = k.readAs r v := by
  obtain ⟨s, rest, A, img, hnew, hcur, hl⟩ := hc.loaded
  have hrest : framesOf rest ⊆ framesOf free := framesOf_mono hnew.subset
  have hsub : free' ⊆ free := fun m hm ↦ hnew.subset (hl.suffix.subset hm)
  have hlook : LookOn w k ps free k' free' :=
    h.lookOn hc.sameInUse hl.space.ready (hl.frames.trans hnew.frames) hsub fun p hp ↦
      hc.others p fun he ↦ h.pcb p hp (he ▸ hc.fresh)
  have hcur' : k'.procs.current ∉ windowOf free' := fun hm ↦
    hcur (windowOf_mono hl.suffix.subset hm)
  obtain ⟨hself, hdata⟩ := hl.isolated hnew.space hnew.page_none hc.root hcur'
  refine ⟨(hlook.isolated h).cons (S := framesOf free) hself ?_ (fun q e he ↦ hrest (hdata q e he))
    (fun r hr ↦ ?_) fun r hr q e he ↦ ?_, fun r hr v hv ↦ hlook.readAs h hc.sameInUse hr hv⟩
  · rw [Kernel.userTables, hc.root]
    refine hl.tables.trans (Set.union_subset ?_ hrest)
    change tableFrames userEntries s.mem k'.cr3 ⊆ _
    rw [hnew.tables, Set.singleton_subset_iff]
    exact hnew.root
  · rw [hlook.userTables h hr]
    exact Set.disjoint_left.mpr (h.space r hr).user.free
  · rw [hlook.userPage h hr] at he
    exact (h.data r hr q e he r hr).free

theorem Isolated.exec (h : Isolated w k ps free') (hp : p ∈ ps)
    (hc : ExecCall w (k.switch p) free tarfs fuel file argv ehdr f name args l stack heap e)
    (hrun : execveSyscall tarfs fuel file argv (k.switch p) = some (.done y k')) :
    ∃ free'', Isolated w k' (k'.procs.current :: ps) free'' ∧
      ∀ r ∈ ps, ∀ v < 2 ^ 47, k'.readAs r v = k.readAs r v := by
  obtain rfl := (h.space p hp).ready.freeList.unique hc.space.ready.freeList
  obtain ⟨ans, as, k₁, W, free₁, hrun₁, hin, -⟩ := execve_entered hc
  obtain ⟨-, rfl⟩ := Outcome.done.inj (Option.some.inj (hrun.symm.trans hrun₁))
  have hsw : Isolated w (k.switch p) ps free' := h.congr rfl rfl fun _ ↦ rfl
  obtain ⟨h', hread⟩ := hin.isolated hsw
  exact ⟨free₁, h', hread⟩

end

/-! ## Runs -/

/-- What the processes read after a fault of `p` that has given it pages. -/
def grantFault (p : Nat) (k k' : Kernel) (E : Nat → Nat → Option UInt8) :
    Nat → Nat → Option UInt8 :=
  Function.update E p fun v ↦
    if k'.userPage p (pagePath v) = k.userPage p (pagePath v) then E p v else k'.readAs p v

/-- What the processes do from the processes `ps₀` in state `k₀` on, in any order: the processes there
are now, what they would read if no two of them shared memory, and the state.  Forks find no old entry
in the frame of the child's top-level table, and there are frames for the faults and programs. -/
inductive SpaceRun (w : Nat) (ps₀ : List Nat) (k₀ : Kernel) :
    List Nat → (Nat → Nat → Option UInt8) → Kernel → Prop where
  | start : SpaceRun w ps₀ k₀ ps₀ k₀.readAs k₀
  | fork {ps : List Nat} {E : Nat → Nat → Option UInt8} {k k' : Kernel} {p fuel : Nat}
      {regs : ForkRegs} (h : SpaceRun w ps₀ k₀ ps E k) (hp : p ∈ ps) (hclear : ClearRoot k p)
      (hrun : (k.switch p).forkSyscall fuel regs = some k') (hfree : k'.alloc.HasFree) :
      SpaceRun w ps₀ k₀ (k'.procs.nextOf p :: ps) (eagerFork p (k'.procs.nextOf p) E) k'
  | store {ps : List Nat} {E : Nat → Nat → Option UInt8} {k k' : Kernel} {p v : Nat} {b : UInt8}
      (h : SpaceRun w ps₀ k₀ ps E k) (hp : p ∈ ps) (hv : v < 2 ^ 47)
      (hs : UserStore v b (k.switch p) k') : SpaceRun w ps₀ k₀ ps (eagerStore p v b E) k'
  | fault {ps : List Nat} {E : Nat → Nat → Option UInt8} {k k' : Kernel} {p fuel errCode a : Nat}
      (h : SpaceRun w ps₀ k₀ ps E k) (hp : p ∈ ps) (hpb : errCode &&& pBit = 0)
      (hf : (k.switch p).pageFault fuel errCode a = some (.resume k'))
      (hfree : ∃ free, FreeList k.alloc free ∧ 4 ≤ free.length) :
      SpaceRun w ps₀ k₀ ps (grantFault p k k' E) k'
  | exec {ps : List Nat} {E : Nat → Nat → Option UInt8} {k k' : Kernel} {free l : List Nat}
      {p tarfs fuel file argv ehdr stack heap e : Nat} {f : Elf} {name : CString}
      {args : List CString} {y : ExecEnd} (h : SpaceRun w ps₀ k₀ ps E k) (hp : p ∈ ps)
      (hc : ExecCall w (k.switch p) free tarfs fuel file argv ehdr f name args l stack heap e)
      (hrun : execveSyscall tarfs fuel file argv (k.switch p) = some (.done y k')) :
      SpaceRun w ps₀ k₀ (k'.procs.current :: ps)
        (Function.update E k'.procs.current (k'.readAs k'.procs.current)) k'
  | call {ps : List Nat} {E : Nat → Nat → Option UInt8} {k k' : Kernel} {p : Nat} {c : Call}
      (h : SpaceRun w ps₀ k₀ ps E k) (hp : p ∈ ps) (hc : c ∈ Call.recordsOnly)
      (hs : Serves c (k.switch p) k') : SpaceRun w ps₀ k₀ ps E k'

theorem UserStore.stackEnds (h : UserStore v b k k') (hs : StackEnds k) : StackEnds k' := by
  induction h with
  | store => exact hs.congr rfl
  | fault _ _ _ _ _ hf _ ih => exact ih (hs.pageFault hf)

/-- A fault gives its process a page, and the others read what they read before. -/
theorem readAs_fault (h : CowState.Grant p (pagePath u) f (k.sharing ps) (k'.sharing ps))
    (hp : p ∈ ps) (hr : r ∈ ps) (hv : v < 2 ^ 47) (hread : ∀ r ∈ ps, ∀ v < 2 ^ 47, k.readAs r v = E r v) :
    k'.readAs r v = grantFault p k k' E r v := by
  have hkeep : ¬ (r = p ∧ pagePath v = pagePath u) → k'.readAs r v = E r v := by
    intro hrv
    rw [readAs_view hr hv, h.view_of_ne hrv, ← readAs_view hr hv, hread r hr v hv]
  unfold grantFault
  by_cases hrp : r = p
  · subst hrp
    rw [Function.update_self]
    split
    · rename_i hpage
      refine hkeep fun hc ↦ h.fresh ⟨r, pagePath u, true, ?_⟩
      -- the page has a new frame, so its entry is not the old one
      rw [sharing_map hp, ← hc.2, ← hpage, hc.2, ← sharing_map hp]
      exact h.self
    · rfl
  · rw [Function.update_of_ne hrp]
    exact hkeep fun hc ↦ hrp hc.1

theorem readAs_congr (hm : k'.mem = k.mem) (hroot : k'.root r = k.root r) (hv : v < 2 ^ 47) :
    k'.readAs r v = k.readAs r v := by
  rw [readAs_user hv, readAs_user hv, Kernel.userPage, hm, hroot]

/-- What holds in every state of a run. -/
theorem SpaceRun.isolated {free₀ : List Nat} (hrun : SpaceRun w ps₀ k₀ ps E k)
    (h₀ : Isolated w k₀ ps₀ free₀) (hs₀ : StackEnds k₀) :
    (∃ free, Isolated w k ps free) ∧ StackEnds k ∧ ∀ p ∈ ps, ∀ v < 2 ^ 47, k.readAs p v = E p v := by
  induction hrun with
  | start => exact ⟨⟨free₀, h₀⟩, hs₀, fun _ _ _ _ ↦ rfl⟩
  | @fork ps E k k' p fuel regs _ hp hclear hrun hfree ih =>
      obtain ⟨⟨free, h⟩, hs, hread⟩ := ih
      obtain ⟨free', h', hfork⟩ := h.fork hp hclear hrun hfree
      have hsw : StackEnds (k.switch p) := hs.congr rfl
      exact ⟨⟨free', h'⟩, hsw.forkSyscall hrun, fun r hr v hv ↦ readAs_fork hfork hp hr hv hread⟩
  | @store ps E k k' p v b _ hp hv hstore ih =>
      obtain ⟨⟨free, h⟩, hs, hread⟩ := ih
      have hsw : Isolated w (k.switch p) ps free := h.congr rfl rfl fun _ ↦ rfl
      obtain ⟨free', h', hstored⟩ := hstore.isolated rfl hp hv hsw
      have hsw' : StackEnds (k.switch p) := hs.congr rfl
      exact ⟨⟨free', h'⟩, hstore.stackEnds hsw', fun r hr v' hv' ↦
        hstored.readAs_eager hv hr hv' hread⟩
  | @fault ps E k k' p fuel errCode a _ hp hpb hf hfree ih =>
      obtain ⟨⟨free, h⟩, hs, hread⟩ := ih
      obtain ⟨l, hl, hlen⟩ := hfree
      obtain rfl := (h.space p hp).ready.freeList.unique hl
      obtain ⟨u, n, free', h', hgrant⟩ := h.grow hs hp hpb hlen hf
      have hsw : StackEnds (k.switch p) := hs.congr rfl
      exact ⟨⟨free', h'⟩, hsw.pageFault hf, fun r hr v hv ↦ readAs_fault hgrant hp hr hv hread⟩
  | @exec ps E k k' free l p tarfs fuel file argv ehdr stack heap e f name args y _ hp hc hrun ih =>
      obtain ⟨⟨free, h⟩, hs, hread⟩ := ih
      obtain ⟨free', h', hkeep⟩ := h.exec hp hc hrun
      have hsw : StackEnds (k.switch p) := hs.congr rfl
      refine ⟨⟨free', h'⟩, hsw.execveSyscall hrun, fun r hr v hv ↦ ?_⟩
      by_cases hrc : r = k'.procs.current
      · rw [hrc, Function.update_self]
      · have hr' := (List.mem_cons.mp hr).resolve_left hrc
        rw [Function.update_of_ne hrc, hkeep r hr' v hv, hread r hr' v hv]
  | @call ps E k k' p c _ hp hc hserves ih =>
      obtain ⟨⟨free, h⟩, hs, hread⟩ := ih
      obtain ⟨hm, ha, hv, hroot⟩ := hserves.recordsOnly hc
      have hsw : Isolated w (k.switch p) ps free := h.congr rfl rfl fun _ ↦ rfl
      refine ⟨⟨free, hsw.congr hm ha hroot⟩, hs.congr hv, fun r hr v hv ↦ ?_⟩
      exact (readAs_congr hm (hroot r) hv).trans (hread r hr v hv)

theorem Isolated.store (h : Isolated w k ps free) (hp : p ∈ ps) (hv : v < 2 ^ 47)
    (hsome : (k.readAs p v).isSome) (hfree : k.alloc.HasFree) (b : UInt8) :
    ∃ k', UserStore v b (k.switch p) k' := by
  rw [readAs_user hv, Option.isSome_map] at hsome
  obtain ⟨e, he⟩ := Option.isSome_iff_exists.mp hsome
  exact h.userStore hp hv he hfree b

/-! ## A caller that runs a program -/

end Sbunix
