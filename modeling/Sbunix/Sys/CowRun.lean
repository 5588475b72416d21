import Sbunix.Sys.CowSpaces

/-!
# Runs of forks and writes

Processes fork and write in any order, and a write to a page without the W bit goes through
`pageFault`.  What they read is what they would read if each fork copied all pages at once, as long
as the frame of a child's top-level table holds no entry of its own.
-/

namespace Sbunix

open Reasoning Kernel

variable {k k' k₀ : Kernel} {w n v v' e p r fuel : Nat} {free ps ps₀ : List Nat} {b : UInt8}
  {C : Kernel → Nat → Prop} {E : Nat → Nat → Option UInt8}

/-! ## Stores -/

/-- A store to a page that is there: it is done, or it faults with the bits P and W in the error
code, and the process tries again when `pageFault` is over. -/
inductive UserStore (v : Nat) (b : UInt8) : Kernel → Kernel → Prop where
  | store {k : Kernel} {s : Machine} (h : k.writeByte v b = some s) :
      UserStore v b k (k.onMachine s)
  | fault {k k₁ k' : Kernel} {fuel errCode : Nat} (hs : k.writeByte v b = none)
      (hv : (k.walk v).isSome) (hp : errCode &&& pBit ≠ 0) (hw : errCode &&& wBit ≠ 0)
      (hfree : k.alloc.HasFree) (hf : k.pageFault fuel errCode v = some (.resume k₁))
      (h : UserStore v b k₁ k') : UserStore v b k k'

/-- The page of `v` of process `p` differs in the byte `b`, and no other page differs. -/
def Stored (p v : Nat) (b : UInt8) (A A' : CowState Nat (List (Fin 512)) Nat (Fin 4096 → UInt8)) :
    Prop :=
  (∃ d, A.view p (pagePath v) = some d ∧
    A'.view p (pagePath v) = some (Function.update d ⟨v % 4096, Nat.mod_lt v (by decide)⟩ b)) ∧
  ∀ r q, ¬ (r = p ∧ q = pagePath v) → A'.view r q = A.view r q

theorem switch_self (hc : k.procs.current = p) (hr : k.cr3 = k.root p) : k.switch p = k := by
  subst hc
  unfold Kernel.switch
  rw [← hr]
  rfl

theorem walk_switch (hv : v < 2 ^ 47) : (k.switch p).walk v = k.userPage p (pagePath v) :=
  (pageAt_restrict (user_index hv)).symm

/-- The fault of a process that writes to a page without the W bit. -/
theorem Isolated.fault (fuel : Nat) {errCode : Nat} (h : Isolated w k ps (n :: free))
    (hp : p ∈ ps) (hv : v < 2 ^ 47) (he : k.userPage p (pagePath v) = some e) (hcow : e &&& cowBit ≠ 0)
    (hpb : errCode &&& pBit ≠ 0) (hwb : errCode &&& wBit ≠ 0) :
    ∃ s', (k.switch p).pageFault fuel errCode v = some (.resume ((k.switch p).onMachine s')) ∧
      PageCopied w (k.switch p).toMachine n v e free s' :=
  pageFault_cow (h.space p hp) rfl hv he hcow (h.data p hp _ e he p hp) hpb hwb

theorem writeByte_user {s : Machine} (hv : v < 2 ^ 47)
    (he : pageAt userEntries s.mem s.cr3 (pagePath v) = some e) (hw : e &&& wBit ≠ 0) (b : UInt8) :
    ∃ s', s.writeByte v b = some s' := by
  have hwalk : s.walk v = some e := (pageAt_restrict (user_index hv)).symm.trans he
  refine ⟨{ s with mem := Function.update s.mem (frame e + v % 4096) b }, ?_⟩
  rw [Machine.writeByte, Machine.translateWrite, if_neg (user_lt_kernBase hv), hwalk,
    Option.bind_some, if_pos hw, Option.map_some]

theorem Stored.congr {A A₁ A' : CowState Nat (List (Fin 512)) Nat (Fin 4096 → UInt8)}
    (h : Stored p v b A₁ A') (hA : ∀ r q, A₁.view r q = A.view r q) : Stored p v b A A' := by
  obtain ⟨⟨d, hd, hd'⟩, hother⟩ := h
  exact ⟨⟨d, (hA _ _).symm.trans hd, hd'⟩, fun r q hrq ↦ (hother r q hrq).trans (hA r q)⟩

theorem Stored.of_write {A A' : CowState Nat (List (Fin 512)) Nat (Fin 4096 → UInt8)} {f : Nat}
    (he : A.Exclusive) (h : A.Write p (pagePath v) f
      (Function.update (A.data f) ⟨v % 4096, Nat.mod_lt v (by decide)⟩ b) A') :
    Stored p v b A A' := by
  refine ⟨⟨A.data f, ?_, h.view_self⟩, fun r q hrq ↦ h.view_of_ne he hrq⟩
  rw [CowState.view, h.mapped, Option.map_some]

/-- A store, with its faults, keeps the address spaces apart and changes one byte of one page. -/
theorem UserStore.isolated (hs : UserStore v b k k') (hself : k.switch p = k) (hp : p ∈ ps)
    (hv : v < 2 ^ 47) (h : Isolated w k ps free) :
    ∃ free', Isolated w k' ps free' ∧ Stored p v b (k.sharing ps) (k'.sharing ps) := by
  induction hs generalizing free with
  | @store k s hw =>
      have hw' : (k.switch p).writeByte v b = some s := by rwa [hself]
      obtain ⟨h', f, hwrite⟩ := h.write hp hv hw'
      rw [hself] at h' hwrite
      exact ⟨free, h', .of_write h.exclusive hwrite⟩
  | @fault k k₁ k' fuel errCode hs hpage hpb hwb hfree hf hrest ih =>
      obtain ⟨n, free, rfl⟩ := List.exists_cons_of_ne_nil
        ((h.space p hp).ready.freeList.hasFree_iff.mp hfree)
      rw [← hself, walk_switch hv, Option.isSome_iff_exists] at hpage
      obtain ⟨e, he⟩ := hpage
      -- the store has faulted, so the page has no W bit, and is marked
      have hcow : e &&& cowBit ≠ 0 := by
        refine (h.marked p hp _ e he).resolve_left fun hew ↦ ?_
        obtain ⟨s', hs'⟩ := writeByte_user (s := (k.switch p).toMachine) hv he hew b
        rw [hself, hs] at hs'
        cases hs'
      obtain ⟨s', hfault, hcopied⟩ := h.fault fuel hp hv he hcow hpb hwb
      rw [hself, hf] at hfault
      obtain rfl := FaultResult.resume.inj (Option.some.inj hfault)
      obtain ⟨h₁, hcopy⟩ := h.copy hp he hcopied
      have hcur : k.procs.current = p := by
        rw [← hself]
        rfl
      have hroot : s'.cr3 = k.root p := hcopied.cr3
      rw [hself] at h₁ hcopy
      obtain ⟨free', h', hstored⟩ := ih (switch_self hcur hroot) h₁
      exact ⟨free', h', hstored.congr hcopy.view⟩

/-- With a free frame a process can store to every page it has. -/
theorem Isolated.userStore (h : Isolated w k ps free) (hp : p ∈ ps) (hv : v < 2 ^ 47)
    (he : k.userPage p (pagePath v) = some e) (hfree : k.alloc.HasFree) (b : UInt8) :
    ∃ k', UserStore v b (k.switch p) k' := by
  by_cases hw : e &&& wBit ≠ 0
  · obtain ⟨s, hs⟩ := writeByte_user (s := (k.switch p).toMachine) hv he hw b
    exact ⟨_, .store hs⟩
  · obtain ⟨n, free, rfl⟩ := List.exists_cons_of_ne_nil
      ((h.space p hp).ready.freeList.hasFree_iff.mp hfree)
    have hcow := (h.marked p hp _ e he).resolve_left hw
    have hpb : (7 : Nat) &&& pBit ≠ 0 := by decide
    have hwb : (7 : Nat) &&& wBit ≠ 0 := by decide
    obtain ⟨s', hfault, hcopied⟩ := h.fault 0 hp hv he hcow hpb hwb
    have hn := (h.space p hp).ready.free_lt n List.mem_cons_self
    have he' : pageAt userEntries s'.mem s'.cr3 (pagePath v) = some (n * 4096 ||| 7) := by
      rw [hcopied.cr3, hcopied.pages, if_pos rfl]
    have hw' : (n * 4096 ||| 7) &&& wBit ≠ 0 := by
      rw [or_and_flag (Nat.dvd_mul_left _ _) (by decide)]
      decide
    obtain ⟨s₁, hs₁⟩ := writeByte_user (s := s') hv he' hw' b
    have hnone : (k.switch p).writeByte v b = none := by
      refine Option.eq_none_iff_forall_ne_some.mpr fun s hs ↦ ?_
      obtain ⟨e', he₁, hw₁, -⟩ := writeByte_inv hv hs
      obtain rfl := Option.some.inj (he.symm.trans he₁)
      exact hw hw₁
    refine ⟨_, .fault hnone ?_ hpb hwb hfree hfault (.store hs₁)⟩
    rw [walk_switch hv, he]
    rfl

/-! ## Runs -/

/-- What the processes read after a store of `p`, when they share nothing. -/
def eagerStore (p v : Nat) (b : UInt8) (E : Nat → Nat → Option UInt8) :
    Nat → Nat → Option UInt8 :=
  Function.update E p (Function.update (E p) v (some b))

/-- What the processes read after a fork of `p`, when the child `c` gets copies of all pages. -/
def eagerFork (p c : Nat) (E : Nat → Nat → Option UInt8) : Nat → Nat → Option UInt8 :=
  Function.update E c (E p)

/-- Forks and stores of the processes, in any order, from the processes `ps₀` in state `k₀` on: the
processes there are now, what they would read if each fork copied all pages, and the state.  Every
fork meets `C`. -/
inductive CowRun (C : Kernel → Nat → Prop) (ps₀ : List Nat) (k₀ : Kernel) :
    List Nat → (Nat → Nat → Option UInt8) → Kernel → Prop where
  | start : CowRun C ps₀ k₀ ps₀ k₀.readAs k₀
  | fork {ps : List Nat} {E : Nat → Nat → Option UInt8} {k k' : Kernel} {p fuel : Nat}
      {regs : ForkRegs} (h : CowRun C ps₀ k₀ ps E k) (hp : p ∈ ps) (hC : C k p)
      (hrun : (k.switch p).forkSyscall fuel regs = some k') (hfree : k'.alloc.HasFree) :
      CowRun C ps₀ k₀ (k'.procs.nextOf p :: ps) (eagerFork p (k'.procs.nextOf p) E) k'
  | store {ps : List Nat} {E : Nat → Nat → Option UInt8} {k k' : Kernel} {p v : Nat} {b : UInt8}
      (h : CowRun C ps₀ k₀ ps E k) (hp : p ∈ ps) (hv : v < 2 ^ 47)
      (hs : UserStore v b (k.switch p) k') : CowRun C ps₀ k₀ ps (eagerStore p v b E) k'

theorem Stored.readAs (h : Stored p v b (k.sharing ps) (k'.sharing ps)) (hv : v < 2 ^ 47)
    (hr : r ∈ ps) (hv' : v' < 2 ^ 47) :
    k'.readAs r v' = if r = p ∧ v' = v then some b else k.readAs r v' := by
  obtain ⟨⟨d, hd, hd'⟩, hother⟩ := h
  rw [readAs_view hr hv', readAs_view hr hv']
  by_cases hpage : r = p ∧ pagePath v' = pagePath v
  · obtain ⟨rfl, hpath⟩ := hpage
    rw [hpath, hd, hd', Option.map_some, Option.map_some]
    rw [pagePath_eq_iff] at hpath
    by_cases hvv : v' = v
    · subst hvv
      rw [if_pos ⟨rfl, rfl⟩, Function.update_self]
    · rw [if_neg fun hc ↦ hvv hc.2, Function.update_of_ne]
      intro he
      have hmod := congrArg Fin.val he
      dsimp only at hmod
      omega
  · rw [hother r _ hpage, if_neg]
    rintro ⟨rfl, rfl⟩
    exact hpage ⟨rfl, rfl⟩

/-- The byte that is stored, the other bytes of `p`, and the other processes. -/
theorem Stored.readAs_eager (h : Stored p v b (k.sharing ps) (k'.sharing ps)) (hv : v < 2 ^ 47)
    (hr : r ∈ ps) (hv' : v' < 2 ^ 47) (hread : ∀ r ∈ ps, ∀ v < 2 ^ 47, k.readAs r v = E r v) :
    k'.readAs r v' = eagerStore p v b E r v' := by
  rw [h.readAs hv hr hv', eagerStore]
  by_cases hrp : r = p
  · subst hrp
    rw [Function.update_self]
    by_cases hvv : v' = v
    · rw [if_pos ⟨rfl, hvv⟩, hvv, Function.update_self]
    · rw [if_neg fun hc ↦ hvv hc.2, Function.update_of_ne hvv]
      exact hread r hr v' hv'
  · rw [if_neg fun hc ↦ hrp hc.1, Function.update_of_ne hrp]
    exact hread r hr v' hv'

/-- The child reads what its parent reads, the others what they read before. -/
theorem readAs_fork {c : Nat} (h : CowState.Fork p c (k.sharing ps) (k'.sharing (c :: ps)))
    (hp : p ∈ ps) (hr : r ∈ c :: ps) (hv : v < 2 ^ 47)
    (hread : ∀ r ∈ ps, ∀ v < 2 ^ 47, k.readAs r v = E r v) :
    k'.readAs r v = eagerFork p c E r v := by
  rw [readAs_view hr hv]
  unfold eagerFork
  by_cases hrc : r = c
  · rw [hrc, Function.update_self, h.view_child, ← readAs_view hp hv, hread p hp v hv]
  · have hr' := (List.mem_cons.mp hr).resolve_left hrc
    rw [Function.update_of_ne hrc, h.view_of_ne hrc, ← readAs_view hr' hv, hread r hr' v hv]

/-- What holds in every state of a run. -/
theorem CowRun.isolated {free₀ : List Nat} (hrun : CowRun ClearRoot ps₀ k₀ ps E k)
    (h₀ : Isolated w k₀ ps₀ free₀) :
    ∃ free, Isolated w k ps free ∧ ∀ p ∈ ps, ∀ v < 2 ^ 47, k.readAs p v = E p v := by
  induction hrun with
  | start => exact ⟨free₀, h₀, fun _ _ _ _ ↦ rfl⟩
  | @fork ps E k k' p fuel regs _ hp hclear hrun hfree ih =>
      obtain ⟨free, h, hread⟩ := ih
      obtain ⟨free', h', hfork⟩ := h.fork hp hclear hrun hfree
      exact ⟨free', h', fun r hr v hv ↦ readAs_fork hfork hp hr hv hread⟩
  | @store ps E k k' p v b _ hp hv hs ih =>
      obtain ⟨free, h, hread⟩ := ih
      have hsw : Isolated w (k.switch p) ps free :=
        ⟨h.space, h.pcb, h.tables, h.data, h.marked, h.exclusive⟩
      obtain ⟨free', h', hstored⟩ := hs.isolated rfl hp hv hsw
      exact ⟨free', h', fun r hr v' hv' ↦ hstored.readAs_eager hv hr hv' hread⟩

/-- Copy on write refines the eager copy: in every state of a run whose forks find no old entry in
the frame of the child's top-level table, each process reads what it would read then, and with a
free frame each of its stores comes to an end. -/
theorem cowRun_eager {free₀ : List Nat} (h₀ : Isolated w k₀ ps₀ free₀)
    (hrun : CowRun ClearRoot ps₀ k₀ ps E k) :
    (∀ p ∈ ps, ∀ v < 2 ^ 47, k.readAs p v = E p v) ∧
      ∀ p ∈ ps, ∀ v < 2 ^ 47, (E p v).isSome → k.alloc.HasFree →
        ∀ b, ∃ k', UserStore v b (k.switch p) k' := by
  obtain ⟨free, h, hread⟩ := hrun.isolated h₀
  refine ⟨hread, fun p hp v hv hsome hfree b ↦ ?_⟩
  rw [← hread p hp v hv, readAs_view hp hv, CowState.view, sharing_map hp] at hsome
  cases he : k.userPage p (pagePath v) with
  | none =>
      rw [he] at hsome
      cases hsome
  | some e => exact h.userStore hp hv he hfree b

/-! ## A process with one page -/

section
variable {stale : Nat}

theorem sumEntries_single {g : Fin 512 → Nat} {i : Fin 512} {a : Nat}
    (h : ∀ j, g j = if j = i then a else 0) (m : Nat) (hm : m ≤ 512) :
    sumEntries g m hm = if i.val < m then a else 0 := by
  induction m with
  | zero => rfl
  | succ m ih =>
      rw [sumEntries, ih, h]
      by_cases hi : i.val = m
      · have hmi : (⟨m, hm⟩ : Fin 512) = i := Fin.ext hi.symm
        rw [if_pos hmi, if_neg (by omega), if_pos (by omega), Nat.zero_add]
      · have hmi : (⟨m, hm⟩ : Fin 512) ≠ i := fun he ↦ hi (congrArg Fin.val he).symm
        rw [if_neg hmi, Nat.add_zero]
        exact if_congr (by omega) rfl rfl

/-- The user tables of the boot machine with one page: one entry in each. -/
theorem bootUser_tables (stale : Nat) :
    (∀ j, child userEntries (bootSpace 0x5007 stale).mem 2 0x1000 j =
      if j = 0 then some 0x5000 else none) ∧
    (∀ j, child userEntries (bootSpace 0x5007 stale).mem 1 0x5000 j =
      if j = 0 then some 0x6000 else none) ∧
    (∀ j, child userEntries (bootSpace 0x5007 stale).mem 0 0x6000 j =
      if j = 0 then some 0x7000 else none) ∧
    ∀ j, pageEntry (bootSpace 0x5007 stale).mem 0x7000 j = if j = 0 then some 0x8007 else none := by
  refine ⟨fun j ↦ ?_, ?_, ?_, fun j ↦ ?_⟩
  · -- entry 511 is none of the user's
    by_cases hj : j.val = 511
    · have hj' : j = 511 := Fin.ext hj
      subst hj'
      exact child_of_outside (by decide)
    · have he := bootSpace_entry 0x5007 stale 1 j
      by_cases h0 : j = 0
      · subst h0
        change entry (bootSpace 0x5007 stale).mem 0x1000 0 = 0x5007 at he
        rw [if_pos rfl, child, he]
        decide
      · have h0' : j.val ≠ 0 := fun h ↦ h0 (Fin.ext h)
        rw [bootWords_zero (by simp; omega) (by omega)] at he
        rw [if_neg h0]
        exact child_of_zero he
  · exact bootSpace_child (n := 5) (i := 0) (e := 0x6007) rfl (by decide) (by decide)
      fun j hj ↦ bootWords_zero (by simp at hj ⊢; omega) (by omega)
  · exact bootSpace_child (n := 6) (i := 0) (e := 0x7007) rfl (by decide) (by decide)
      fun j hj ↦ bootWords_zero (by simp at hj ⊢; omega) (by omega)
  · have he := bootSpace_entry 0x5007 stale 7 j
    by_cases h0 : j = 0
    · subst h0
      change entry (bootSpace 0x5007 stale).mem 0x7000 0 = 0x8007 at he
      rw [if_pos rfl, pageEntry, he]
      decide
    · have h0' : j.val ≠ 0 := fun h ↦ h0 (Fin.ext h)
      rw [bootWords_zero (by simp; omega) (by omega)] at he
      rw [if_neg h0]
      exact if_neg (he ▸ not_present_zero)

theorem bootUser_frames (stale : Nat) :
    tableFrames userEntries (bootSpace 0x5007 stale).mem 0x1000 =
      {0x1000, 0x5000, 0x6000, 0x7000} := by
  obtain ⟨h₂, h₁, h₀, -⟩ := bootUser_tables stale
  rw [tableFrames, tables_single h₂, tables_single h₁, tables_single h₀]
  rfl

theorem bootUser_userTree (stale : Nat) :
    UserTree (bootSpace 0x5007 stale).mem 0x2000 0x1000 (List.range' 20 44) := by
  obtain ⟨h₂, h₁, h₀, -⟩ := bootUser_tables stale
  refine ⟨.single (.single (.single trivial h₀ ?_) h₁ ?_) h₂ ?_, ?_, ?_, ?_⟩
  · exact fun h ↦ by cases h
  · rw [tables_single h₀]
    simp [tables]
  · rw [tables_single h₁, tables_single h₀]
    simp [tables]
  · rw [bootUser_frames]
    rintro t (rfl | rfl | rfl | rfl) <;> decide
  · rw [bootUser_frames, (bootSpace_window 0x5007 stale).1]
    rintro t (rfl | rfl | rfl | rfl) <;> decide
  · rw [bootUser_frames]
    rintro t ht ⟨n, hn, rfl⟩
    have := List.mem_range'_1.mp hn
    simp only [Set.mem_insert_iff, Set.mem_singleton_iff] at ht
    omega

theorem bootUser_page {q : List (Fin 512)}
    (h : pageAt userEntries (bootSpace 0x5007 stale).mem 0x1000 q = some e) :
    q = [0, 0, 0, 0] ∧ e = 0x8007 := by
  obtain ⟨h₂, h₁, h₀, hp⟩ := bootUser_tables stale
  obtain ⟨q₁, rfl, hl₁⟩ := leaf_single h₂ h
  obtain ⟨q₂, rfl, hl₂⟩ := leaf_single h₁ hl₁
  obtain ⟨q₃, rfl, hl₃⟩ := leaf_single h₀ hl₂
  match q₃, hl₃ with
  | [j], hl₃ =>
      rw [leaf, hp] at hl₃
      split at hl₃
      · rename_i hj
        subst hj
        exact ⟨rfl, (Option.some.inj hl₃).symm⟩
      · cases hl₃

theorem bootUser_isolated (stale : Nat) :
    Isolated 0x2000 (bootKernel 0x5007 stale 0) [0xffffffff8000c000] (List.range' 20 44) := by
  have hspace : Space 0x2000 (bootSpace 0x5007 stale) (List.range' 20 44) :=
    ⟨bootSpace_ready 0x5007 stale, bootUser_userTree stale⟩
  have hpage : ∀ {p q e}, (bootKernel 0x5007 stale 0).userPage p q = some e →
      q = [0, 0, 0, 0] ∧ e = 0x8007 := fun h ↦ bootUser_page h
  refine ⟨fun p _ ↦ hspace, fun p hp ↦ ?_, fun p hp r hr hne ↦ ?_, fun p hp q e he r hr ↦ ?_,
    fun p hp q e he ↦ ?_, fun p q p' q' f b hm hm' ↦ ?_⟩
  · rw [List.mem_singleton.mp hp]
    have hl : VmaList (bootKernel 0x5007 stale 0) 0 [] := ⟨rfl, by simp⟩
    exact fun h ↦ (bootKernel_forkReady hl (by simp)).pcb (windowOf_mono (by simp) h)
  · exact absurd ((List.mem_singleton.mp hp).trans (List.mem_singleton.mp hr).symm) hne
  · obtain ⟨-, rfl⟩ := hpage he
    refine ⟨by decide, ?_, ?_, ?_⟩
    · change _ ∉ windowFrames (bootSpace 0x5007 stale).mem 0x2000
      rw [(bootSpace_window 0x5007 stale).1]
      decide
    · rintro ⟨n, hn, he⟩
      have := List.mem_range'_1.mp hn
      change 0x8000 = n * 4096 at he
      omega
    · change _ ∉ tableFrames userEntries (bootSpace 0x5007 stale).mem 0x1000
      rw [bootUser_frames]
      decide
  · obtain ⟨-, rfl⟩ := hpage he
    left
    decide
  · obtain ⟨hp, e, he, -⟩ := sharing_map_eq_some hm
    obtain ⟨hp', e', he', -⟩ := sharing_map_eq_some hm'
    exact ⟨(List.mem_singleton.mp hp').trans (List.mem_singleton.mp hp).symm,
      (hpage he').1.trans (hpage he).1.symm⟩

theorem entryCount_single {mem : Memory} {i : Fin 512} {c m : Nat}
    (h : ∀ j, child userEntries mem m p j = if j = i then some c else none) (j : Fin 512) :
    entryCount mem m p j = if j = i then copyCount mem m c + 1 else 0 := by
  rw [entryCount, h]
  split <;> rfl

theorem copyCount_single {mem : Memory} {i : Fin 512} {c m : Nat}
    (h : ∀ j, child userEntries mem m p j = if j = i then some c else none) :
    copyCount mem (m + 1) p = copyCount mem m c + 1 := by
  rw [copyCount_succ, sumEntries_single (entryCount_single h), if_pos i.isLt]

theorem forkCount_single {mem : Memory} {i : Fin 512} {c : Nat} (hi : i.val < 510)
    (h : ∀ j, child userEntries mem 2 p j = if j = i then some c else none) :
    forkCount mem p = copyCount mem 2 c + 1 := by
  rw [forkCount, sumEntries_single (entryCount_single h), if_pos hi]

theorem bootUser_count (stale : Nat) : forkCount (bootSpace 0x5007 stale).mem 0x1000 = 3 := by
  obtain ⟨h₂, h₁, h₀, -⟩ := bootUser_tables stale
  rw [forkCount_single (by decide) h₂, copyCount_single h₁, copyCount_single h₀]
  rfl

theorem bootUser_fork (stale : Nat) :
    ∃ k', ((bootKernel 0x5007 stale 0).switch 0xffffffff8000c000).forkSyscall 3 ⟨1, 0⟩ = some k' ∧
      k'.alloc.HasFree := by
  have hl : VmaList (bootKernel 0x5007 stale 0) 0 [] := ⟨rfl, by simp⟩
  have hfuel : ([] : List Nat).length < 3 := by decide
  obtain ⟨k', -, hk', -⟩ := forkSyscall_spec (bootKernel_forkReady hl (by simp)) hfuel ⟨1, 0⟩
  have hself : (bootKernel 0x5007 stale 0).switch 0xffffffff8000c000 = bootKernel 0x5007 stale 0 :=
    switch_self rfl rfl
  rw [hself]
  refine ⟨k', hk', forkSyscall_hasFree (bootSpace_ready 0x5007 stale) (bootUser_userTree stale) hk' ?_⟩
  change forkCount (bootSpace 0x5007 stale).mem 0x1000 + 8 * 3 + 10 < _
  rw [bootUser_count]
  decide

theorem pageAt_chain {U : Fin 512 → Bool} {mem : Memory} {i j m o : Fin 512} {t₁ t₂ t₃ : Nat}
    (h₂ : child U mem 2 r i = some t₁) (h₁ : child U mem 1 t₁ j = some t₂)
    (h₀ : child U mem 0 t₂ m = some t₃) : pageAt U mem r [i, j, m, o] = pageEntry mem t₃ o := by
  simp only [pageAt, leaf, h₂, h₁, h₀, Option.bind_some]

theorem bootUser_pageAt (stale : Nat) :
    pageAt userEntries (bootSpace 0x5007 stale).mem 0x1000 [0, 0, 0, 0] = some 0x8007 := by
  obtain ⟨h₂, h₁, h₀, hp⟩ := bootUser_tables stale
  rw [pageAt_chain ((h₂ 0).trans (if_pos rfl)) ((h₁ 0).trans (if_pos rfl))
    ((h₀ 0).trans (if_pos rfl)), hp, if_pos rfl]

theorem bootUser_readAs (stale : Nat) :
    (bootKernel 0x5007 stale 0).readAs 0xffffffff8000c000 0 = some 0 := by
  have hpage : (bootKernel 0x5007 stale 0).userPage 0xffffffff8000c000 (pagePath 0) = some 0x8007 :=
    bootUser_pageAt stale
  rw [readAs_user (by decide), hpage, Option.map_some, show frame 0x8007 = 0x8000 by decide]
  change some (bootWords 0x5007 stale (0x8000 / 8) / 256 ^ _).toUInt8 = _
  rw [bootWords_zero (by simp) (by simp)]
  rfl

/-- A fork with an empty frame for the child's top-level table, and a store of the child. -/
theorem cowRun_eager_cleared : ∃ k',
    ((bootKernel 0x5007 0 0).switch 0xffffffff8000c000).forkSyscall 3 ⟨1, 0⟩ = some k' ∧
    k'.readAs (k'.procs.nextOf 0xffffffff8000c000) 0 = some 0 ∧
    ∃ k₁, UserStore 0 7 (k'.switch (k'.procs.nextOf 0xffffffff8000c000)) k₁ := by
  obtain ⟨k', hk', hfree⟩ := bootUser_fork 0
  have hclear : ClearRoot (bootKernel 0x5007 0 0) 0xffffffff8000c000 := by
    intro i _ _
    have hn := allocatePage_second (bootSpace_freeList 0x5007 0)
    change ¬ Present (entry (bootSpace 0x5007 0).mem _ i)
    rw [show (bootKernel 0x5007 0 0).alloc.allocatePage.2.allocatePage.1 = 21 * 4096 from hn,
      bootSpace_entry]
    by_cases h1 : i.val = 1
    · rw [h1]
      exact not_present_zero
    · rw [bootWords_zero (by simp; omega) (by omega)]
      exact not_present_zero
  have hstart : CowRun ClearRoot [0xffffffff8000c000] (bootKernel 0x5007 0 0) _ _ _ := .start
  have hrun := hstart.fork List.mem_cons_self hclear hk' hfree
  obtain ⟨hread, hstore⟩ := cowRun_eager (bootUser_isolated 0) hrun
  have hE : eagerFork 0xffffffff8000c000 (k'.procs.nextOf 0xffffffff8000c000)
      (bootKernel 0x5007 0 0).readAs (k'.procs.nextOf 0xffffffff8000c000) 0 = some 0 := by
    rw [eagerFork, Function.update_self]
    exact bootUser_readAs 0
  have hv : 0 < 2 ^ 47 := by decide
  refine ⟨k', hk', (hread _ List.mem_cons_self 0 hv).trans hE, ?_⟩
  exact hstore _ List.mem_cons_self 0 hv (by rw [hE]; rfl) hfree 7

theorem userStore_page (hv : v < 2 ^ 47) (he : k.userPage p (pagePath v) = some e)
    (hw : e &&& wBit ≠ 0) : ∃ k', UserStore v b (k.switch p) k' ∧ (∀ r, k'.root r = k.root r) ∧
      k'.mem = Function.update k.mem (frame e + v % 4096) b := by
  have he' : pageAt userEntries (k.switch p).mem (k.switch p).cr3 (pagePath v) = some e := he
  obtain ⟨s', hs'⟩ := writeByte_user hv he' hw b
  obtain ⟨e', he₁, -, heq⟩ := writeByte_inv hv hs'
  obtain rfl : e = e' := Option.some.inj (he'.symm.trans he₁)
  refine ⟨_, .store hs', fun _ ↦ rfl, ?_⟩
  rw [heq]
  rfl

/-- The frame that the child's top-level table is in holds an old entry, for a tree that leads to
the page of the parent. -/
theorem bootUser_forked (hk' : ((bootKernel 0x5007 0x9007 0).switch 0xffffffff8000c000).forkSyscall 3
      ⟨1, 0⟩ = some k') (hfree : k'.alloc.HasFree) :
    k'.procs.nextOf 0xffffffff8000c000 ≠ 0xffffffff8000c000 ∧
      k'.userPage (k'.procs.nextOf 0xffffffff8000c000) [1, 0, 0, 0] = some 0x8007 ∧
      k'.userPage 0xffffffff8000c000 [0, 0, 0, 0] = some (cow 0x8007) ∧
      k'.userTables 0xffffffff8000c000 = {0x1000, 0x5000, 0x6000, 0x7000} ∧
      k'.root 0xffffffff8000c000 = 0x1000 := by
  have hP := List.mem_singleton_self 0xffffffff8000c000
  have hiso := bootUser_isolated 0x9007
  obtain ⟨m, n, free₁, l, taken, free', hf, hsplit, hm, hc, -, hct, hroot⟩ :=
    hiso.forked hP hk' hfree
  obtain ⟨rfl, rfl, -⟩ : 20 = m ∧ 21 = n ∧ _ := by simpa [List.range'] using hf
  have hspace : ForkedSpace 0x2000 0x1000 (21 * 4096) l taken (bootSpace 0x5007 0x9007).mem k'.mem :=
    hm.space
  have hrP : k'.root 0xffffffff8000c000 = 0x1000 := hroot _ hP
  obtain ⟨h₂, h₁, h₀, hpage⟩ := bootUser_tables 0x9007
  refine ⟨fun he ↦ hiso.pcb _ hP (he ▸ hc), ?_, ?_, ?_, hrP⟩
  · have hold : pageEntry (bootSpace 0x5007 0x9007).mem (11 * 4096) 0 = some 0x8007 := by
      rw [pageEntry, bootSpace_entry]
      decide
    have hroot : child userEntries k'.mem 2 (21 * 4096) 1 = some 0x9000 := by
      have he := hspace.stale 1 (by decide) ?_
      · rw [child, he, bootSpace_entry]
        decide
      · have he := bootSpace_entry 0x5007 0x9007 1 1
        rw [bootWords_zero (by simp) (by simp)] at he
        change ¬ Present (entry (bootSpace 0x5007 0x9007).mem (1 * 4096) 1)
        rw [he]
        exact not_present_zero
    -- the pages of the tree are no tables of the parent and are not free
    have hkeep : ∀ t, 8 < t → t < 12 → ∀ i, entry k'.mem (t * 4096) i =
        entry (bootSpace 0x5007 0x9007).mem (t * 4096) i := by
      refine fun t h8 h12 ↦ entry_page (Nat.dvd_mul_left _ _) fun x hx ↦ hspace.bytes x ?_ ?_ ?_
      all_goals rw [hx]
      · rw [(bootSpace_window 0x5007 0x9007).1]
        simp only [Set.mem_insert_iff, Set.mem_singleton_iff]
        omega
      · rw [bootUser_frames]
        simp only [Set.mem_insert_iff, Set.mem_singleton_iff]
        omega
      · rintro ⟨y, hy, he⟩
        have hy' : y ∈ List.range' 20 44 := hsplit ▸ List.mem_append_left free' hy
        have := List.mem_range'_1.mp hy'
        omega
    have hmid : child userEntries k'.mem 1 0x9000 0 = some 0xa000 := by
      rw [child_congr (hkeep 9 (by decide) (by decide)), child, bootSpace_entry]
      decide
    have hlow : child userEntries k'.mem 0 0xa000 0 = some 0xb000 := by
      rw [child_congr (hkeep 10 (by decide) (by decide)), child, bootSpace_entry]
      decide
    rw [Kernel.userPage, hct, pageAt_chain hroot hmid hlow,
      pageEntry_congr (hkeep 11 (by decide) (by decide))]
    exact hold
  · rw [Kernel.userPage, hrP, hspace.pages, bootUser_pageAt]
    rfl
  · rw [Kernel.userTables, hrP, tableFrames, tables_congr fun m t ht ↦ hspace.kept t ht m]
    exact bootUser_frames 0x9007

/-- With an old entry in that frame the child has a writable page more, and writes to the page of
the parent. -/
theorem cowRun_stale : ∃ ps E k,
    Isolated 0x2000 (bootKernel 0x5007 0x9007 0) [0xffffffff8000c000] (List.range' 20 44) ∧
    CowRun (fun _ _ ↦ True) [0xffffffff8000c000] (bootKernel 0x5007 0x9007 0) ps E k ∧
    ∃ p ∈ ps, ∃ v < 2 ^ 47, (E p v).isSome ∧ k.readAs p v ≠ E p v := by
  obtain ⟨k', hk', hfree⟩ := bootUser_fork 0x9007
  obtain ⟨hne, hchild, hparent, htables, hroot⟩ := bootUser_forked hk' hfree
  have hpath : pagePath (2 ^ 39) = [1, 0, 0, 0] := by decide
  rw [← hpath] at hchild
  obtain ⟨k'', hs, hroot', hmem⟩ := userStore_page (b := 7) (by decide) hchild (by decide)
  have hframe : frame 0x8007 + 2 ^ 39 % 4096 = 0x8000 := by decide
  rw [hframe] at hmem
  -- the tables of the parent are in other frames
  have hpage : k''.userPage 0xffffffff8000c000 (pagePath 0) = some (cow 0x8007) := by
    have hsame : SameOn (k'.userTables 0xffffffff8000c000) k'.mem k''.mem := by
      intro x hx
      rw [hmem]
      refine Function.update_of_ne ?_ _ _
      rintro rfl
      rw [htables] at hx
      simp at hx
    rw [Kernel.userPage, hroot', pageAt_congr ?_ hsame]
    · exact hparent
    · have htab : tableFrames userEntries k'.mem (k'.root 0xffffffff8000c000) = _ := htables
      rw [htab]
      rintro t (rfl | rfl | rfl | rfl) <;> decide
  refine ⟨_, _, k'', bootUser_isolated 0x9007,
    .store (.fork .start List.mem_cons_self trivial hk' hfree) List.mem_cons_self (by decide) hs,
    0xffffffff8000c000, List.mem_cons_of_mem _ List.mem_cons_self, 0, by decide, ?_⟩
  rw [eagerStore, Function.update_of_ne hne.symm, eagerFork, Function.update_of_ne hne.symm,
    bootUser_readAs, readAs_user (by decide), hpage, hmem, Option.map_some,
    show frame (cow 0x8007) + 0 % 4096 = 0x8000 by decide, Function.update_self]
  exact ⟨rfl, by decide⟩

end

end Sbunix
