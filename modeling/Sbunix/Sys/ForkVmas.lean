import Sbunix.Sys.Frames

/-!
# The VMAs of a forked process

`forkSyscall` copies each VMA with its `next` pointer and relinks none of the copies but the last,
so the child's list is its first copy followed by the parent's own VMAs.
-/

namespace Sbunix

open Reasoning Kernel

variable {k k' k₁ k₂ : Kernel} {free l : List Nat} {n m : Nat}

/-! ## Pages in the window -/

/-- The addresses that `kmalloc` can give out. -/
def windowOf (l : List Nat) : Set Nat := {a | ∃ n ∈ l, a = kptr (n * 4096)}

theorem kptr_page (h : n < 2 ^ 19) : kptr (n * 4096) = kernBase + n * 4096 :=
  kptr_eq (by omega)

theorem kptr_page_inj (hn : n < 2 ^ 19) (hm : m < 2 ^ 19)
    (h : kptr (n * 4096) = kptr (m * 4096)) : n = m := by
  rw [kptr_page hn, kptr_page hm] at h
  omega

theorem windowOf_mono {l l' : List Nat} (h : l ⊆ l') : windowOf l ⊆ windowOf l' :=
  fun _ ⟨n, hn, ha⟩ ↦ ⟨n, h hn, ha⟩

theorem not_mem_windowOf {l : List Nat} (hl : ∀ x ∈ n :: l, x < 2 ^ 19) (hn : n ∉ l) :
    kptr (n * 4096) ∉ windowOf l := by
  rintro ⟨m, hm, he⟩
  have := kptr_page_inj (hl n List.mem_cons_self) (hl m (List.mem_cons_of_mem n hm)) he
  exact hn (this ▸ hm)

/-! ## One VMA -/

/-- The copy of one VMA: its record, but with a `file` record of its own. -/
inductive VmaCopy (k : Kernel) (p c : Nat) (taken : List Nat) (k' : Kernel) (free' : List Nat) :
    Prop
  | plain (hf : (k.vmas p).file = 0)
      (hv : k'.vmas = Function.update k.vmas c (k.vmas p)) (hk : k'.files = k.files)
  | file (f : Nat) (hf : (k.vmas p).file ≠ 0) (hm : f ∈ windowOf taken) (hn : f ∉ windowOf free')
      (hv : k'.vmas = Function.update k.vmas c { k.vmas p with file := f })
      (hk : k'.files = Function.update k.files f (k.files (k.vmas p).file))

theorem forkNode_spec (mm c : Nat) (flag : Bool) (hf : FreeList k.alloc (n :: free)) :
    (k.forkNode mm c flag).1 = kptr (n * 4096) ∧
    (∃ j, FreeList (k.forkNode mm c flag).2.alloc (free.drop j)) ∧
    (k.forkNode mm c flag).2.procs = k.procs ∧ (k.forkNode mm c flag).2.vmas = k.vmas ∧
    (k.forkNode mm c flag).2.files = k.files ∧
    (k.forkNode mm c flag).2.mms = if c = 0 ∨ flag = true then
      Function.update k.mms mm { k.mms mm with mmap := kptr (n * 4096) } else k.mms := by
  obtain ⟨ha, j, -, hj⟩ := kmalloc_spec hf
  unfold forkNode
  dsimp only
  by_cases hc : c = 0 ∨ flag = true
  · have hflag : (if c = 0 then true else flag) = true := by
      split
      · rfl
      · rename_i h0
        exact hc.resolve_left h0
    rw [if_pos hflag, if_pos hc, ha]
    exact ⟨rfl, ⟨j, hj⟩, rfl, rfl, rfl, rfl⟩
  · have hflag : ¬ (if c = 0 then true else flag) = true := by
      rw [not_or] at hc
      rw [if_neg hc.1]
      exact hc.2
    rw [if_neg hflag, if_neg hc]
    exact ⟨ha, ⟨j, hj⟩, rfl, rfl, rfl, rfl⟩

theorem pops_forkNode (k : Kernel) (mm c : Nat) (flag : Bool) :
    Pops 4 k.toMachine (k.forkNode mm c flag).2.toMachine := by
  have h := pops_kmalloc k.toMachine
  unfold forkNode
  dsimp only
  generalize (if c = 0 then true else flag) = b
  cases b
  · exact h
  · exact h

theorem pops_forkFile (k : Kernel) (p c : Nat) :
    Pops 4 k.toMachine (k.forkFile p c).toMachine := by
  unfold forkFile
  split
  · exact pops_kmalloc k.toMachine
  · exact (Pops.refl _).mono (Nat.zero_le 4)

theorem forkFile_spec {p c : Nat} (hf : FreeList k.alloc free) (hlt : ∀ x ∈ free, x < 2 ^ 19)
    (hpc : p ≠ c) (hfree : (k.forkFile p c).alloc.HasFree) :
    (k.forkFile p c).procs = k.procs ∧ (k.forkFile p c).mms = k.mms ∧
    ∃ j, FreeList (k.forkFile p c).alloc (free.drop j) ∧
      ((k.vmas p).file = 0 ∧ k.forkFile p c = k ∨
        (k.vmas p).file ≠ 0 ∧ ∃ f ∈ windowOf free, f ∉ windowOf (free.drop j) ∧
          (k.forkFile p c).vmas = Function.update k.vmas c { k.vmas c with file := f } ∧
          (k.forkFile p c).files = Function.update k.files f (k.files (k.vmas p).file)) := by
  have hne := (pops_forkFile k p c).ne_nil hf hfree
  unfold forkFile
  by_cases h0 : (k.vmas p).file = 0
  · rw [if_neg (not_not.mpr h0)]
    exact ⟨rfl, rfl, 0, hf, Or.inl ⟨h0, rfl⟩⟩
  · rw [if_pos h0]
    match free, hne with
    | n :: free, _ =>
        obtain ⟨ha, j, -, hj⟩ := kmalloc_spec hf
        refine ⟨rfl, rfl, j + 1, hj, Or.inr ⟨h0, kptr (n * 4096), ⟨n, List.mem_cons_self, rfl⟩, ?_,
          ?_, ?_⟩⟩
        · intro hm
          exact not_mem_windowOf hlt hf.nodup_cons (windowOf_mono (List.drop_subset j free) hm)
        · change Function.update k.vmas c { k.vmas c with file := k.kmalloc.1 } = _
          rw [ha]
        · change Function.update k.files k.kmalloc.1
            (k.files (Function.update k.vmas c { k.vmas c with file := k.kmalloc.1 } p).file) = _
          rw [Function.update_of_ne hpc, ha]

theorem pops_forkVma (k : Kernel) (mm p c : Nat) (flag : Bool) :
    Pops 8 k.toMachine (k.forkVma mm p c flag).2.toMachine := by
  set node := k.forkNode mm c flag with hn
  have h := pops_forkFile (node.2.setVma node.1 (node.2.vmas p)) p node.1
  exact (pops_forkNode k mm c flag).trans h

theorem forkVma_procs (k : Kernel) (mm p c : Nat) (flag : Bool) :
    (k.forkVma mm p c flag).2.procs = k.procs := by
  have hn : (k.forkNode mm c flag).2.procs = k.procs := by
    unfold forkNode
    dsimp only
    generalize (if c = 0 then true else flag) = b
    cases b <;> rfl
  have hf : ∀ k : Kernel, ∀ c, (k.forkFile p c).procs = k.procs := by
    intro k c
    unfold forkFile
    split <;> rfl
  exact (hf _ _).trans hn

theorem forkVma_spec {mm p c : Nat} {flag : Bool} (hf : FreeList k.alloc (n :: free))
    (hlt : ∀ x ∈ n :: free, x < 2 ^ 19) (hp : p ≠ kptr (n * 4096))
    (hfree : (k.forkVma mm p c flag).2.alloc.HasFree) :
    (k.forkVma mm p c flag).1 = kptr (n * 4096) ∧
    (k.forkVma mm p c flag).2.procs = k.procs ∧
    ((k.forkVma mm p c flag).2.mms = if c = 0 ∨ flag = true then
      Function.update k.mms mm { k.mms mm with mmap := kptr (n * 4096) } else k.mms) ∧
    ∃ j, FreeList (k.forkVma mm p c flag).2.alloc (free.drop j) ∧
      VmaCopy k p (kptr (n * 4096)) free (k.forkVma mm p c flag).2 (free.drop j) := by
  obtain ⟨hc, ⟨j, hj⟩, hprocs, hvmas, hfiles, hmms⟩ :=
    forkNode_spec mm c flag hf
  set k₁ := (k.forkNode mm c flag).2 with hk₁
  set k₂ := k₁.setVma (kptr (n * 4096)) (k.vmas p) with hk₂
  have hself : k₂.vmas p = k.vmas p := by
    rw [hk₂, setVma_vmas, hvmas, Function.update_of_ne hp]
  have hk : k.forkVma mm p c flag = (kptr (n * 4096), k₂.forkFile p (kptr (n * 4096))) := by
    unfold forkVma
    simp only [hc, ← hk₁, hvmas, ← hk₂]
  have hlt' : ∀ x ∈ free.drop j, x < 2 ^ 19 := fun x hx ↦
    hlt x (List.mem_cons_of_mem n (List.mem_of_mem_drop hx))
  rw [hk] at hfree ⊢
  obtain ⟨hp', hm', j', hj', hcopy⟩ := forkFile_spec (k := k₂) hj hlt' hp hfree
  refine ⟨rfl, hp'.trans hprocs, hm'.trans hmms, j + j', ?_, ?_⟩
  · rw [← List.drop_drop]
    exact hj'
  · rw [← List.drop_drop]
    -- a VMA without a file, or one whose file is copied too
    rcases hcopy with ⟨h0, he⟩ | ⟨h0, f, hfm, hfn, hv, hfl⟩
    · rw [hself] at h0
      refine .plain h0 ?_ ?_
      · rw [he, hk₂, setVma_vmas, hvmas]
      · rw [he, hk₂, setVma_files, hfiles]
    · rw [hself] at h0 hfl
      refine .file f h0 (windowOf_mono (List.drop_subset j free) hfm) hfn ?_ ?_
      · rw [hv, hk₂, setVma_vmas, hvmas, Function.update_self, Function.update_idem]
      · rw [hfl, hk₂, setVma_files, hfiles]

/-! ## The loop over the parent's VMAs -/

/-- The NULL-terminated list of VMAs at `head`. -/
structure VmaList (k : Kernel) (head : Nat) (l : List Nat) : Prop where
  chain : Chain (fun a ↦ (k.vmas a).next) head l 0
  ne_zero : ∀ a ∈ l, a ≠ 0

theorem VmaList.congr {head : Nat} (h : VmaList k head l)
    (hk : ∀ a ∈ l, (k'.vmas a).next = (k.vmas a).next) : VmaList k' head l :=
  ⟨h.chain.congr hk, h.ne_zero⟩

theorem VmaList.unique {head : Nat} {l' : List Nat} (h : VmaList k head l)
    (h' : VmaList k head l') : l = l' :=
  h.chain.unique h'.chain (fun hm ↦ h.ne_zero 0 hm rfl) fun hm ↦ h'.ne_zero 0 hm rfl

theorem forkVmas_succ {mm fuel p c : Nat} (hp : p ≠ 0) :
    forkVmas mm (fuel + 1) p c k = forkVmas mm fuel ((k.forkVma mm p c false).2.vmas p).next
      (k.forkVma mm p c false).1 (k.forkVma mm p c false).2 := by
  rw [forkVmas, if_neg hp]

/-- What the end of the loop has, and each copy keeps, the whole loop has. -/
theorem forkVmas_induction {R : Nat → Kernel → Kernel → Prop} {mm fuel p c c' : Nat}
    (hend : ∀ fuel k, R (fuel + 1) k k)
    (hcopy : ∀ fuel k k' p c, R fuel (k.forkVma mm p c false).2 k' → R (fuel + 1) k k')
    (h : forkVmas mm fuel p c k = some (c', k')) : R fuel k k' := by
  induction fuel generalizing p c k with
  | zero => cases h
  | succ fuel ih =>
      by_cases hp : p = 0
      · rw [forkVmas, if_pos hp] at h
        obtain ⟨-, rfl⟩ := Prod.mk.inj (Option.some.inj h)
        exact hend fuel k
      · rw [forkVmas_succ hp] at h
        exact hcopy fuel k k' p c (ih h)

theorem pops_forkVmas {mm fuel p c c' : Nat} (h : forkVmas mm fuel p c k = some (c', k')) :
    Pops (8 * fuel) k.toMachine k'.toMachine :=
  forkVmas_induction (R := fun fuel k k' ↦ Pops (8 * fuel) k.toMachine k'.toMachine)
    (fun _ _ ↦ (Pops.refl _).mono (Nat.zero_le _))
    (fun fuel k _ p c hrest ↦ ((pops_forkVma k mm p c false).trans hrest).mono (by omega)) h

theorem forkVmas_procs {mm fuel p c c' : Nat} (h : forkVmas mm fuel p c k = some (c', k')) :
    k'.procs = k.procs :=
  forkVmas_induction (R := fun _ k k' ↦ k'.procs = k.procs) (fun _ _ ↦ rfl)
    (fun _ k _ p c hrest ↦ hrest.trans (forkVma_procs k mm p c false)) h

theorem VmaCopy.vmas_eq {p c a : Nat} {taken free' : List Nat} (h : VmaCopy k p c taken k' free')
    (ha : a ≠ c) : k'.vmas a = k.vmas a := by
  rcases h with ⟨-, hv, -⟩ | ⟨f, -, -, -, hv, -⟩
  · rw [hv, Function.update_of_ne ha]
  · rw [hv, Function.update_of_ne ha]

theorem VmaCopy.files_eq {p c a : Nat} {taken free' : List Nat} (h : VmaCopy k p c taken k' free')
    (ha : a ∉ windowOf taken) : k'.files a = k.files a := by
  rcases h with ⟨-, -, hk⟩ | ⟨f, -, hm, -, -, hk⟩
  · rw [hk]
  · rw [hk, Function.update_of_ne]
    rintro rfl
    exact ha hm

/-- One round of the loop: `p` is copied to page `n`, and the loop goes on from `k₁` with the pages
`free₁` and the VMAs `l` behind `p`. -/
structure VmaRound (k : Kernel) (mm p c n : Nat) (l free : List Nat) (k₁ : Kernel)
    (free₁ : List Nat) : Prop where
  list : VmaList k₁ (k.vmas p).next l
  freeList : FreeList k₁.alloc free₁
  subset : free₁ ⊆ free
  procs : k₁.procs = k.procs
  mms : k₁.mms = if c = 0 then Function.update k.mms mm { k.mms mm with mmap := kptr (n * 4096) }
    else k.mms
  copy : VmaCopy k p (kptr (n * 4096)) free k₁ free₁

theorem VmaRound.vmas {mm p c a : Nat} {free₁ : List Nat} (h : VmaRound k mm p c n l free k₁ free₁)
    (ha : a ∉ windowOf (n :: free)) : k₁.vmas a = k.vmas a :=
  h.copy.vmas_eq fun he ↦ ha ⟨n, List.mem_cons_self, he⟩

theorem forkVmas_round {mm fuel p c c' a : Nat} (h : forkVmas mm fuel p c k = some (c', k'))
    (hl : VmaList k p (a :: l)) (hold : ∀ b ∈ a :: l, b ∉ windowOf free)
    (hf : FreeList k.alloc free) (hlt : ∀ x ∈ free, x < 2 ^ 19) (hfree : k'.alloc.HasFree) :
    ∃ fuel' n rest k₁ free₁, free = n :: rest ∧ VmaRound k mm p c n l rest k₁ free₁ ∧
      forkVmas mm fuel' (k.vmas p).next (kptr (n * 4096)) k₁ = some (c', k') := by
  obtain ⟨rfl, hchain⟩ := hl.chain
  have hp0 : p ≠ 0 := hl.ne_zero p List.mem_cons_self
  have hpf : p ∉ windowOf free := hold p List.mem_cons_self
  cases fuel with
  | zero => cases h
  | succ fuel =>
      rw [forkVmas_succ hp0] at h
      have hm := pops_forkVmas h
      -- a page is left at the end, so one was free for this copy
      match free, ((pops_forkVma k mm p c false).trans hm).ne_nil hf hfree with
      | n :: rest, _ =>
          have hpn : p ≠ kptr (n * 4096) := fun he ↦ hpf ⟨n, List.mem_cons_self, he⟩
          have hmid : (k.forkVma mm p c false).2.alloc.HasFree := by
            obtain ⟨j, -, hj⟩ := pops_forkVma k mm p c false _ hf
            exact hj.hasFree_iff.mpr (hm.ne_nil hj hfree)
          obtain ⟨hc, hprocs, hmms, j, hj, hcopy⟩ := forkVma_spec hf hlt hpn hmid
          have hv : ∀ b ∉ windowOf (n :: rest),
              (k.forkVma mm p c false).2.vmas b = k.vmas b := fun b hb ↦
            hcopy.vmas_eq fun he ↦ hb ⟨n, List.mem_cons_self, he⟩
          rw [hv p hpf, hc] at h
          refine ⟨fuel, n, rest, _, rest.drop j, rfl, ⟨?_, hj, List.drop_subset j rest, hprocs, ?_,
            hcopy⟩, h⟩
          · refine ⟨hchain.congr fun x hx ↦ ?_, fun x hx ↦
              hl.ne_zero x (List.mem_cons_of_mem p hx)⟩
            rw [hv x (hold x (List.mem_cons_of_mem p hx))]
          · rw [hmms]
            simp

theorem forkVmas_nil {mm fuel p c c' : Nat} (h : forkVmas mm fuel p c k = some (c', k'))
    (hl : VmaList k p []) : c' = c ∧ k' = k := by
  obtain rfl : p = 0 := hl.chain
  cases fuel with
  | zero => cases h
  | succ fuel =>
      rw [forkVmas, if_pos rfl] at h
      obtain ⟨rfl, rfl⟩ := Prod.mk.inj (Option.some.inj h)
      exact ⟨rfl, rfl⟩

/-- After its first round the loop writes only to pages it takes. -/
theorem forkVmas_frame {mm fuel p c c' : Nat} (h : forkVmas mm fuel p c k = some (c', k'))
    (hl : VmaList k p l) (hold : ∀ a ∈ l, a ∉ windowOf free) (hc : c ≠ 0)
    (hf : FreeList k.alloc free) (hlt : ∀ x ∈ free, x < 2 ^ 19) (hfree : k'.alloc.HasFree) :
    (∀ a ∉ windowOf free, k'.vmas a = k.vmas a) ∧ (∀ a ∉ windowOf free, k'.files a = k.files a) ∧
      k'.mms = k.mms ∧ k'.procs = k.procs ∧
      (l = [] → c' = c) ∧ (l ≠ [] → c' ∈ windowOf free) := by
  induction l generalizing fuel p c k free with
  | nil =>
      obtain ⟨rfl, rfl⟩ := forkVmas_nil h hl
      exact ⟨fun _ _ ↦ rfl, fun _ _ ↦ rfl, rfl, rfl, fun _ ↦ rfl, fun hn ↦ absurd rfl hn⟩
  | cons a l ih =>
      obtain ⟨fuel', n, rest, k₁, free₁, rfl, hr, h₁⟩ := forkVmas_round h hl hold hf hlt hfree
      have hcons : windowOf rest ⊆ windowOf (n :: rest) :=
        windowOf_mono (List.subset_cons_self n rest)
      have hsub : windowOf free₁ ⊆ windowOf (n :: rest) := fun x hx ↦
        hcons (windowOf_mono hr.subset hx)
      obtain ⟨hv', hf', hm', hp', hnil, hne⟩ := ih h₁ hr.list
        (fun x hx hw ↦ hold x (List.mem_cons_of_mem a hx) (hsub hw)) (kptr_ne_zero _) hr.freeList
        (fun x hx ↦ hlt x (List.mem_cons_of_mem n (hr.subset hx)))
      refine ⟨fun x hx ↦ ?_, fun x hx ↦ ?_, ?_, hp'.trans hr.procs, ?_, fun _ ↦ ?_⟩
      · exact (hv' x fun hw ↦ hx (hsub hw)).trans (hr.vmas hx)
      · exact (hf' x fun hw ↦ hx (hsub hw)).trans (hr.copy.files_eq fun hw ↦ hx (hcons hw))
      · rw [hm', hr.mms, if_neg hc]
      · rintro ⟨⟩
      · by_cases hn : l = []
        · rw [hnil hn]
          exact ⟨n, List.mem_cons_self, rfl⟩
        · exact hsub (hne hn)

/-- The copy of the first VMA of the list `p :: l`: it keeps the parent's link. -/
structure FirstCopy (k : Kernel) (p c : Nat) (free : List Nat) (k' : Kernel) : Prop where
  mem : c ∈ windowOf free
  record : { k'.vmas c with file := 0 } = { k.vmas p with file := 0 }
  file : (k.vmas p).file = 0 ∧ (k'.vmas c).file = 0 ∨ (k.vmas p).file ≠ 0 ∧
    (k'.vmas c).file ∈ windowOf free ∧
    k'.files (k'.vmas c).file = k.files (k.vmas p).file

theorem VmaCopy.firstCopy {p c : Nat} {taken free' : List Nat}
    (h : VmaCopy k p c taken k₁ free') (hm : c ∈ windowOf free) (hsub : taken ⊆ free)
    (hv₂ : k₂.vmas c = k₁.vmas c) (hf₂ : ∀ a ∉ windowOf free', k₂.files a = k₁.files a) :
    FirstCopy k p c free k₂ := by
  rcases h with ⟨hf, hv, -⟩ | ⟨f, hf, hfm, hfn, hv, hk⟩
  · have hc : k₂.vmas c = k.vmas p := by rw [hv₂, hv, Function.update_self]
    exact ⟨hm, by rw [hc], .inl ⟨hf, by rw [hc, hf]⟩⟩
  · have hc : k₂.vmas c = { k.vmas p with file := f } := by rw [hv₂, hv, Function.update_self]
    refine ⟨hm, by rw [hc], .inr ⟨hf, ?_, ?_⟩⟩
    · rw [hc]
      exact windowOf_mono hsub hfm
    · rw [hc, hf₂ f hfn, hk, Function.update_self]

/-- What the loop leaves: the copy of the first VMA hangs under `mm`, and nothing that was there
before is written but `mm`. -/
theorem forkVmas_spec {mm fuel p c' : Nat} (h : forkVmas mm fuel p 0 k = some (c', k'))
    (hl : VmaList k p l) (hold : ∀ a ∈ l, a ∉ windowOf free)
    (hf : FreeList k.alloc free) (hlt : ∀ x ∈ free, x < 2 ^ 19) (hfree : k'.alloc.HasFree) :
    (∀ a ∉ windowOf free, k'.vmas a = k.vmas a) ∧ (∀ a ∉ windowOf free, k'.files a = k.files a) ∧
      (∀ a, a ≠ mm → k'.mms a = k.mms a) ∧ k'.procs = k.procs ∧
      (l = [] → c' = 0 ∧ k' = k) ∧
      (l ≠ [] → ∃ c, (k'.mms mm).mmap = c ∧ FirstCopy k p c free k' ∧ c' ∈ windowOf free ∧
        (l.tail = [] ↔ c' = c)) := by
  cases l with
  | nil =>
      obtain ⟨rfl, rfl⟩ := forkVmas_nil h hl
      exact ⟨fun _ _ ↦ rfl, fun _ _ ↦ rfl, fun _ _ ↦ rfl, rfl, fun _ ↦ ⟨rfl, rfl⟩,
        fun hn ↦ absurd rfl hn⟩
  | cons a l =>
      obtain ⟨fuel', n, rest, k₁, free₁, rfl, hr, h₁⟩ := forkVmas_round h hl hold hf hlt hfree
      have hcons : windowOf rest ⊆ windowOf (n :: rest) :=
        windowOf_mono (List.subset_cons_self n rest)
      have hsub : windowOf free₁ ⊆ windowOf (n :: rest) := fun x hx ↦
        hcons (windowOf_mono hr.subset hx)
      have hnew : kptr (n * 4096) ∉ windowOf free₁ := fun hw ↦
        not_mem_windowOf hlt hf.nodup_cons (windowOf_mono hr.subset hw)
      obtain ⟨hv', hf', hm', hp', hnil, hne⟩ := forkVmas_frame h₁ hr.list
        (fun x hx hw ↦ hold x (List.mem_cons_of_mem a hx) (hsub hw)) (kptr_ne_zero _) hr.freeList
        (fun x hx ↦ hlt x (List.mem_cons_of_mem n (hr.subset hx))) hfree
      refine ⟨fun x hx ↦ ?_, fun x hx ↦ ?_, fun x hx ↦ ?_, hp'.trans hr.procs,
        (absurd · (List.cons_ne_nil a l)), fun _ ↦ ⟨kptr (n * 4096), ?_, ?_, ?_, ?_⟩⟩
      · exact (hv' x fun hw ↦ hx (hsub hw)).trans (hr.vmas hx)
      · exact (hf' x fun hw ↦ hx (hsub hw)).trans (hr.copy.files_eq fun hw ↦ hx (hcons hw))
      · rw [hm', hr.mms, if_pos rfl, Function.update_of_ne hx]
      · rw [hm', hr.mms, if_pos rfl, Function.update_self]
      · exact hr.copy.firstCopy ⟨n, List.mem_cons_self, rfl⟩ (List.subset_cons_self n rest)
          (hv' _ hnew) hf'
      · by_cases hn : l = []
        · rw [hnil hn]
          exact ⟨n, List.mem_cons_self, rfl⟩
        · exact hsub (hne hn)
      · -- a second copy is in another page than the first
        refine ⟨hnil, fun he ↦ by_contra fun hn ↦ hnew ?_⟩
        rw [← he]
        exact hne hn

/-! ## The loop ends -/

/-- Every page that `kmalloc` hands out is in the window of the free list, or it is page 0. -/
theorem kmalloc_mem (hf : FreeList k.alloc free) : k.kmalloc.1 ∈ windowOf (0 :: free) := by
  cases free with
  | nil =>
      refine ⟨0, List.mem_cons_self, ?_⟩
      change kptr k.alloc.allocatePage.1 = _
      rw [allocatePage_nil hf, Nat.zero_mul]
  | cons n free => exact ⟨n, by simp, (kmalloc_spec hf).1⟩

theorem forkFile_vmas {p c a : Nat} (ha : a ≠ c) : (k.forkFile p c).vmas a = k.vmas a := by
  unfold forkFile
  split
  · exact Function.update_of_ne ha _ _
  · rfl

theorem forkVma_vmas {mm p c a : Nat} {flag : Bool} (hf : FreeList k.alloc free)
    (ha : a ∉ windowOf (0 :: free)) : (k.forkVma mm p c flag).2.vmas a = k.vmas a := by
  have hc : (k.forkNode mm c flag).1 = k.kmalloc.1 := rfl
  have hne : a ≠ (k.forkNode mm c flag).1 := fun he ↦ ha (by rw [he, hc]; exact kmalloc_mem hf)
  have hv : (k.forkNode mm c flag).2.vmas = k.vmas := by
    unfold forkNode
    dsimp only
    generalize (if c = 0 then true else flag) = b
    cases b <;> rfl
  have hk : (k.forkVma mm p c flag).2 = ((k.forkNode mm c flag).2.setVma (k.forkNode mm c flag).1
      ((k.forkNode mm c flag).2.vmas p)).forkFile p (k.forkNode mm c flag).1 := rfl
  rw [hk, forkFile_vmas hne, setVma_vmas, Function.update_of_ne hne, hv]

/-- The loop walks the parent's list, which it does not write to. -/
theorem forkVmas_total {fuel p : Nat} (mm c : Nat) (hl : VmaList k p l)
    (hold : ∀ a ∈ l, a ∉ windowOf (0 :: free)) (hf : FreeList k.alloc free)
    (hfuel : l.length < fuel) : ∃ r, forkVmas mm fuel p c k = some r := by
  induction l generalizing fuel p c k free with
  | nil =>
      obtain rfl : p = 0 := hl.chain
      cases fuel with
      | zero => exact absurd hfuel (Nat.not_lt_zero _)
      | succ fuel => exact ⟨_, by rw [forkVmas, if_pos rfl]⟩
  | cons a l ih =>
      obtain ⟨rfl, hchain⟩ := hl.chain
      cases fuel with
      | zero => exact absurd hfuel (Nat.not_lt_zero _)
      | succ fuel =>
          have hv : ∀ a ∈ p :: l, (k.forkVma mm p c false).2.vmas a = k.vmas a := fun a ha ↦
            forkVma_vmas hf (hold a ha)
          rw [forkVmas_succ (hl.ne_zero p List.mem_cons_self), hv p List.mem_cons_self]
          obtain ⟨j, -, hj⟩ := pops_forkVma k mm p c false free hf
          refine ih _ ⟨hchain.congr fun x hx ↦ ?_, fun x hx ↦ hl.ne_zero x (List.mem_cons_of_mem p hx)⟩
            (fun x hx hw ↦ hold x (List.mem_cons_of_mem p hx) (windowOf_mono ?_ hw)) hj
            (Nat.lt_of_succ_lt_succ hfuel)
          · rw [hv x (List.mem_cons_of_mem p hx)]
          · exact List.cons_subset_cons 0 (List.drop_subset j free)

end Sbunix
