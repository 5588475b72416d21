import Sbunix.Sys.ForkSpace
import Mathlib.Logic.Relation
import Mathlib.Data.List.Forall2

/-!
# Page faults after a fork

A page fault of one process writes to the VMAs on that process's own list only.  So the VMAs of
parent and child are kept apart by fork exactly when the copies are linked to copies.
-/

namespace Sbunix

open Reasoning Kernel

variable {k k' k₁ k₂ : Kernel} {free l l' : List Nat} {p q parent child fuel : Nat}

/-- Process `p` is current, and the machine is in state `s`. -/
def Kernel.onProcess (k : Kernel) (p : Nat) (s : Machine) : Kernel :=
  { k.onMachine s with procs := { k.procs with current := p } }

def Kernel.FaultResult.kernel : FaultResult → Kernel
  | .resume k => k
  | .halt k => k

/-- A page fault of process `p`, whatever the machine has done since the last one. -/
def FaultStep (p : Nat) (k k' : Kernel) : Prop :=
  ∃ s fuel errCode faultAddr r,
    (k.onProcess p s).pageFault fuel errCode faultAddr = some r ∧ r.kernel = k'

/-- Page faults of the two processes, in any order. -/
abbrev FaultRun (p q : Nat) : Kernel → Kernel → Prop :=
  Relation.ReflTransGen fun k k' ↦ FaultStep p k k' ∨ FaultStep q k k'

/-- The copy of a VMA: another record with the same fields, and the same file in another record. -/
structure SameVma (k : Kernel) (a b : Nat) : Prop where
  start : (k.vmas b).start = (k.vmas a).start
  vmEnd : (k.vmas b).vmEnd = (k.vmas a).vmEnd
  flag : (k.vmas b).flag = (k.vmas a).flag
  type : (k.vmas b).type = (k.vmas a).type
  file : (k.vmas b).file = 0 ↔ (k.vmas a).file = 0
  contents : (k.vmas a).file ≠ 0 → k.files (k.vmas b).file = k.files (k.vmas a).file

/-- The lists `l` and `l'` have no VMA and no `file` record in common. -/
def ApartVmas (k : Kernel) (l l' : List Nat) : Prop :=
  ∀ a ∈ l, ∀ b ∈ l', a ≠ b ∧ ((k.vmas a).file ≠ 0 → (k.vmas b).file ≠ (k.vmas a).file)

/-- The child has a copy of its own of the parent's VMAs `l`, and page faults of one process leave
the VMAs of the other alone. -/
structure VmasCopied (k : Kernel) (parent child : Nat) (l : List Nat) : Prop where
  copy : ∃ l', VmaList k (k.vmaHead child) l' ∧ List.Forall₂ (SameVma k) l l' ∧ ApartVmas k l l'
  faults : ∀ k₁ k₂ p q l, FaultRun parent child k k₁ → FaultStep p k₁ k₂ →
    p = parent ∧ q = child ∨ p = child ∧ q = parent →
    VmaList k₁ (k₁.vmaHead q) l → ∀ a ∈ l, k₂.vmas a = k₁.vmas a

/-! ## What a fault writes -/

/-- Nothing but the ends of the VMAs `l` differs. -/
structure EndsOnly (l : List Nat) (k k' : Kernel) : Prop where
  pcbs : k'.procs.pcbs = k.procs.pcbs
  mms : k'.mms = k.mms
  next : ∀ a, (k'.vmas a).next = (k.vmas a).next
  other : ∀ a ∉ l, k'.vmas a = k.vmas a

theorem EndsOnly.refl (l : List Nat) (k : Kernel) : EndsOnly l k k :=
  ⟨rfl, rfl, fun _ ↦ rfl, fun _ _ ↦ rfl⟩

theorem EndsOnly.setVmEnd {a vmEnd : Nat} (s : Machine) (ha : a ∈ l) :
    EndsOnly l k ((k.onMachine s).setVmEnd a vmEnd) := by
  refine ⟨rfl, rfl, fun x ↦ ?_, fun x hx ↦ ?_⟩
  · by_cases hxa : x = a
    · subst hxa
      rw [Kernel.setVmEnd, setVma_vmas, Function.update_self, onMachine_vmas]
    · rw [Kernel.setVmEnd, setVma_vmas, Function.update_of_ne hxa, onMachine_vmas]
  · have hxa : x ≠ a := fun he ↦ hx (he ▸ ha)
    rw [Kernel.setVmEnd, setVma_vmas, Function.update_of_ne hxa, onMachine_vmas]

/-- The search for the VMA of a fault changes the end of the one it finds. -/
theorem faultVmas_spec {addr v : Nat} {b : Bool} (hl : VmaList k v l) (hsub : ∀ a ∈ l, a ∈ l')
    (h : faultVmas addr fuel v k = some (k', b)) : EndsOnly l' k k' := by
  induction l generalizing fuel v with
  | nil =>
      obtain rfl : v = 0 := hl.chain
      cases fuel with
      | zero => cases h
      | succ fuel =>
          rw [faultVmas, if_pos rfl] at h
          obtain ⟨rfl, -⟩ := Prod.mk.inj (Option.some.inj h)
          exact .refl l' k
  | cons a l ih =>
      obtain ⟨rfl, hchain⟩ := hl.chain
      have hv : v ∈ l' := hsub v List.mem_cons_self
      cases fuel with
      | zero => cases h
      | succ fuel =>
          rw [faultVmas, if_neg (hl.ne_zero v List.mem_cons_self)] at h
          dsimp only at h
          split at h
          · rw [Option.map_eq_some_iff] at h
            obtain ⟨vmEnd, -, he⟩ := h
            obtain ⟨rfl, -⟩ := Prod.mk.inj he
            exact .setVmEnd _ hv
          · split at h
            · obtain ⟨rfl, -⟩ := Prod.mk.inj (Option.some.inj h)
              exact .setVmEnd _ hv
            · exact ih ⟨hchain, fun x hx ↦ hl.ne_zero x (List.mem_cons_of_mem v hx)⟩
                (fun x hx ↦ hsub x (List.mem_cons_of_mem v hx)) h

theorem pageFault_endsOnly {errCode addr : Nat} {r : FaultResult}
    (hl : VmaList k (k.vmaHead k.procs.current) l)
    (h : k.pageFault fuel errCode addr = some r) : EndsOnly l k r.kernel := by
  rcases pageFault_cases h with ⟨s, rfl⟩ | ⟨k', found, hk', hr⟩
  · exact ⟨rfl, rfl, fun _ ↦ rfl, fun _ _ ↦ rfl⟩
  · have he := faultVmas_spec hl (fun _ ha ↦ ha) hk'
    rcases hr with rfl | rfl
    · exact he
    · exact he

theorem FaultStep.endsOnly (h : FaultStep p k k') (hl : VmaList k (k.vmaHead p) l) :
    EndsOnly l k k' := by
  obtain ⟨s, fuel, errCode, addr, r, hr, rfl⟩ := h
  have he := pageFault_endsOnly (k := k.onProcess p s) ⟨hl.chain, hl.ne_zero⟩ hr
  exact ⟨he.pcbs, he.mms, he.next, he.other⟩

theorem EndsOnly.vmaHead (h : EndsOnly l k k') (p : Nat) : k'.vmaHead p = k.vmaHead p := by
  rw [Kernel.vmaHead, Kernel.vmaHead, h.pcbs, h.mms]

/-- Faults of two processes whose lists are apart. -/
theorem FaultRun.lists (h : FaultRun p q k k') (hp : VmaList k (k.vmaHead p) l)
    (hq : VmaList k (k.vmaHead q) l') :
    VmaList k' (k'.vmaHead p) l ∧ VmaList k' (k'.vmaHead q) l' := by
  induction h with
  | refl => exact ⟨hp, hq⟩
  | tail _ hstep ih =>
      obtain ⟨hp, hq⟩ := ih
      obtain ⟨_, he⟩ : ∃ m, EndsOnly m _ _ :=
        hstep.elim (fun h ↦ ⟨l, h.endsOnly hp⟩) fun h ↦ ⟨l', h.endsOnly hq⟩
      rw [he.vmaHead, he.vmaHead]
      exact ⟨hp.congr fun a _ ↦ he.next a, hq.congr fun a _ ↦ he.next a⟩

theorem VmasCopied.of_copy (l' : List Nat) (hp : VmaList k (k.vmaHead parent) l)
    (hc : VmaList k (k.vmaHead child) l') (hsame : List.Forall₂ (SameVma k) l l')
    (hapart : ApartVmas k l l') : VmasCopied k parent child l := by
  refine ⟨⟨l', hc, hsame, hapart⟩, fun k₁ k₂ p q m hrun hstep hpq hm a ha ↦ ?_⟩
  obtain ⟨hp, hc⟩ := hrun.lists hp hc
  rcases hpq with ⟨rfl, rfl⟩ | ⟨rfl, rfl⟩
  · rw [hm.unique hc] at ha
    exact (hstep.endsOnly hp).other a fun hal ↦ (hapart a hal a ha).1 rfl
  · rw [hm.unique hp] at ha
    exact (hstep.endsOnly hc).other a fun hal ↦ (hapart a ha a hal).1 rfl

/-! ## The copies of `forkSyscall` -/

section
variable {c : Nat}

theorem FirstCopy.next (h : FirstCopy k p c free k₁) : (k₁.vmas c).next = (k.vmas p).next := by
  have he := congrArg Vma.next h.record
  exact he

theorem FirstCopy.sameVma (h : FirstCopy k p c free k₁) (hp : k'.vmas p = k.vmas p)
    (hv : { k'.vmas c with next := 0 } = { k₁.vmas c with next := 0 })
    (hf : k'.files = k₁.files)
    (hfp : (k.vmas p).file ≠ 0 → k'.files (k.vmas p).file = k.files (k.vmas p).file) :
    SameVma k' p c := by
  have hfile : (k'.vmas c).file = (k₁.vmas c).file := by
    have he := congrArg Vma.file hv
    exact he
  refine ⟨?_, ?_, ?_, ?_, ?_, ?_⟩
  · exact (congrArg Vma.start hv).trans ((congrArg Vma.start h.record).trans (by rw [hp]))
  · exact (congrArg Vma.vmEnd hv).trans ((congrArg Vma.vmEnd h.record).trans (by rw [hp]))
  · exact (congrArg Vma.flag hv).trans ((congrArg Vma.flag h.record).trans (by rw [hp]))
  · exact (congrArg Vma.type hv).trans ((congrArg Vma.type h.record).trans (by rw [hp]))
  · rw [hp, hfile]
    rcases h.file with ⟨h0, h0'⟩ | ⟨h0, hm, -⟩
    · exact ⟨fun _ ↦ h0, fun _ ↦ h0'⟩
    · refine ⟨fun he ↦ ?_, fun he ↦ absurd he h0⟩
      obtain ⟨n, -, hn⟩ := hm
      exact absurd (hn.symm.trans he) (kptr_ne_zero _)
  · rw [hp, hfile]
    intro hne
    rcases h.file with ⟨h0, -⟩ | ⟨h0, -, he⟩
    · exact absurd h0 hne
    · rw [hfp h0, hf, he]

end

theorem Forked.copied_iff (h : ForkReady k free l) (hf : Forked k free l k' child) :
    VmasCopied k' k.procs.current child l ↔ l.length ≤ 1 := by
  have hold : ∀ a ∈ l, a ∉ windowOf free := fun a ha hw ↦
    h.vma a ha (windowOf_mono (List.subset_cons_self 0 free) hw)
  have hl : VmaList k' (k'.vmaHead k.procs.current) l := by
    rw [hf.parent]
    exact h.vmas.congr fun a ha ↦ by rw [hf.vmas a (hold a ha)]
  match l with
  | [] =>
      refine ⟨fun _ ↦ Nat.zero_le 1, fun _ ↦ .of_copy [] hl ⟨hf.nil rfl, ?_⟩ .nil ?_⟩
      · intro a ha
        cases ha
      · intro a ha
        cases ha
  | [p] =>
      obtain ⟨k₁, hfirst, hfiles, hv⟩ := hf.cons p [] rfl
      set c := k'.vmaHead child with hc
      rw [if_pos rfl] at hv
      have hp : k'.vmas p = k.vmas p := hf.vmas p (hold p List.mem_cons_self)
      have hcp : p ≠ c := fun he ↦ hold p List.mem_cons_self (he ▸ hfirst.mem)
      have hc0 : c ≠ 0 := by
        obtain ⟨n, -, hn⟩ := hfirst.mem
        rw [hn]
        exact kptr_ne_zero _
      refine ⟨fun _ ↦ Nat.le_refl 1, fun _ ↦ .of_copy [c] hl ?_ ?_ ?_⟩
      · refine ⟨⟨rfl, ?_⟩, fun a ha ↦ by rwa [List.mem_singleton.mp ha]⟩
        exact congrArg Vma.next hv
      · refine .cons (hfirst.sameVma hp ?_ hfiles ?_) .nil
        · rw [hv]
        · intro h0
          exact hf.files _ fun hw ↦ h.file p List.mem_cons_self h0
            (windowOf_mono (List.subset_cons_self 0 free) hw)
      · intro a ha b hb
        rw [List.mem_singleton] at ha hb
        rw [ha, hb, hp, hv]
        refine ⟨hcp, fun h0 he ↦ ?_⟩
        rcases hfirst.file with ⟨hz, -⟩ | ⟨-, hm, -⟩
        · exact h0 hz
        · exact h.file p List.mem_cons_self h0
            (windowOf_mono (List.subset_cons_self 0 free) (he ▸ hm))
  | p :: q :: t =>
      obtain ⟨k₁, hfirst, -, hv⟩ := hf.cons p (q :: t) rfl
      set c := k'.vmaHead child with hc
      rw [if_neg (List.cons_ne_nil q t)] at hv
      have hc0 : c ≠ 0 := by
        obtain ⟨n, -, hn⟩ := hfirst.mem
        rw [hn]
        exact kptr_ne_zero _
      refine ⟨fun hcopied ↦ ?_, fun hlen ↦ by simp at hlen⟩
      obtain ⟨l', hl', -, hapart⟩ := hcopied.copy
      -- the first copy leads to the second VMA of the parent
      have hchild : VmaList k' c (c :: q :: t) := by
        obtain ⟨hhead, hchain⟩ := hl.chain
        refine ⟨⟨rfl, ?_⟩, fun a ha ↦ ?_⟩
        · have hcn : (k'.vmas c).next = (k'.vmas p).next := by
            rw [hf.vmas p (hold p List.mem_cons_self), ← hfirst.next]
            exact congrArg Vma.next hv
          change Chain _ (k'.vmas c).next _ _
          rw [hcn]
          exact hchain
        · rcases List.mem_cons.mp ha with rfl | ha
          · exact hc0
          · exact hl.ne_zero a (List.mem_cons_of_mem p ha)
      rw [hl'.unique hchild] at hapart
      exact absurd rfl (hapart q (by simp) q (by simp)).1

theorem Forked.nextOf (hf : Forked k free l k' child) :
    k'.procs.nextOf k.procs.current = child := by
  obtain ⟨a, rfl, hprocs⟩ := hf.procs
  rw [hprocs, Procs.forkSyscall_nextOf hf.fresh, insertAfter_cur hf.fresh.symm]

/-- The VMAs of a forked process are a copy of its parent's if and only if there is one at most: each
further copy is left out of the child's list, which goes on with the parent's own second VMA. -/
theorem forkSyscall_vmas (h : ForkReady k free l) (hfuel : l.length < fuel) (regs : ForkRegs) :
    ∃ k', k.forkSyscall fuel regs = some k' ∧ (k'.alloc.HasFree →
      (VmasCopied k' k.procs.current (k'.procs.nextOf k.procs.current) l ↔ l.length ≤ 1)) := by
  obtain ⟨k', child, hk', hf⟩ := forkSyscall_spec h hfuel regs
  refine ⟨k', hk', fun hfree ↦ ?_⟩
  rw [(hf hfree).nextOf]
  exact (hf hfree).copied_iff h

/-! A parent with one VMA, and one with two. -/

theorem forkSyscall_vmas_one :
    ∃ k', (bootKernel 0 0 0xffffffff8000f000).forkSyscall 3 ⟨1, 0⟩ = some k' ∧
      VmasCopied k' 0xffffffff8000c000 (k'.procs.nextOf 0xffffffff8000c000)
        [0xffffffff8000f000] := by
  have hl : VmaList (bootKernel 0 0 0xffffffff8000f000) 0xffffffff8000f000 [0xffffffff8000f000] :=
    ⟨⟨rfl, rfl⟩, by simp⟩
  have hfuel : [0xffffffff8000f000].length < 3 := by decide
  obtain ⟨k', hk', hiff⟩ := forkSyscall_vmas (bootKernel_forkReady hl (by simp)) hfuel ⟨1, 0⟩
  exact ⟨k', hk', (hiff (bootKernel_hasFree hk')).mpr (by decide)⟩

/-- With two VMAs, the child's list goes on with the parent's second. -/
theorem forkSyscall_vmas_two :
    ∃ k', (bootKernel 0 0 0xffffffff8000e000).forkSyscall 3 ⟨1, 0⟩ = some k' ∧
      ¬ VmasCopied k' 0xffffffff8000c000 (k'.procs.nextOf 0xffffffff8000c000)
        [0xffffffff8000e000, 0xffffffff8000f000] := by
  have hl : VmaList (bootKernel 0 0 0xffffffff8000e000) 0xffffffff8000e000
      [0xffffffff8000e000, 0xffffffff8000f000] := ⟨⟨rfl, rfl, rfl⟩, by simp⟩
  have hready := bootKernel_forkReady hl (by simp)
  have hfuel : [0xffffffff8000e000, 0xffffffff8000f000].length < 3 := by decide
  obtain ⟨k', child, hk', hf⟩ := forkSyscall_spec hready hfuel ⟨1, 0⟩
  have hforked := hf (bootKernel_hasFree hk')
  have hn : k'.procs.nextOf 0xffffffff8000c000 = child := hforked.nextOf
  refine ⟨k', hk', fun hcopied ↦ ?_⟩
  rw [hn] at hcopied
  exact absurd ((hforked.copied_iff hready).mp hcopied) (by decide)

end Sbunix
