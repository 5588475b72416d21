import Sbunix.Sys.ExecRun

/-!
# What code of the kernel keeps

The calls read and write user memory byte by byte, with page faults in between.  A relation that
holds across a fault and across a store holds across all of them.
-/

namespace Sbunix

open Kernel KernelM

variable {R : Kernel → Kernel → Prop} {k k₁ k' : Kernel}

/-- The code relates the state before it to the one after it. -/
def KernelM.Within {α : Type} (R : Kernel → Kernel → Prop) (c : KernelM α) : Prop :=
  ∀ k y k', c k = some (.done y k') → R k k'

/-- The relation holds across page faults and stores, and from end to end. -/
structure Steady (R : Kernel → Kernel → Prop) : Prop where
  refl : ∀ k, R k k
  trans : ∀ {k k₁ k'}, R k k₁ → R k₁ k' → R k k'
  fault : ∀ {k k' fuel errCode v}, k.pageFault fuel errCode v = some (.resume k') → R k k'
  store : ∀ {k : Kernel} {s v b}, k.writeByte v b = some s → R k (k.onMachine s)

namespace Steady

variable (h : Steady R)
include h

section
variable {α β : Type} {c : KernelM α} {f : α → KernelM β}

theorem bind (hc : Within R c) (hf : ∀ y, Within R (f y)) : Within R (c >>= f) := by
  intro k y k' hrun
  obtain ⟨z, k₁, h₁, h₂⟩ := bind_done.mp hrun
  exact h.trans (hc k z k₁ h₁) (hf z k₁ y k' h₂)

theorem pure (y : α) : Within R (Pure.pure y : KernelM α) := by
  intro k z k' hrun
  obtain ⟨-, rfl⟩ := pure_done.mp hrun
  exact h.refl k'

theorem read (g : Kernel → α) : Within R (KernelM.read g) := by
  intro k z k' hrun
  obtain ⟨-, rfl⟩ := read_done.mp hrun
  exact h.refl k'

theorem ask (g : Kernel → Option α) : Within R (KernelM.ask g) := by
  intro k z k' hrun
  obtain ⟨-, rfl⟩ := ask_done.mp hrun
  exact h.refl k'

end

theorem faulting (fuel errCode v : Nat) : Within R (KernelM.fault fuel errCode v) := by
  intro k y k' hrun
  obtain ⟨r, hr, he⟩ := Option.map_eq_some_iff.mp hrun
  cases r with
  | resume k₁ =>
      obtain ⟨-, rfl⟩ := Outcome.done.inj he
      exact h.fault hr
  | halt k₁ => cases he

theorem loadByte (fuel v n : Nat) : Within R (KernelM.loadByte fuel v n) := by
  induction n with
  | zero =>
      intro k y k' hrun
      cases hrun
  | succ n ih =>
      intro k y k' hrun
      rw [KernelM.loadByte] at hrun
      dsimp only at hrun
      split at hrun
      · obtain ⟨-, rfl⟩ := Outcome.done.inj (Option.some.inj hrun)
        exact h.refl k
      · exact h.bind (h.faulting fuel 0 v) (fun _ ↦ ih) k y k' hrun

theorem storeByte (fuel v : Nat) (b : UInt8) (n : Nat) :
    Within R (KernelM.storeByte fuel v b n) := by
  induction n with
  | zero =>
      intro k y k' hrun
      cases hrun
  | succ n ih =>
      intro k y k' hrun
      rw [KernelM.storeByte] at hrun
      dsimp only at hrun
      split at hrun
      · rename_i s hs
        obtain ⟨-, rfl⟩ := Outcome.done.inj (Option.some.inj hrun)
        exact h.store hs
      · exact h.bind (h.faulting fuel _ v) (fun _ ↦ ih) k y k' hrun

theorem loadBytes (fuel v n : Nat) : Within R (KernelM.loadBytes fuel v n) := by
  induction n generalizing v with
  | zero => exact h.pure 0
  | succ n ih =>
      exact h.bind (h.loadByte fuel _ fuel) fun b ↦ h.bind (ih (v + 1)) fun r ↦ h.pure _

theorem storeBytes (fuel v x n : Nat) : Within R (KernelM.storeBytes fuel v x n) := by
  induction n generalizing v x with
  | zero => exact h.pure ()
  | succ n ih => exact h.bind (h.storeByte fuel _ _ fuel) fun _ ↦ ih (v + 1) (x / 256)

theorem loadString (fuel v n : Nat) : Within R (KernelM.loadString fuel v n) := by
  induction n generalizing v with
  | zero =>
      intro k y k' hrun
      cases hrun
  | succ n ih =>
      refine h.bind (h.loadByte fuel _ fuel) fun b ↦ ?_
      split
      · exact h.pure []
      · exact h.bind (ih (v + 1)) fun s ↦ h.pure _

theorem storeString (fuel v : Nat) (s : CString) : Within R (KernelM.storeString fuel v s) := by
  induction s generalizing v with
  | nil => exact h.storeByte fuel _ 0 fuel
  | cons b s ih => exact h.bind (h.storeByte fuel _ b fuel) fun _ ↦ ih (v + 1)

theorem copyArgs (fuel argv n a : Nat) (u : UserStack) :
    Within R (Sbunix.copyArgs fuel argv n a u) := by
  induction n generalizing a u with
  | zero =>
      intro k y k' hrun
      cases hrun
  | succ n ih =>
      refine h.bind (h.loadBytes fuel _ 8) fun p ↦ h.bind (h.loadString fuel p fuel) fun s ↦ ?_
      split
      · exact h.bind (h.loadBytes fuel _ 8) fun p ↦ h.bind (h.loadString fuel p fuel) fun s ↦
          h.bind (h.ask _) fun u ↦ ih (a + 1) u
      · exact h.pure _

theorem execArgs (fuel argv : Nat) (u : UserStack) : Within R (Sbunix.execArgs fuel argv u) := by
  unfold Sbunix.execArgs
  split
  · exact h.copyArgs fuel argv fuel 1 u
  · exact h.pure _

theorem isElf (fuel ehdr : Nat) : Within R (Sbunix.isElf fuel ehdr) := by
  refine h.bind (h.loadByte fuel _ fuel) fun c₁ ↦ ?_
  split
  · refine h.bind (h.loadByte fuel _ fuel) fun c₂ ↦ ?_
    split
    · exact h.bind (h.loadByte fuel _ fuel) fun c₃ ↦ h.pure _
    · exact h.pure _
  · exact h.pure _

end Steady

/-! ## Loading a program -/

theorem within_call {α : Type} {g : Kernel → α × Kernel} (hg : ∀ k, R k (g k).2) :
    Within R (call g) := by
  intro k z k' hrun
  obtain ⟨-, rfl⟩ := call_done.mp hrun
  exact hg k

theorem within_modify {g : Kernel → Kernel} (hg : ∀ k, R k (g k)) : Within R (modify g) := by
  intro k z k' hrun
  obtain rfl := modify_done.mp hrun
  exact hg k

/-- The relation holds across the other steps of `execLoad` too. -/
structure SteadyLoad (R : Kernel → Kernel → Prop) : Prop extends Steady R where
  loadCR3 : ∀ (k : Kernel) r, R k (k.onMachine (k.loadCR3 r))
  program : ∀ {k k' : Kernel} {task ehdr}, k.loadProgram task ehdr = some k' → R k k'
  malloc : ∀ (k : Kernel) size, R k (k.mallocSyscall size).2
  setRsp : ∀ (k : Kernel) task rsp, R k (k.setRsp task rsp)

namespace SteadyLoad

variable (h : SteadyLoad R)
include h

theorem execProgram (fuel task ehdr : Nat) : Within R (Sbunix.execProgram fuel task ehdr) := by
  refine h.bind (h.isElf fuel ehdr) fun found ↦ ?_
  split
  · intro k y k' hrun
    exact h.program (attempt_done.mp hrun)
  · exact h.pure ()

theorem mallocSyscall (size : Nat) : Within R (call fun k ↦ k.mallocSyscall size) :=
  within_call fun k ↦ h.malloc k size

theorem placeArgs (fuel ans : Nat) (u : UserStack) (n a : Nat) :
    Within R (Sbunix.placeArgs fuel ans u n a) := by
  induction n generalizing a with
  | zero => exact h.pure []
  | succ n ih =>
      have harg : Within R (placeArg fuel ans a u) :=
        h.bind (h.mallocSyscall 20) fun p ↦ h.bind (h.storeBytes fuel _ p 8) fun _ ↦
          h.bind (h.ask _) fun s ↦ h.bind (h.storeString fuel p s) fun _ ↦ h.pure _
      exact h.bind harg fun arg ↦ h.bind (ih (a + 1)) fun args ↦ h.pure _

theorem execLoad (tarfs fuel task stackindex : Nat) (u : UserStack) :
    Within R (Sbunix.execLoad tarfs fuel task stackindex u) := by
  have hload (r : Nat) : Within R (modify fun k ↦ k.onMachine (k.loadCR3 r)) :=
    within_modify fun k ↦ h.loadCR3 k r
  exact h.bind (h.read _) fun pcb ↦ h.bind (hload pcb.cr3) fun _ ↦ h.bind (h.ask _) fun ehdr ↦
    h.bind (h.execProgram fuel task ehdr) fun _ ↦ h.bind (h.mallocSyscall 800) fun ans ↦
    h.bind (h.placeArgs fuel ans u stackindex 0) fun args ↦ h.bind (hload pcb.cr3) fun _ ↦
    h.bind (h.read _) fun ptr ↦ h.bind (h.storeBytes fuel _ stackindex 8) fun _ ↦
    h.bind (h.storeBytes fuel _ ans 8) fun _ ↦
    h.bind (within_modify fun k ↦ h.setRsp k task _) fun _ ↦ h.pure _

end SteadyLoad

end Sbunix
