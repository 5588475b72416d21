import Sbunix.Sys.ForkCopy
import Sbunix.Sys.Window

/-!
# What the records of a process cost

Apart from the page tables, `forkSyscall` writes to pages it has just taken and to the window's
tables.  The frames and tables of the processes stay as they are.
-/

namespace Sbunix

open Reasoning Kernel

variable {s s' s'' : Machine} {k k' : Kernel} {w n c mm p fuel : Nat} {free free' : List Nat}

/-- As long as frames are left, `s'` comes from `s` by allocations of the kernel. -/
structure Keeps (w : Nat) (s s' : Machine) : Prop where
  pops : ∃ n, Pops n s s'
  kept : ∀ free, Ready w s free → s'.alloc.HasFree → ∃ free', Kept w s free s' free'

theorem Keeps.refl (w : Nat) (s : Machine) : Keeps w s s :=
  ⟨⟨0, .refl s⟩, fun free h _ ↦ ⟨free, .refl h⟩⟩

theorem Keeps.trans (h : Keeps w s s') (h' : Keeps w s' s'') : Keeps w s s'' := by
  obtain ⟨m, hm⟩ := h.pops
  obtain ⟨n, hn⟩ := h'.pops
  refine ⟨⟨m + n, hm.trans hn⟩, fun free hr hfree ↦ ?_⟩
  obtain ⟨j, -, hj⟩ := hm free hr.freeList
  obtain ⟨free₁, h₁⟩ := h.kept free hr (hj.hasFree_iff.mpr (hn.ne_nil hj hfree))
  obtain ⟨free₂, h₂⟩ := h'.kept free₁ h₁.ready hfree
  exact ⟨free₂, h₁.trans h₂⟩

theorem keeps_kmalloc (w : Nat) (s : Machine) : Keeps w s s.kmalloc.2 := by
  refine ⟨⟨4, pops_kmalloc s⟩, fun free hr hfree ↦ ?_⟩
  match free, (pops_kmalloc s).ne_nil hr.freeList hfree with
  | n :: free, _ => exact ⟨free, (kmalloc_kept hr).2⟩

theorem keeps_forkNode (w : Nat) (k : Kernel) (mm c : Nat) (flag : Bool) :
    Keeps w k.toMachine (k.forkNode mm c flag).2.toMachine := by
  have h := keeps_kmalloc w k.toMachine
  unfold forkNode
  dsimp only
  generalize (if c = 0 then true else flag) = b
  cases b
  · exact h
  · exact h

theorem keeps_forkFile (w : Nat) (k : Kernel) (p c : Nat) :
    Keeps w k.toMachine (k.forkFile p c).toMachine := by
  unfold forkFile
  split
  · exact keeps_kmalloc w k.toMachine
  · exact .refl w k.toMachine

theorem keeps_forkVma (w : Nat) (k : Kernel) (mm p c : Nat) (flag : Bool) :
    Keeps w k.toMachine (k.forkVma mm p c flag).2.toMachine := by
  set node := k.forkNode mm c flag with hn
  have h := keeps_forkFile w (node.2.setVma node.1 (node.2.vmas p)) p node.1
  exact (keeps_forkNode w k mm c flag).trans h

theorem keeps_forkVmas {c' : Nat} (w : Nat) (h : forkVmas mm fuel p c k = some (c', k')) :
    Keeps w k.toMachine k'.toMachine :=
  forkVmas_induction (R := fun _ k k' ↦ Keeps w k.toMachine k'.toMachine)
    (fun _ k ↦ .refl w k.toMachine)
    (fun _ k _ p c hrest ↦ (keeps_forkVma w k mm p c false).trans hrest) h

/-! ## The kernel stack -/

/-- A copy into the window writes where it is told to. -/
theorem memcpy_window_bytes {dest src len : Nat} (hd : kernBase ≤ dest)
    (h : s.memcpy dest src len = some s') :
    s'.cr3 = s.cr3 ∧ ∀ x, ¬ (dest - kernBase ≤ x ∧ x < dest - kernBase + len) →
      s'.mem x = s.mem x := by
  induction len generalizing s dest src with
  | zero =>
      obtain rfl := Option.some.inj h
      exact ⟨rfl, fun _ _ ↦ rfl⟩
  | succ len ih =>
      rw [Machine.memcpy, Option.bind_eq_some_iff] at h
      obtain ⟨b, -, h⟩ := h
      rw [Option.bind_eq_some_iff] at h
      obtain ⟨s₁, hs₁, h⟩ := h
      rw [Machine.writeByte, Machine.translateWrite, if_pos hd, Option.map_some] at hs₁
      have he := Option.some.inj hs₁
      have hmem : Function.update s.mem (dest - kernBase) b = s₁.mem := by rw [← he]
      have hcr3 : s.cr3 = s₁.cr3 := by rw [← he]
      obtain ⟨hc, hx⟩ := ih (hd.trans (Nat.le_succ dest)) h
      refine ⟨hc.trans hcr3.symm, fun x hxd ↦ ?_⟩
      have hne : x ≠ dest - kernBase := by omega
      rw [hx x (by omega), ← hmem, Function.update_of_ne hne]

/-- The frame that was taken may be written to. -/
theorem Kept.write (hr : Ready w s (n :: free)) (h : Kept w s (n :: free) s' free)
    (ha : s''.alloc = s'.alloc) (hc : s''.cr3 = s'.cr3)
    (hx : ∀ x, x / 4096 * 4096 ≠ n * 4096 → s''.mem x = s'.mem x) :
    Kept w s (n :: free) s'' free := by
  have hnew : n * 4096 ∈ framesOf (n :: free) := ⟨n, List.mem_cons_self, rfl⟩
  -- the frame is neither a table of the window nor the top-level table
  have hnw : n * 4096 ∉ windowFrames s'.mem w := by
    rw [h.frames]
    exact hr.window.apart _ hnew
  have hroot : s'.cr3 ≠ n * 4096 := by
    rw [h.cr3]
    exact fun he ↦ hr.root_apart.2 (he ▸ hnew)
  have hw : SameOn (windowFrames s'.mem w) s'.mem s''.mem := fun x hxw ↦
    hx x fun he ↦ hnw (he ▸ hxw)
  obtain ⟨hwin, hframes⟩ := h.ready.window.congr hw
  have hsame : SameOn {s'.cr3} s'.mem s''.mem := fun x hxs ↦ hx x fun he ↦
    hroot ((Set.mem_singleton_iff.mp hxs).symm.trans he)
  obtain ⟨l, hl, hbytes⟩ := h.taken
  have hln : l = [n] := by
    apply List.append_cancel_right
    exact hl.symm
  refine ⟨⟨ha ▸ h.ready.freeList, h.ready.free_lt, hwin, hc ▸ h.ready.root, ?_, ?_⟩,
    hc.trans h.cr3, hframes.trans h.frames, l, hl, fun x hxw hxl ↦ ?_⟩
  · rw [hframes, hc]
    exact h.ready.root_apart
  · rw [hc]
    exact (congrFun (child_congr (hsame.entry h.ready.root.1 rfl) 2) 511).trans h.ready.shared
  · refine (hx x fun he ↦ hxl ?_).trans (hbytes x hxw hxl)
    rw [hln, he]
    exact ⟨n, List.mem_singleton_self n, rfl⟩

theorem kptr_sub (hp : p < 2 ^ 31) : kptr p - kernBase = p := by
  rw [kptr_eq hp, Nat.add_sub_cancel_left]

theorem keeps_kmalloc_memcpy {src len : Nat} (w : Nat) (hlen : len ≤ 4096)
    (h : s.kmalloc.2.memcpy s.kmalloc.1 src len = some s') : Keeps w s s' := by
  have ha := memcpy_alloc h
  refine ⟨⟨4 + 0, (pops_kmalloc s).trans (.of_alloc ha)⟩, fun free hr hfree ↦ ?_⟩
  rw [ha] at hfree
  match free, (pops_kmalloc s).ne_nil hr.freeList hfree with
  | n :: free, _ =>
      obtain ⟨hp, hk⟩ := kmalloc_kept hr
      have hn := hr.free_lt n List.mem_cons_self
      obtain ⟨hc, hx⟩ := memcpy_window_bytes (by rw [hp]; exact Nat.right_le_or) h
      refine ⟨free, hk.write hr ha hc fun x hxn ↦ hx x ?_⟩
      rw [hp, kptr_sub (by omega)]
      omega

theorem keeps_forkStack {child cr3 : Nat} {regs : ForkRegs} (w : Nat)
    (h : k.forkStack child cr3 mm c regs = some k') :
    (∃ s, Keeps w k.toMachine s ∧ Pops 4 k.toMachine s ∧
      k'.toMachine = s.loadCR3 (k.procs.pcbs k.procs.current).cr3) ∧
      ∃ a : Procs.ForkArgs, a.child = child ∧ a.cr3 = cr3 ∧ k'.procs = k.procs.forkChild a := by
  obtain ⟨k₁, hm, hp, -, -, -, he⟩ := forkStack_eq (k := k) child cr3 mm c regs
  rw [he, Option.map_eq_some_iff] at h
  obtain ⟨s, hs, rfl⟩ := h
  refine ⟨⟨s, ?_, ?_, rfl⟩, ⟨child, cr3, mm, k₁.kmalloc.1, regs.rip, regs.pos⟩, rfl, rfl, ?_⟩
  · rw [← hm]
    exact keeps_kmalloc_memcpy w (by decide) hs
  · rw [← hm]
    exact ((pops_kmalloc k₁.toMachine).trans (.of_alloc (memcpy_alloc hs)) : Pops (4 + 0) _ _)
  · rw [← hp]

end Sbunix
