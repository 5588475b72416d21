import Sbunix.Sys.ExecSpace
import Sbunix.Sys.HeapGrowth

/-!
# The arguments in the memory of a new program

`execveSyscall` writes the arguments through the new tables, at addresses of the caller's heap.  The
pages that are missing there are mapped by `pageFault`, on the caller's VMAs; the strings follow each
other in blocks of 20 bytes, each of them written over the end of the one before.
-/

namespace Sbunix

open Reasoning Kernel KernelM Machine

variable {k k' : Kernel} {s₀ : Machine} {w p e y a v x fuel errCode n stack heap : Nat}
  {free₀ free l : List Nat} {A : Nat → Option Nat} {W W' : Nat → Option UInt8} {c : UInt8}

/-! ## Faults on the caller's VMAs -/

theorem HeapVmas.congr (h : HeapVmas k l stack heap e)
    (hv : ∀ a ∈ l ++ [stack, heap], k'.vmas a = k.vmas a) (hc : k'.curMm = k.curMm)
    (hl : (k'.mms k.curMm).mmap = (k.mms k.curMm).mmap) : HeapVmas k' l stack heap e := by
  have hstack := hv stack (by simp)
  have hheap := hv heap (by simp)
  refine ⟨?_, fun a ha ↦ ?_, ?_, ?_, h.bound⟩
  · rw [hc, hl]
    exact h.list.congr fun a ha ↦ by rw [hv a ha]
  · rw [hv a (List.mem_append_left _ ha)]
    exact h.segments a ha
  · rw [hstack]
    exact h.stack
  · rw [hheap]
    exact h.heap

theorem HeapVmas.setVmEnd {s : Machine} {z : Nat} (h : HeapVmas k l stack heap e)
    (hz : z < 2 ^ 50) :
    HeapVmas ((k.onMachine s).setVmEnd heap (4096 * z)) l stack heap z := by
  have he : EndsOnly [heap] k ((k.onMachine s).setVmEnd heap (4096 * z)) :=
    .setVmEnd s (List.mem_singleton_self heap)
  have hother : ∀ y, (k.vmas y).type ≠ .heap →
      ((k.onMachine s).setVmEnd heap (4096 * z)).vmas y = k.vmas y := by
    refine fun y hy ↦ he.other y fun hm ↦ hy ?_
    rw [List.mem_singleton.mp hm]
    exact h.heap.1
  have hself : ((k.onMachine s).setVmEnd heap (4096 * z)).vmas heap =
      { k.vmas heap with vmEnd := 4096 * z } := by
    rw [Kernel.setVmEnd, setVma_vmas, Function.update_self, onMachine_vmas]
  have hstack : (k.vmas stack).type ≠ .heap := by
    rw [h.stack.1]
    decide
  refine ⟨?_, fun y hy ↦ ?_, ?_, ?_, hz⟩
  · rw [show ((k.onMachine s).setVmEnd heap (4096 * z)).curMm = k.curMm from rfl, he.mms]
    exact h.list.congr fun y _ ↦ he.next y
  · rw [hother y (h.segments y hy).2]
    exact h.segments y hy
  · rw [hother stack hstack]
    exact h.stack
  · rw [hself]
    exact ⟨h.heap.1, h.heap.2.1, rfl⟩

/-! ## The pages of the arguments -/

/-- Of the pages `p` and `p + 1`, the heap of the caller reaches beyond those that are mapped, or both
are mapped. -/
def Swept (p e : Nat) (A : Nat → Option Nat) : Prop :=
  (A p ≠ none ∧ A (p + 1) ≠ none) ∨ ∀ x, x = p ∨ x = p + 1 → A x ≠ none → x < e

/-- How many faults there may be until pages `p` and `p + 1` are mapped. -/
def faultsLeft (p e : Nat) (A : Nat → Option Nat) : Nat :=
  (p + 2 - e) + ((if A p = none then 2 else 0) + if A (p + 1) = none then 2 else 0)

/-- As long as one of the pages is missing, the heap reaches beyond those that are mapped. -/
theorem Swept.low (h : Swept p e A) (hy : y = p ∨ y = p + 1) (hmiss : A y = none) :
    ∀ x, x = p ∨ x = p + 1 → A x ≠ none → x < e := by
  refine h.resolve_left fun hc ↦ ?_
  rcases hy with rfl | rfl
  · exact hc.1 hmiss
  · exact hc.2 hmiss

/-- A fault does not map over one of the pages. -/
theorem Swept.missing (h : Swept p e A) (hy : y = p ∨ y = p + 1) (hmiss : A y = none)
    (hm : min y e = p ∨ min y e = p + 1) : A (min y e) = none := by
  by_cases hle : y ≤ e
  · rwa [Nat.min_eq_left hle]
  · rw [Nat.min_eq_right (Nat.le_of_not_le hle)] at hm ⊢
    by_contra hne
    exact Nat.lt_irrefl e (h.low hy hmiss e hm hne)

theorem Swept.update (h : Swept p e A) (hy : y = p ∨ y = p + 1) (hmiss : A y = none) (n : Nat) :
    Swept p (min y e + 1) (Function.update A (min y e) (some n)) := by
  have hself : Function.update A (min y e) (some n) (min y e) ≠ none := by
    rw [Function.update_self]
    exact Option.some_ne_none n
  by_cases hboth : Function.update A (min y e) (some n) p ≠ none ∧
      Function.update A (min y e) (some n) (p + 1) ≠ none
  · exact Or.inl hboth
  · refine Or.inr fun x hx hne ↦ ?_
    by_cases hxz : x = min y e
    · omega
    · rw [Function.update_of_ne hxz] at hne
      have hxe := h.low hy hmiss x hx hne
      by_contra hlt
      -- page `x` lies behind the page that is mapped, which is then the other one of the two
      have hother : min y e = y := by omega
      refine hboth ?_
      rcases hx with rfl | rfl
      · omega
      · have hp : min y e = p := by omega
        rw [hp] at hself ⊢
        rw [Function.update_of_ne (Nat.succ_ne_self p)]
        exact ⟨hself, hne⟩

/-- A fault brings the pages nearer: it maps one of them, or the heap grows by a page. -/
theorem faultsLeft_update_lt (hy : y = p ∨ y = p + 1) (hmiss : A y = none) (n : Nat) :
    faultsLeft p (min y e + 1) (Function.update A (min y e) (some n)) < faultsLeft p e A := by
  have hkeep : ∀ x, Function.update A (min y e) (some n) x = none → A x = none := by
    intro x hx
    by_cases hxz : x = min y e
    · rw [hxz, Function.update_self] at hx
      cases hx
    · rwa [Function.update_of_ne hxz] at hx
  have hle : ∀ x, (if Function.update A (min y e) (some n) x = none then 2 else 0) ≤
      if A x = none then 2 else 0 := by
    intro x
    by_cases hx : Function.update A (min y e) (some n) x = none
    · rw [if_pos hx, if_pos (hkeep x hx)]
    · rw [if_neg hx]
      exact Nat.zero_le _
  have h₀ := hle p
  have h₁ := hle (p + 1)
  unfold faultsLeft
  by_cases hye : y < e
  · -- page `y` itself is mapped
    have hm : min y e = y := Nat.min_eq_left hye.le
    have hself : Function.update A y (some n) y ≠ none := by
      rw [Function.update_self]
      exact Option.some_ne_none n
    rw [hm] at h₀ h₁ ⊢
    rcases hy with rfl | rfl
    · rw [if_neg hself, if_pos hmiss]
      omega
    · rw [if_neg hself, if_pos hmiss]
      omega
  · omega

/-! ## Writes to the pages -/

/-- An address of the arguments, or of the first page of the stack. -/
def ArgAddress (p a : Nat) : Prop :=
  (a / 4096 = p ∨ a / 4096 = p + 1) ∨ a / 4096 = userStackTop / 4096

/-- The program has been loaded over `s₀`, the bytes `W` have been written, and the caller's heap ends
at page `e`.  The frames and the fuel suffice for the faults that are left. -/
structure ArgState (w : Nat) (s₀ : Machine) (free₀ : List Nat) (fuel p : Nat) (l : List Nat)
    (stack heap : Nat) (W : Nat → Option UInt8) (k : Kernel) (A : Nat → Option Nat) (e : Nat)
    (free : List Nat) : Prop where
  machine : ∃ img, Loaded w s₀ free₀ A img k.toMachine free ∧
    ∀ a c, W a = some c → A (a / 4096) ≠ none ∧ img a = some c
  address : ∀ a, W a ≠ none → ArgAddress p a
  caller : HeapVmas k l stack heap e
  mm : k.curMm ≠ 0
  swept : Swept p e A
  stackPage : A (userStackTop / 4096) ≠ none
  frames : 4 * faultsLeft p e A ≤ free.length
  steps : l.length + (e - (p + 2)) + faultsLeft p e A + 6 ≤ fuel

section
variable (h₀ : Space w s₀ free₀) (hnew : ∀ v, v < 2 ^ 47 → s₀.walk v = none)
  (hp : heapStart / 4096 ≤ p ∧ p + 1 < heapEnd / 4096)

include hp in
theorem ArgAddress.lt (h : ArgAddress p a) : a < 2 ^ 47 := by
  have hs := userStackTop_page
  have he := heapEnd_page
  unfold ArgAddress at h
  omega

include hp in
theorem heapAddress_of_page (h : a / 4096 = p ∨ a / 4096 = p + 1) : HeapAddress a := by
  have hs := heapStart_page
  have he := heapEnd_page
  have hs' : heapStart = 0x8000 * 4096 := rfl
  have he' : heapEnd = 0x10000 * 4096 := rfl
  exact ⟨by omega, by omega⟩

theorem ArgState.congr (h : ArgState w s₀ free₀ fuel p l stack heap W k A e free)
    (hm : k'.toMachine = k.toMachine) (hv : k'.vmas = k.vmas) (hc : k'.curMm = k.curMm)
    (hl : (k'.mms k.curMm).mmap = (k.mms k.curMm).mmap) :
    ArgState w s₀ free₀ fuel p l stack heap W k' A e free :=
  ⟨by rw [hm]; exact h.machine, h.address, h.caller.congr (fun a _ ↦ by rw [hv]) hc hl,
    by rw [hc]; exact h.mm, h.swept, h.stackPage, h.frames, h.steps⟩

include hp in
/-- A fault on a page of the arguments maps a page without a byte that has been written. -/
theorem ArgState.fault (h : ArgState w s₀ free₀ fuel p l stack heap W k A e free)
    (hy : a / 4096 = p ∨ a / 4096 = p + 1) (hmiss : A (a / 4096) = none)
    (herr : errCode &&& pBit = 0) :
    ∃ k' A' e' free', k.pageFault fuel errCode a = some (.resume k') ∧
      ArgState w s₀ free₀ fuel p l stack heap W k' A' e' free' ∧
      faultsLeft p e' A' < faultsLeft p e A := by
  have hs := userStackTop_page
  have hend := heapEnd_page
  have hsteps := h.steps
  have hfree := h.frames
  obtain ⟨img, hl, hW⟩ := h.machine
  have hlt : 4096 * min (a / 4096) e < 2 ^ 47 := by omega
  have hleft : 0 < faultsLeft p e A :=
    Nat.lt_of_le_of_lt (Nat.zero_le _) (faultsLeft_update_lt hy hmiss 0)
  have hfuel : l.length + (e - a / 4096) + 3 ≤ fuel := by omega
  have hfound := h.caller.faultVmas (heapAddress_of_page hp hy) hfuel
  obtain ⟨n, free', hlen, -, hl'⟩ := hl.mapNew hlt (by omega)
  rw [Nat.mul_div_cancel_left _ (by decide)] at hl'
  have hswept := h.swept.update hy hmiss n
  have hless := faultsLeft_update_lt (e := e) hy hmiss n
  -- what has been written is not on the page
  have hoff : ∀ x, W x ≠ none → x / 4096 ≠ min (a / 4096) e := by
    intro x hx he
    obtain ⟨c, hc⟩ := Option.ne_none_iff_exists'.mp hx
    rcases h.address x hx with hpx | hsx
    · rw [he] at hpx
      exact (hW x c hc).1 (by rw [he]; exact h.swept.missing hy hmiss hpx)
    · omega
  refine ⟨_, _, _, free', pageFault_found herr h.mm hfound, ⟨⟨_, hl', fun x c hc ↦ ?_⟩,
    h.address, h.caller.setVmEnd (by omega), h.mm, hswept, ?_, by omega, by omega⟩, hless⟩
  · have hx := hoff x (by rw [hc]; exact Option.some_ne_none c)
    rw [Function.update_of_ne hx, clearPage, if_neg hx]
    exact hW x c hc
  · rw [Function.update_of_ne (by omega)]
    exact h.stackPage

include hnew in
/-- A page that has not been mapped since is not mapped. -/
theorem ArgState.walk_none (h : ArgState w s₀ free₀ fuel p l stack heap W k A e free) (hv : v < 2 ^ 47)
    (hmiss : A (v / 4096) = none) : k.walk v = none := by
  obtain ⟨img, hl, -⟩ := h.machine
  rw [hl.walk hv, hmiss, hnew v hv]
  rfl

include h₀ hnew hp in
/-- A byte is written, after a fault for each page that is missing. -/
theorem ArgState.storeByte (h : ArgState w s₀ free₀ fuel p l stack heap W k A e free)
    (hv : ArgAddress p v) (hn : faultsLeft p e A < n) :
    ∃ k' A' e' free', KernelM.storeByte fuel v c n k = some (.done () k') ∧
      ArgState w s₀ free₀ fuel p l stack heap (Function.update W v (some c)) k' A' e' free' := by
  induction n generalizing k A e free with
  | zero => exact absurd hn (Nat.not_lt_zero _)
  | succ n ih =>
      have hlt := hv.lt hp
      obtain ⟨img, hl, hW⟩ := h.machine
      rw [KernelM.storeByte]
      dsimp only
      cases hA : A (v / 4096) with
      | some m =>
          -- the page is mapped and can be written to
          obtain ⟨s', hs', hl'⟩ := hl.writeByte h₀ hlt hA c
          have hc := h.caller
          rw [hs']
          refine ⟨_, A, e, free, rfl, ⟨_, hl', fun x b hx ↦ ?_⟩, fun x hx ↦ ?_,
            hc.congr (fun _ _ ↦ rfl) rfl rfl, h.mm, h.swept, h.stackPage, h.frames, h.steps⟩
          · by_cases hxv : x = v
            · rw [hxv, Function.update_self] at hx ⊢
              exact ⟨by rw [hA]; exact Option.some_ne_none m, hx⟩
            · rw [Function.update_of_ne hxv] at hx ⊢
              exact hW x b hx
          · by_cases hxv : x = v
            · rw [hxv]
              exact hv
            · rw [Function.update_of_ne hxv] at hx
              exact h.address x hx
      | none =>
          -- the fault maps the next page of the heap, which need not be this one, and the write is
          -- tried again
          have hwalk := h.walk_none hnew hlt hA
          have hw : k.writeByte v c = none := by
            rw [Machine.writeByte, Machine.translateWrite, if_neg (user_lt_kernBase hlt), hwalk]
            rfl
          have ht : k.translate v = none := by
            rw [translate_user hlt, hwalk, Option.map_none]
          have hy : v / 4096 = p ∨ v / 4096 = p + 1 :=
            hv.resolve_right fun hs ↦ h.stackPage (by rw [← hs]; exact hA)
          rw [hw, ht]
          obtain ⟨k₁, A₁, e₁, free₁, hf, h₁, hless⟩ :=
            h.fault hp hy hA (show wBit &&& pBit = 0 by decide)
          obtain ⟨k', A', e', free', hrun, h'⟩ := ih h₁ (by omega)
          refine ⟨k', A', e', free', bind_done.mpr ⟨(), k₁, ?_, hrun⟩, h'⟩
          change (k.pageFault fuel wBit v).map _ = _
          rw [hf]
          rfl

/-- The fuel suffices for a byte. -/
theorem ArgState.faultsLeft_lt (h : ArgState w s₀ free₀ fuel p l stack heap W k A e free) :
    faultsLeft p e A < fuel := by
  have hsteps := h.steps
  omega

include h₀ hnew hp in
theorem ArgState.storeBytes (h : ArgState w s₀ free₀ fuel p l stack heap W k A e free)
    (hv : ∀ i < n, ArgAddress p (v + i)) :
    ∃ k' A' e' free', KernelM.storeBytes fuel v x n k = some (.done () k') ∧
      ArgState w s₀ free₀ fuel p l stack heap (putAt v (leBytes n x) W) k' A' e' free' := by
  induction n generalizing v x k A e free W with
  | zero => exact ⟨k, A, e, free, pure_done.mpr ⟨rfl, rfl⟩, h⟩
  | succ n ih =>
      have hv₀ : ArgAddress p v := hv 0 (Nat.succ_pos n)
      have hlt := hv₀.lt hp
      obtain ⟨k₁, A₁, e₁, free₁, h₁, hs⟩ :=
        h.storeByte (c := x.toUInt8) h₀ hnew hp hv₀ h.faultsLeft_lt
      obtain ⟨k', A', e', free', hrun, hs'⟩ := ih (v := v + 1) (x := x / 256) hs fun i hi ↦ by
        rw [Nat.add_right_comm, Nat.add_assoc]
        exact hv (i + 1) (Nat.succ_lt_succ hi)
      refine ⟨k', A', e', free', bind_done.mpr ⟨(), k₁, ?_, hrun⟩, hs'⟩
      rwa [Nat.mod_eq_of_lt (by omega)]

include h₀ hnew hp in
/-- The copy of a string takes its NUL along. -/
theorem ArgState.storeString {t : CString}
    (h : ArgState w s₀ free₀ fuel p l stack heap W k A e free)
    (hv : ∀ i ≤ t.length, ArgAddress p (v + i)) :
    ∃ k' A' e' free', KernelM.storeString fuel v t k = some (.done () k') ∧
      ArgState w s₀ free₀ fuel p l stack heap (putAt v (t ++ [0]) W) k' A' e' free' := by
  induction t generalizing v k A e free W with
  | nil =>
      have hv₀ : ArgAddress p v := hv 0 (Nat.zero_le _)
      have hlt := hv₀.lt hp
      rw [KernelM.storeString, Nat.mod_eq_of_lt (by omega)]
      exact h.storeByte h₀ hnew hp hv₀ h.faultsLeft_lt
  | cons b t ih =>
      have hv₀ : ArgAddress p v := hv 0 (Nat.zero_le _)
      have hlt := hv₀.lt hp
      rw [List.length_cons] at hv
      obtain ⟨k₁, A₁, e₁, free₁, h₁, hs⟩ := h.storeByte (c := b) h₀ hnew hp hv₀ h.faultsLeft_lt
      obtain ⟨k', A', e', free', hrun, hs'⟩ := ih (v := v + 1) hs fun i hi ↦ by
        rw [Nat.add_right_comm, Nat.add_assoc]
        exact hv (i + 1) (Nat.succ_le_succ hi)
      refine ⟨k', A', e', free', bind_done.mpr ⟨(), k₁, ?_, hrun⟩, hs'⟩
      rwa [Nat.mod_eq_of_lt (by omega)]

include h₀ hp in
/-- What has been written is read under the new tables. -/
theorem ArgState.bytesAt {t : List UInt8} (h : ArgState w s₀ free₀ fuel p l stack heap W k A e free)
    (ht : HoldsAt W a t) : BytesAt k.toMachine a t := by
  obtain ⟨img, hl, hW⟩ := h.machine
  intro i b hi
  have hb := ht i b hi
  obtain ⟨hA, himg⟩ := hW _ b hb
  have hlt := (h.address (a + i) (by rw [hb]; exact Option.some_ne_none b)).lt hp
  obtain ⟨m, hm⟩ := Option.ne_none_iff_exists'.mp hA
  rw [hl.readByte h₀ hlt hm, himg, Option.getD_some]

theorem mallocSyscall_mmap (k : Kernel) (size m : Nat) :
    ((k.mallocSyscall size).2.mms m).mmap = (k.mms m).mmap := by
  change (Function.update k.mms k.curMm _ m).mmap = _
  by_cases hm : m = k.curMm
  · rw [hm, Function.update_self]
  · rw [Function.update_of_ne hm]

theorem ArgState.mallocSyscall (h : ArgState w s₀ free₀ fuel p l stack heap W k A e free) (size : Nat) :
    ArgState w s₀ free₀ fuel p l stack heap W (k.mallocSyscall size).2 A e free :=
  h.congr rfl rfl rfl (mallocSyscall_mmap k size k.curMm)

end

/-! ## The blocks of the arguments -/

/-- From index `a` of the array `ans` on stand pointers to blocks of 20 bytes, each with one of the
strings `ts` up to where the next one starts. -/
def BlocksAt (W : Nat → Option UInt8) (ans a : Nat) (ts : List CString) : Prop :=
  ∀ i t ls, ts.drop i = t :: ls →
    HoldsAt W (ans + 8 * (a + i)) (leBytes 8 (ans + 800 + 20 * (a + i))) ∧
      HoldsAt W (ans + 800 + 20 * (a + i)) (overrun 20 t ls ++ [0])

/-- A block more in front of the others. -/
theorem BlocksAt.cons {ans : Nat} {t : CString} {ts : List CString} (h : BlocksAt W' ans (a + 1) ts)
    (hnil : ts = [] → W' = W)
    (hkeep : ∀ x, x < ans + 8 * (a + 1) ∨ ans + 800 ≤ x ∧ x < ans + 800 + 20 * (a + 1) → W' x = W x)
    (hptr : HoldsAt W (ans + 8 * a) (leBytes 8 (ans + 800 + 20 * a)))
    (ht : HoldsAt W (ans + 800 + 20 * a) (t ++ [0])) : BlocksAt W' ans a (t :: ts) := by
  intro i m ls hi
  cases i with
  | zero =>
      obtain ⟨rfl, rfl⟩ := List.cons.inj hi
      refine ⟨hptr.congr fun x _ hx ↦ hkeep x (Or.inl ?_), ?_⟩
      · rw [length_leBytes] at hx
        omega
      · cases ts with
        | nil =>
            rw [hnil rfl]
            exact ht
        | cons m ts =>
            -- the block behind it has replaced what went beyond its own 20 bytes
            refine ht.overrun ?_ fun x hx hx' ↦ hkeep x (Or.inr ⟨by omega, by omega⟩)
            exact (h 0 m ts rfl).2
  | succ i =>
      have hb := h i m ls hi
      rwa [Nat.add_assoc, Nat.add_comm 1 i] at hb

section
variable (h₀ : Space w s₀ free₀) (hnew : ∀ v, v < 2 ^ 47 → s₀.walk v = none)
  (hp : heapStart / 4096 ≤ p ∧ p + 1 < heapEnd / 4096)

include h₀ hnew hp in
theorem ArgState.placeArg {ans : Nat} {u : UserStack} {t : CString}
    (h : ArgState w s₀ free₀ fuel p l stack heap W k A e free) (hans : ans / 4096 = p)
    (hb : k.brk = ans + 800 + 20 * a) (ha : a < 10) (hrow : u.row a = some t) (ht : t.length < 50) :
    ∃ y k' A' e' free', placeArg fuel ans a u k = some (.done y k') ∧
      ArgState w s₀ free₀ fuel p l stack heap (putAt (ans + 800 + 20 * a) (t ++ [0])
        (putAt (ans + 8 * a) (leBytes 8 (ans + 800 + 20 * a)) W)) k' A' e' free' := by
  obtain ⟨k₁, A₁, e₁, free₁, h₁, hs₁⟩ := (h.mallocSyscall 20).storeBytes (v := ans + 8 * a)
    (x := ans + 800 + 20 * a) (n := 8) h₀ hnew hp fun i hi ↦ Or.inl (by omega)
  obtain ⟨k', A', e', free', hrun, hs'⟩ := hs₁.storeString (v := ans + 800 + 20 * a) (t := t) h₀ hnew
    hp fun i hi ↦ Or.inl (by omega)
  rw [← hb] at h₁ hrun
  refine ⟨(k.brk, t), k', A', e', free', ?_, hs'⟩
  exact bind_done.mpr ⟨_, _, call_done.mpr ⟨rfl, rfl⟩, bind_done.mpr ⟨(), k₁, h₁, bind_done.mpr ⟨t, k₁,
    ask_done.mpr ⟨hrow, rfl⟩, bind_done.mpr ⟨(), k', hrun, pure_done.mpr ⟨rfl, rfl⟩⟩⟩⟩⟩

include h₀ hnew hp in
/-- The loop over the rows writes the blocks, and nothing below them. -/
theorem ArgState.placeArgs {ans : Nat} {u : UserStack} {ts : List CString}
    (h : ArgState w s₀ free₀ fuel p l stack heap W k A e free)
    (hans : ans / 4096 = p) (hb : k.brk = ans + 800 + 20 * a) (ha : a + ts.length ≤ 10)
    (hrows : ∀ i t, ts[i]? = some t → u.row (a + i) = some t ∧ t.length < 50) :
    ∃ args k' W' A' e' free', placeArgs fuel ans u ts.length a k = some (.done args k') ∧
      ArgState w s₀ free₀ fuel p l stack heap W' k' A' e' free' ∧
      BlocksAt W' ans a ts ∧ (ts = [] → W' = W) ∧
      (∀ x, x < ans + 8 * a ∨ ans + 800 ≤ x ∧ x < ans + 800 + 20 * a → W' x = W x) ∧
      ∀ x, W' x ≠ none → W x ≠ none ∨ x < ans + 1050 := by
  induction ts generalizing a k A e free W with
  | nil =>
      refine ⟨[], k, W, A, e, free, pure_done.mpr ⟨rfl, rfl⟩, h, fun i t ls hi ↦ ?_, fun _ ↦ rfl,
        fun x _ ↦ rfl, fun x hx ↦ Or.inl hx⟩
      rw [List.drop_nil] at hi
      cases hi
  | cons t ts ih =>
      rw [List.length_cons] at ha
      obtain ⟨hrow, ht⟩ := hrows 0 t rfl
      obtain ⟨y, k₁, A₁, e₁, free₁, h₁, hs₁⟩ := h.placeArg h₀ hnew hp hans hb (by omega) hrow ht
      have hb₁ : k₁.brk = ans + 800 + 20 * (a + 1) := by
        have hpage := heapEnd_page
        rw [(placeArg_done h₁).1.brk, hb]
        omega
      -- the rows behind go to blocks behind, which start at the break
      have hrows' : ∀ i t, ts[i]? = some t → u.row (a + 1 + i) = some t ∧ t.length < 50 := by
        intro i t hi
        rw [Nat.add_assoc, Nat.add_comm 1 i]
        exact hrows (i + 1) t hi
      obtain ⟨args, k', W', A', e', free', hrun, hs', hblocks, hnil, hkeep, hwritten⟩ :=
        ih hs₁ hb₁ (by omega) hrows'
      refine ⟨y :: args, k', W', A', e', free', bind_done.mpr ⟨y, k₁, h₁, bind_done.mpr ⟨args, k',
        hrun, pure_done.mpr ⟨rfl, rfl⟩⟩⟩, hs', hblocks.cons hnil hkeep ?_ (holdsAt_putAt _ _ _),
        fun he ↦ absurd he (List.cons_ne_nil t ts), fun x hx ↦ ?_, fun x hx ↦ ?_⟩
      · refine (holdsAt_putAt _ _ _).congr fun x _ hx ↦ putAt_of_lt (Or.inl ?_)
        rw [length_leBytes] at hx
        omega
      · rw [hkeep x (by omega), putAt_of_lt (by omega), putAt_of_lt]
        rw [length_leBytes]
        omega
      · rcases hwritten x hx with hx | hx
        · rcases putAt_ne_none hx with hx | hx
          · rcases putAt_ne_none hx with hx | hx
            · exact Or.inl hx
            · rw [length_leBytes] at hx
              omega
          · rw [List.length_append, List.length_singleton] at hx
            omega
        · exact Or.inr hx

end

end Sbunix
