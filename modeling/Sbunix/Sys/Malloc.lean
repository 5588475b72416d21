import Sbunix.Sys.ForkSpace

/-!
# `mallocSyscall`

The call moves the process's `brk` up and hands out what is between the old and the new one.  The
pages are mapped later, by the page faults of the HEAP VMA, which ends at `HEAP_END`.
-/

namespace Sbunix

variable {k : Kernel} {size a b : Nat} {sizes : List Nat}

namespace Kernel

/-- The `mm_struct` of the process that runs. -/
def curMm (k : Kernel) : Nat := (k.procs.pcbs k.procs.current).mm

def brk (k : Kernel) : Nat := (k.mms k.curMm).brk

/-- `mallocSyscall(size)`. -/
def mallocSyscall (k : Kernel) (size : Nat) : Nat × Kernel :=
  let mm := k.mms k.curMm
  let addr := mm.brk
  -- nothing tests the new break against HEAP_END
  (addr, k.setMm k.curMm
    { mm with brk := (mm.brk + size) % 2 ^ 64, endData := (mm.endData + size) % 2 ^ 64 })

@[simp] theorem mallocSyscall_fst (k : Kernel) (size : Nat) : (k.mallocSyscall size).1 = k.brk := rfl

@[simp] theorem mallocSyscall_brk (k : Kernel) (size : Nat) :
    (k.mallocSyscall size).2.brk = (k.brk + size) % 2 ^ 64 := by
  change (Function.update k.mms k.curMm _ k.curMm).brk = _
  rw [Function.update_self]
  rfl

/-- Calls one after the other: the addresses and sizes handed out, and the kernel afterwards. -/
def mallocRun : List Nat → Kernel → List (Nat × Nat) × Kernel
  | [], k => ([], k)
  | size :: sizes, k =>
      let (addr, k) := k.mallocSyscall size
      let (l, k) := mallocRun sizes k
      ((addr, size) :: l, k)

end Kernel

open Kernel

/-- The addresses of the bytes `[addr, addr + size)`. -/
def region (addr size : Nat) : Set Nat := {a | ∃ i < size, a = (addr + i) % 2 ^ 64}

/-- The addresses that `pageFault` takes for the HEAP VMA, which starts at `HEAP_START`. -/
def InHeap (a : Nat) : Prop := heapStart ≤ a ∧ a ≤ heapEnd

/-- Each call hands out addresses of the heap, or refuses and leaves `brk` alone. -/
def AllServed : List Nat → Kernel → Prop
  | [], _ => True
  | size :: sizes, k =>
      ((∀ a ∈ region (k.mallocSyscall size).1 size, InHeap a) ∨
        (k.mallocSyscall size).2.brk = k.brk) ∧ AllServed sizes (k.mallocSyscall size).2

structure MallocsUsable (sizes : List Nat) (k : Kernel) : Prop where
  served : AllServed sizes k
  disjoint : (mallocRun sizes k).1.Pairwise fun r r' ↦
    Disjoint (region r.1 r.2) (region r'.1 r'.2)

theorem mem_region_iff (h : b + size ≤ 2 ^ 64) : a ∈ region b size ↔ b ≤ a ∧ a < b + size := by
  constructor
  · rintro ⟨i, hi, rfl⟩
    omega
  · intro ⟨hl, hh⟩
    exact ⟨a - b, by omega, by omega⟩

theorem mallocRun_cons (size : Nat) (sizes : List Nat) (k : Kernel) :
    (mallocRun (size :: sizes) k).1 =
      (k.brk, size) :: (mallocRun sizes (k.mallocSyscall size).2).1 := rfl

theorem brk_of_lt (h : k.brk + size < 2 ^ 64) : (k.mallocSyscall size).2.brk = k.brk + size := by
  rw [mallocSyscall_brk, Nat.mod_eq_of_lt h]

/-- The regions of a run lie between the `brk` before it and after it. -/
theorem mallocRun_bounds (h : k.brk + sizes.sum < 2 ^ 64) :
    ∀ r ∈ (mallocRun sizes k).1, ∀ a ∈ region r.1 r.2, k.brk ≤ a ∧ a < k.brk + sizes.sum := by
  induction sizes generalizing k with
  | nil => exact fun r hr ↦ absurd hr List.not_mem_nil
  | cons size sizes ih =>
      rw [List.sum_cons] at h ⊢
      rw [mallocRun_cons]
      intro r hr a ha
      rcases List.mem_cons.mp hr with rfl | hr
      · have := (mem_region_iff (by omega)).mp ha
        omega
      · have hb : (k.mallocSyscall size).2.brk = k.brk + size := brk_of_lt (by omega)
        have := ih (by omega) r hr a ha
        omega

/-- What is handed out is usable as long as all of it fits below the end of the heap. -/
theorem mallocs_usable_of_le (hb : heapStart ≤ k.brk) (h : k.brk + sizes.sum ≤ heapEnd + 1) :
    MallocsUsable sizes k := by
  have he : heapEnd + 1 < 2 ^ 64 := by decide
  induction sizes generalizing k with
  | nil => exact ⟨trivial, .nil⟩
  | cons size sizes ih =>
      rw [List.sum_cons] at h
      have hk : (k.mallocSyscall size).2.brk = k.brk + size := brk_of_lt (by omega)
      have hrest := ih (k := (k.mallocSyscall size).2) (by omega) (by omega)
      refine ⟨⟨.inl fun a ha ↦ ?_, hrest.served⟩, ?_⟩
      · have := (mem_region_iff (by rw [mallocSyscall_fst]; omega)).mp ha
        rw [mallocSyscall_fst] at this
        exact ⟨by omega, by omega⟩
      · rw [mallocRun_cons]
        refine List.pairwise_cons.mpr ⟨fun r hr ↦ Set.disjoint_left.mpr fun a ha ha' ↦ ?_,
          hrest.disjoint⟩
        have h₁ := (mem_region_iff (by omega)).mp ha
        have h₂ := mallocRun_bounds (k := (k.mallocSyscall size).2) (by omega) r hr a ha'
        omega

theorem mallocs_usable_zero (h : sizes.sum = 0) : MallocsUsable sizes k := by
  induction sizes generalizing k with
  | nil => exact ⟨trivial, .nil⟩
  | cons size sizes ih =>
      rw [List.sum_cons, Nat.add_eq_zero_iff] at h
      obtain ⟨rfl, h⟩ := h
      have hempty : ∀ b a, a ∉ region b 0 := fun b a ⟨i, hi, _⟩ ↦ Nat.not_lt_zero i hi
      refine ⟨⟨.inl fun a ha ↦ absurd ha (hempty _ a), (ih h).served⟩, ?_⟩
      rw [mallocRun_cons]
      exact List.pairwise_cons.mpr ⟨fun r _ ↦ Set.disjoint_left.mpr fun a ha ↦
        absurd ha (hempty _ a), (ih h).disjoint⟩

/-- A call that hands out addresses of the heap only stays below its end. -/
theorem le_of_served (hs : size < 2 ^ 64) (h0 : 0 < size)
    (h : (∀ a ∈ region (k.mallocSyscall size).1 size, InHeap a) ∨
      (k.mallocSyscall size).2.brk = k.brk) (hlt : k.brk < 2 ^ 64) :
    k.brk + size ≤ heapEnd + 1 := by
  have he : heapEnd + 1 < 2 ^ 64 := by decide
  rw [mallocSyscall_fst, mallocSyscall_brk] at h
  rcases h with h | h
  · by_contra hc
    have hb := (h _ ⟨0, h0, rfl⟩).2
    rw [Nat.add_zero, Nat.mod_eq_of_lt hlt] at hb
    have ha := (h _ ⟨heapEnd + 1 - k.brk, by omega, rfl⟩).2
    rw [Nat.add_sub_cancel' (by omega), Nat.mod_eq_of_lt he] at ha
    omega
  · omega

/-- Calls that hand out addresses of the heap only fit below its end together. -/
theorem le_of_allServed (hb : heapStart ≤ k.brk) (hlt : k.brk < 2 ^ 64)
    (hs : ∀ size ∈ sizes, size < 2 ^ 64) (h : AllServed sizes k) :
    sizes.sum = 0 ∨ k.brk + sizes.sum ≤ heapEnd + 1 := by
  induction sizes generalizing k with
  | nil => exact .inl rfl
  | cons size sizes ih =>
      rw [List.sum_cons]
      by_cases h0 : size = 0
      · -- nothing is handed out, and the break stays
        subst h0
        have hk : (k.mallocSyscall 0).2.brk = k.brk := brk_of_lt (by omega)
        have := ih (by rw [hk]; exact hb) (by rw [hk]; exact hlt)
          (fun x hx ↦ hs x (List.mem_cons_of_mem 0 hx)) h.2
        rw [hk] at this
        omega
      · have hle := le_of_served (hs size List.mem_cons_self) (Nat.pos_of_ne_zero h0) h.1 hlt
        have he : heapEnd + 1 < 2 ^ 64 := by decide
        have hk : (k.mallocSyscall size).2.brk = k.brk + size := brk_of_lt (by omega)
        have := ih (by omega) (by omega) (fun x hx ↦ hs x (List.mem_cons_of_mem size hx)) h.2
        omega

/-- What a process is handed out is usable if and only if all of it together fits below the end of
the heap: the call never looks at `HEAP_END`. -/
theorem mallocs_usable_iff (hb : heapStart ≤ k.brk) (hlt : k.brk < 2 ^ 64)
    (hs : ∀ size ∈ sizes, size < 2 ^ 64) :
    MallocsUsable sizes k ↔ sizes.sum = 0 ∨ k.brk + sizes.sum ≤ heapEnd + 1 := by
  constructor
  · intro h
    exact le_of_allServed hb hlt hs h.served
  · rintro (h0 | h)
    · exact mallocs_usable_zero h0
    · exact mallocs_usable_of_le hb h

theorem mallocs_usable_pages : MallocsUsable [800, 20, 4096] (bootKernel 0 0 0) :=
  (mallocs_usable_iff (Nat.le_refl _) (by decide) (by decide)).mpr (.inr (by decide))

/-- One request that crosses `HEAP_END` is granted all the same. -/
theorem mallocs_usable_beyond : ¬ MallocsUsable [0x8000002] (bootKernel 0 0 0) := by
  intro h
  have hle := le_of_served (by decide) (by decide) h.served.1 (by decide)
  exact absurd hle (by decide)

end Sbunix
