import Sbunix.Sys.ExecRun
import Sbunix.Sys.ElfImage
import Sbunix.Sys.FreshSpaces

/-!
# The arguments of a new process and its heap

`execveSyscall` asks `mallocSyscall` for the room of the arguments while the caller is current, so
they lie where the caller's heap ends, but in the new process's memory.  There the heap starts at
`HEAP_START` again, and nothing keeps it from growing over them.
-/

namespace Sbunix

open Reasoning Kernel KernelM

variable {k k' : Kernel} {w x b tarfs fuel file argv ans : Nat} {free sizes : List Nat}
  {args : List (Nat × CString)}

/-- None of the regions has a byte of the array of 100 pointers, or of a string with its NUL. -/
structure ArgsSafe (ans : Nat) (args : List (Nat × CString)) (regions : List (Nat × Nat)) :
    Prop where
  array : ∀ r ∈ regions, Disjoint (region r.1 r.2) (region ans 800)
  string : ∀ r ∈ regions, ∀ y ∈ args, Disjoint (region r.1 r.2) (region y.1 (y.2.length + 1))

/-- A run of calls hands out every byte that `brk` passes over. -/
theorem mallocRun_covers (hb : k.brk ≤ x) (hx : x < k.brk + sizes.sum) (hlt : x < 2 ^ 64) :
    ∃ r ∈ (mallocRun sizes k).1, x ∈ region r.1 r.2 := by
  induction sizes generalizing k with
  | nil =>
      rw [List.sum_nil] at hx
      omega
  | cons size sizes ih =>
      rw [List.sum_cons] at hx
      rw [mallocRun_cons]
      by_cases hin : x < k.brk + size
      · refine ⟨(k.brk, size), List.mem_cons_self, x - k.brk, by omega, ?_⟩
        change x = (k.brk + (x - k.brk)) % 2 ^ 64
        omega
      · have hnext : (k.mallocSyscall size).2.brk = k.brk + size := brk_of_lt (by omega)
        obtain ⟨r, hr, hxr⟩ := ih (k := (k.mallocSyscall size).2) (by omega) (by omega)
        exact ⟨r, List.mem_cons_of_mem _ hr, hxr⟩

/-- The block of arguments starts at `b` and stays above the start of the heap, even if it wraps. -/
theorem region_block {i n : Nat} (hb : b < 2 ^ 64) (h : i + n ≤ 2000) :
    ∀ a ∈ region ((b + i) % 2 ^ 64) n, b ≤ a ∨ a < 2000 := by
  rintro a ⟨j, hj, rfl⟩
  omega

theorem Placed.safe {regions : List (Nat × Nat)} (h : Placed b ans args) (hb : b < 2 ^ 64)
    (hr : ∀ r ∈ regions, ∀ a ∈ region r.1 r.2, 2000 ≤ a ∧ a < b) : ArgsSafe ans args regions := by
  have hans : ans = (b + 0) % 2 ^ 64 := by
    rw [h.array, Nat.add_zero, Nat.mod_eq_of_lt hb]
  refine ⟨fun r hrm ↦ Set.disjoint_left.mpr fun a ha hblock ↦ ?_,
    fun r hrm y hy ↦ Set.disjoint_left.mpr fun a ha hblock ↦ ?_⟩
  · rw [hans] at hblock
    have := region_block hb (by omega) a hblock
    have := hr r hrm a ha
    omega
  · obtain ⟨i, hi⟩ := List.mem_iff_getElem?.mp hy
    obtain ⟨hp, hlen⟩ := h.string i y hi
    rw [hp, Nat.add_assoc] at hblock
    have := region_block hb (by omega) a hblock
    have := hr r hrm a ha
    omega

/-- What a new process allocates stays clear of its arguments if and only if it takes no more than
the caller's heap had handed out at the time of the call. -/
theorem execve_argsSafe_iff (hr : Ready w k.toMachine free) (hlen : 3 ≤ free.length)
    (hcur : k.procs.current ∉ windowOf free) (hmm : k.curMm ∉ windowOf free)
    (hb : heapStart ≤ k.brk) (hlt : k.brk < 2 ^ 64)
    (h : execveSyscall tarfs fuel file argv k = some (.done (.entered ans args) k'))
    (hload : (k'.mms k'.curMm).mmap ≠ 0) :
    ArgsSafe ans args (mallocRun sizes k').1 ↔ sizes.sum ≤ k.brk - heapStart := by
  obtain ⟨_, _, he, hplaced, -, -, hheap⟩ := execve_done hr hlen hcur hmm h
  obtain ⟨rfl, rfl⟩ := ExecEnd.entered.inj he
  have hstart : k'.brk = heapStart := hheap.resolve_right hload
  constructor
  · intro hsafe
    by_contra hc
    -- the first byte of the array is handed out again
    have hlow : k'.brk ≤ k.brk := by rw [hstart]; exact hb
    have hhigh : k.brk < k'.brk + sizes.sum := by rw [hstart]; omega
    obtain ⟨r, hrm, hx⟩ := mallocRun_covers hlow hhigh hlt
    have hfirst : k.brk ∈ region ans 800 := by
      rw [hplaced.array]
      exact ⟨0, by decide, (Nat.mod_eq_of_lt hlt).symm⟩
    exact Set.disjoint_left.mp (hsafe.array r hrm) hx hfirst
  · intro hle
    refine hplaced.safe hlt fun r hrm a ha ↦ ?_
    have hin := mallocRun_bounds (k := k') (by rw [hstart]; omega) r hrm a ha
    rw [hstart] at hin
    have : 2000 ≤ heapStart := by decide
    omega

/-! ## Processes that have allocated nothing, and a little -/

/-- The program has started, with arguments and in a state that pass a test. -/
def Outcome.enteredWith (p : Nat → List (Nat × CString) → Kernel → Bool) : Outcome ExecEnd → Bool
  | .done (.entered ans args) k => p ans args k
  | _ => false

theorem enteredWith_execve {k : Kernel} {ans : Nat} {args : List (Nat × CString)}
    (h : (execveSyscall tarfs fuel file argv k).any (Outcome.enteredWith fun ans' args' k' ↦
      ans' = ans ∧ args' = args ∧ k'.brk = heapStart ∧ (k'.mms k'.curMm).mmap ≠ 0) = true) :
    ∃ k', execveSyscall tarfs fuel file argv k = some (.done (.entered ans args) k') ∧
      k'.brk = heapStart ∧ (k'.mms k'.curMm).mmap ≠ 0 := by
  obtain ⟨o, hrun, ho⟩ := (Option.any_eq_true _ _).mp h
  cases o with
  | halted k' => cases ho
  | done e k' =>
      cases e with
      | returned code => cases ho
      | entered ans' args' =>
          obtain ⟨rfl, rfl, hb, hm⟩ := of_decide_eq_true ho
          exact ⟨k', hrun, hb, hm⟩

/-- It runs `a` from the archive; the arguments come to lie where the new heap starts. -/
theorem archiveKernel_execve :
    ∃ k', execveSyscall 0xffffffff80040000 30 0xffffffff80040000 0
        (archiveKernel ⟨1, 5, 120, 0x400000, 5, 5⟩) =
          some (.done (.entered heapStart [(heapStart + 800, cstr "a")]) k') ∧
      k'.brk = heapStart ∧ (k'.mms k'.curMm).mmap ≠ 0 :=
  enteredWith_execve (by decide +kernel)

theorem archiveKernel_apart (ph : Phdr) :
    (archiveKernel ph).procs.current ∉ windowOf (List.range' 20 44) ∧
      (archiveKernel ph).curMm ∉ windowOf (List.range' 20 44) := by
  have hl : VmaList (bootKernel 0 0 0) 0 [] := ⟨rfl, by simp⟩
  exact ⟨bootKernel_current 0, fun h ↦ (bootKernel_forkReady hl (by simp)).mm
    (windowOf_mono (by simp) h)⟩

/-- The caller has allocated 64 bytes. -/
def busyKernel : Kernel := ((archiveKernel ⟨1, 5, 120, 0x400000, 5, 5⟩).mallocSyscall 64).2

theorem busyKernel_execve :
    ∃ k', execveSyscall 0xffffffff80040000 30 0xffffffff80040000 0 busyKernel =
          some (.done (.entered (heapStart + 64) [(heapStart + 864, cstr "a")]) k') ∧
      k'.brk = heapStart ∧ (k'.mms k'.curMm).mmap ≠ 0 :=
  enteredWith_execve (by decide +kernel)

/-- The new process may take just as many, in two requests. -/
theorem execve_argsSafe_busy :
    ∃ ans args k', execveSyscall 0xffffffff80040000 30 0xffffffff80040000 0 busyKernel =
        some (.done (.entered ans args) k') ∧
      args ≠ [] ∧ ArgsSafe ans args (mallocRun [16, 48] k').1 := by
  obtain ⟨k', hrun, -, hm⟩ := busyKernel_execve
  obtain ⟨hcur, hmm⟩ := archiveKernel_apart ⟨1, 5, 120, 0x400000, 5, 5⟩
  have hready : Ready 0x2000 busyKernel.toMachine (List.range' 20 44) := (archiveKernel_space _).1.ready
  have hle : [16, 48].sum ≤ busyKernel.brk - heapStart := by decide +kernel
  refine ⟨_, _, k', hrun, List.cons_ne_nil _ _, ?_⟩
  exact (execve_argsSafe_iff hready (by decide) hcur hmm (by decide +kernel) (by decide +kernel) hrun
    hm).mpr hle

/-- The first byte that is allocated is the first of the array. -/
theorem execve_argsSafe_first :
    ∃ ans args k', execveSyscall 0xffffffff80040000 30 0xffffffff80040000 0
        (archiveKernel ⟨1, 5, 120, 0x400000, 5, 5⟩) = some (.done (.entered ans args) k') ∧
      (k'.mms k'.curMm).mmap ≠ 0 ∧ ¬ ArgsSafe ans args (mallocRun [1] k').1 := by
  obtain ⟨k', hrun, hb, hm⟩ := archiveKernel_execve
  refine ⟨_, _, k', hrun, hm, fun hsafe ↦ ?_⟩
  have hregion : (k'.brk, 1) ∈ (mallocRun [1] k').1 := List.mem_cons_self
  have hdisj := hsafe.array _ hregion
  rw [hb] at hdisj
  exact Set.disjoint_left.mp hdisj ⟨0, by decide, rfl⟩ ⟨0, by decide, rfl⟩

end Sbunix
