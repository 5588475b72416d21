import Sbunix.Sys.ExecCall
import Sbunix.Sys.CowRun

/-!
# What `execveSyscall` passes on

The call reads the strings of its caller before the program is loaded, and enters the new process with
them.  They are passed as they were if and only if no string has 20 characters or more, unless what
follows it is its own rest.
-/

namespace Sbunix

open Reasoning Kernel KernelM Machine

variable {k k' : Kernel} {s : Machine} {w p r e n a x fuel tarfs file argv ehdr stack heap : Nat}
  {free free' l : List Nat} {name : CString} {args : List CString} {f : Elf}

/-! ## The call -/

/-- The caller passes `name` and `args`, which it can read; the file is in the archive, and the free
pages suffice for the program. -/
structure ExecCall (w : Nat) (k : Kernel) (free : List Nat) (tarfs fuel file argv ehdr : Nat) (f : Elf)
    (name : CString) (args : List CString) (l : List Nat) (stack heap e : Nat) : Prop where
  space : Space w k.toMachine free
  caller : Caller k free l stack heap e
  current : k.procs.current ∉ windowOf free
  mm : k.curMm ∉ windowOf free
  nameAt : UserBytes w k.toMachine free file (name ++ [0]) ∧ 0 ∉ name ∧ name.length < 50
  argvAt : argv ≠ 0 ∧ VectorAt (UserBytes w k.toMachine free) argv 1 args
  short : args.length ≤ 9 ∧ ∀ t ∈ args, t.length < 50
  clear : ∀ n ∈ free[3]?, NoUserEntry k.mem (n * 4096)
  found : ∀ s, SameInUse w k.toMachine free s → s.getFile name fuel tarfs = some ehdr
  elf : f.At w k.toMachine free ehdr
  spare : ∀ x, x = k.brk / 4096 ∨ x = k.brk / 4096 + 1 → ProgramPage f.phdrs x → x < e
  frames : f.frames + 4 * (k.brk / 4096 + 2 - e + 4) + 4 ≤ free.length
  steps : l.length + (e - (k.brk / 4096 + 2)) + (k.brk / 4096 + 2 - e) + 60 ≤ fuel

theorem VectorAt.notMem {B : Nat → List UInt8 → Prop} {i : Nat} (h : VectorAt B argv i args) :
    ∀ t ∈ args, 0 ∉ t := by
  induction args generalizing i with
  | nil => exact List.forall_mem_nil _
  | cons t args ih =>
      obtain ⟨⟨_, -, -, -, hzero⟩, -, hrest⟩ := h
      exact List.forall_mem_cons.mpr ⟨hzero, ih hrest⟩

theorem VectorAt.lt {i : Nat} (h : VectorAt (UserBytes w s free) argv i args) :
    argv + 8 * (i + args.length) + 7 < 2 ^ 47 := by
  induction args generalizing i with
  | nil =>
      obtain ⟨p, hp, -⟩ := h
      exact (hp 7 _ rfl).1
  | cons t args ih =>
      have hrest := ih h.2.2
      rw [List.length_cons]
      omega

/-- What the call takes before it reads its arguments. -/
theorem ExecCall.newSpace {stack heap : Nat}
    (h : ExecCall w k free tarfs fuel file argv ehdr f name args l stack heap e) :
    ∃ r rest, (k.kmalloc.1 ∈ windowOf free ∧ k.kmalloc.1 ∉ windowOf rest) ∧
      k.kmalloc.2.kmalloc.2.kmalloc.1 ∈ windowOf free ∧
      k.kmalloc.2.kmalloc.2.kmalloc.2.setUserSpace.1 = r ∧ free.length = rest.length + 4 ∧
      NewSpace w k.toMachine free k.kmalloc.2.kmalloc.2.kmalloc.2.setUserSpace.2 r rest := by
  have hframes := h.frames
  obtain ⟨n₁, l₁, rfl⟩ := List.exists_cons_of_length_pos (l := free) (by omega)
  rw [List.length_cons] at hframes
  obtain ⟨n₂, l₂, rfl⟩ := List.exists_cons_of_length_pos (l := l₁) (by omega)
  rw [List.length_cons] at hframes
  obtain ⟨n₃, l₃, rfl⟩ := List.exists_cons_of_length_pos (l := l₂) (by omega)
  rw [List.length_cons] at hframes
  obtain ⟨n₄, rest, rfl⟩ := List.exists_cons_of_length_pos (l := l₃) (by omega)
  have hr := h.space.ready
  obtain ⟨hp₁, hk₁⟩ := kmalloc_kept hr
  obtain ⟨-, hk₂⟩ := kmalloc_kept hk₁.ready
  obtain ⟨hp₃, hk₃⟩ := kmalloc_kept hk₂.ready
  have hk := (hk₁.trans hk₂).trans hk₃
  have hclear := hk.noUserEntry hr List.mem_cons_self (h.clear n₄ rfl)
  obtain ⟨hr₄, hnew⟩ := setUserSpace_space hk.ready hclear
  have hout : kptr (n₁ * 4096) ∉ windowOf rest := fun hm ↦
    not_mem_windowOf hr.free_lt hr.freeList.nodup_cons
      (windowOf_mono (List.subset_append_right [n₂, n₃, n₄] rest) hm)
  exact ⟨n₄ * 4096, rest, ⟨⟨n₁, by simp, hp₁⟩, hp₁ ▸ hout⟩, ⟨n₃, by simp, hp₃⟩, hr₄, rfl,
    hk.newSpace hnew⟩

theorem execSwitch_toMachine (k : Kernel) (p : Nat) :
    (k.execSwitch p).toMachine = k.loadCR3 (k.procs.pcbs p).cr3 := by
  have hcr3 := execSwitch_field (g := Pcb.cr3) (fun _ _ ↦ rfl) (fun _ ↦ rfl) k p p
  rw [← hcr3]
  rfl

/-- The caller and the program, when the new PCB has been set up. -/
theorem ExecCall.programFor {m : Nat} (kernelstack : Nat)
    (h : ExecCall w k free tarfs fuel file argv ehdr f name args l stack heap e)
    (hnew : NewSpace w k.toMachine free s r free')
    (hlen : free.length = free'.length + 4) (hp : p ∈ windowOf free) (hm : m ∈ windowOf free) :
    Caller ((k.onMachine s).execPcb p kernelstack r m name) free' l stack heap e ∧
      ProgramFor w ((k.onMachine s).execPcb p kernelstack r m name) free' tarfs fuel p r ehdr e f ∧
      ((k.onMachine s).execPcb p kernelstack r m name).curMm = k.curMm ∧
      ((k.onMachine s).execPcb p kernelstack r m name).brk = k.brk := by
  have hne : k.curMm ≠ m := fun he ↦ h.mm (he ▸ hm)
  obtain ⟨hcur, hb⟩ := execPcb_curMm (k := k.onMachine s) kernelstack r name
    (fun he ↦ h.current (he ▸ hp)) hne
  -- the new PCB is written as a whole, and the caller's `mm` is none of the pages taken
  have hpcb : ((k.onMachine s).execPcb p kernelstack r m name).procs.pcbs p =
      { initKern := kernelstack + 4096 - 16, kstack := kernelstack + 4096 - 16, cr3 := r, mm := m,
        pid := (k.procs.pcbs k.procs.current).pid, ppid := (k.procs.pcbs k.procs.current).ppid,
        processName := name } := Function.update_self ..
  have hmms : ((k.onMachine s).execPcb p kernelstack r m name).mms k.curMm = k.mms k.curMm :=
    Function.update_of_ne hne _ _
  have hframes := h.frames
  have hheap : HeapVmas ((k.onMachine s).execPcb p kernelstack r m name) l stack heap e :=
    h.caller.toHeapVmas.congr (fun a ha ↦ rfl) hcur (congrArg Mm.mmap hmms)
  have hvmas : ∀ a ∈ l ++ [stack, heap], a ∉ windowOf free' := fun a ha hw ↦
    h.caller.vmas a ha (windowOf_mono hnew.subset hw)
  refine ⟨⟨hheap, hvmas, by rw [hcur]; exact h.caller.mm, ?_, ?_⟩,
    ⟨hnew.space, hnew.empty, ?_, ?_, hnew.elfAt h.elf, ?_, ?_⟩, hcur, hb⟩
  · rw [hb]
    exact h.caller.low
  · rw [hb]
    exact h.caller.high
  · rw [hpcb]
  · rw [hpcb]
    exact h.found _ hnew.inUse
  · rw [hb]
    exact h.spare
  · rw [hb]
    change _ + 4 * (k.brk / 4096 + 2 - e + 4) ≤ _
    omega

theorem onMachine_onMachine (k : Kernel) (s s' : Machine) :
    (k.onMachine s).onMachine s' = k.onMachine s' := rfl

/-! What the call reads, in any state in which the caller's strings can be read. -/

theorem ExecCall.loadName {k₁ : Kernel}
    (h : ExecCall w k free tarfs fuel file argv ehdr f name args l stack heap e)
    (hread : ∀ a l, UserBytes w k.toMachine free a l → BytesAt k₁.toMachine a l) :
    loadString fuel file fuel k₁ = some (.done name k₁) := by
  obtain ⟨hname, hzero, hlen⟩ := h.nameAt
  have hsteps := h.steps
  have hend := (hname name.length 0 (List.getElem?_concat_length ..)).1
  exact loadString_eq ⟨hread _ _ hname, hzero⟩ (by omega) (by omega) (by omega)

theorem ExecCall.rows {k₁ : Kernel}
    (h : ExecCall w k free tarfs fuel file argv ehdr f name args l stack heap e)
    (hread : ∀ a l, UserBytes w k.toMachine free a l → BytesAt k₁.toMachine a l) :
    ∃ u u', UserStack.copyRow (fun _ ↦ 0) 0 name = some u ∧
      execArgs fuel argv u k₁ = some (.done (1 + args.length, u') k₁) ∧
      RowsAt u' (name :: args) := by
  have hsteps := h.steps
  have hshort := h.short
  have hlt := h.argvAt.2.lt
  have hempty : RowsAt (fun _ ↦ 0) [] := fun i t hi ↦ by cases hi
  obtain ⟨u, hu, hrows⟩ := hempty.copyRow h.nameAt.2.2 h.nameAt.2.1 (by decide)
  have hvector : VectorAt (BytesAt k₁.toMachine) argv [name].length args :=
    h.argvAt.2.mono hread
  obtain ⟨u', hcopy, hrows'⟩ : ∃ u', copyArgs fuel argv fuel [name].length u k₁ =
      some (.done ([name].length + args.length, u') k₁) ∧ RowsAt u' ([name] ++ args) := by
    refine copyArgs_eq hvector hshort.2 ?_ ?_ (by omega) (by omega) hrows
    · rw [List.length_singleton]
      omega
    · rw [List.length_singleton]
      omega
  refine ⟨u, u', hu, ?_, hrows'⟩
  rw [execArgs, if_pos h.argvAt.1]
  exact hcopy

/-- The call has entered a process of its own, with a PCB and a table that were free. -/
structure ProgramEntered (w : Nat) (k : Kernel) (free : List Nat) (k' : Kernel) (free' : List Nat) :
    Prop where
  loaded : ∃ s rest A img, NewSpace w k.toMachine free s k'.cr3 rest ∧
    k'.procs.current ∉ windowOf rest ∧ Loaded w (s.loadCR3 k'.cr3) rest A img k'.toMachine free'
  fresh : k'.procs.current ∈ windowOf free
  root : k'.root k'.procs.current = k'.cr3
  others : ∀ q, q ≠ k'.procs.current → k'.root q = k.root q

/-- The call enters the new process, with its arguments among the bytes `W`. -/
theorem execve_entered (h : ExecCall w k free tarfs fuel file argv ehdr f name args l stack heap e) :
    ∃ ans as k' W free', execveSyscall tarfs fuel file argv k = some (.done (.entered ans as) k') ∧
      ProgramEntered w k free k' free' ∧
      ArgsAt W k.brk (name :: args) ∧ (∀ a t, HoldsAt W a t → BytesAt k'.toMachine a t) ∧
      (k'.procs.pcbs k'.procs.current).rsp = argsTop := by
  obtain ⟨r, rest, ⟨hnp, hnp'⟩, hnm, hr, hlen, hnew⟩ := h.newSpace
  have hsteps := h.steps
  have hlow := h.caller.low
  have hhigh := h.caller.high
  have hstart := heapStart_page
  have hpage := heapEnd_page
  obtain ⟨p, hp⟩ : ∃ p, k.kmalloc.1 = p := ⟨_, rfl⟩
  obtain ⟨kernelstack, hks⟩ : ∃ a, k.kmalloc.2.kmalloc.1 = a := ⟨_, rfl⟩
  obtain ⟨m, hm⟩ : ∃ m, k.kmalloc.2.kmalloc.2.kmalloc.1 = m := ⟨_, rfl⟩
  obtain ⟨s, hs⟩ : ∃ s, k.kmalloc.2.kmalloc.2.kmalloc.2.setUserSpace.2 = s := ⟨_, rfl⟩
  rw [hp] at hnp hnp'
  rw [hm] at hnm
  rw [hs] at hnew
  -- the caller's tables still stand, so that its strings can be read
  have hread : ∀ a l, UserBytes w k.toMachine free a l → BytesAt s a l := fun _ _ hb ↦
    hb.bytesAt hnew.inUse h.space.user hnew.cr3
  obtain ⟨hc, hprog, hcur, hb⟩ := h.programFor kernelstack hnew hlen hnp hnm
  obtain ⟨k₁, hk₁⟩ : ∃ k₁, (k.onMachine s).execPcb p kernelstack r m name = k₁ := ⟨_, rfl⟩
  have hread₁ : ∀ a l, UserBytes w k.toMachine free a l → BytesAt k₁.toMachine a l := by
    rw [← hk₁]
    exact hread
  have hmm : (k₁.procs.pcbs p).mm = m := by
    rw [← hk₁]
    exact (execPcb_new (k.onMachine s) p kernelstack r m name).1
  have hmach₁ : k₁.toMachine = s := by
    rw [← hk₁]
    rfl
  have hother₁ : ∀ q, q ≠ p → k₁.root q = k.root q := by
    intro q hq
    rw [← hk₁]
    exact congrArg Pcb.cr3 (Function.update_of_ne hq _ _)
  rw [hk₁] at hc hprog hcur hb
  obtain ⟨u, u', hu, hcopy, hrows⟩ := h.rows hread₁
  -- the new `mm` is not the caller's, on whose VMAs the arguments are written
  have hne : k₁.curMm ≠ (k₁.procs.pcbs p).mm := by
    rw [hcur, hmm]
    exact fun he ↦ h.mm (he ▸ hnm)
  have hcount : (name :: args).length ≤ 10 := Nat.succ_le_succ h.short.1
  obtain ⟨y, k₂, W, A, e', free', hrun, hstate, hargs, hrsp, hcr3⟩ :=
    execLoad_args hc hprog hne (by rw [hb]; omega) hcount hrows
  obtain ⟨img, hl, -⟩ := hstate.machine
  have hr₂ : k₂.cr3 = r := hl.cr3
  -- the new process's tables are loaded again
  have hmach : ((k₂.onMachine (k₂.loadCR3 k₁.cr3)).execSwitch p).toMachine = k₂.toMachine := by
    rw [execSwitch_toMachine]
    change k₂.loadCR3 (k₂.procs.pcbs p).cr3 = k₂.toMachine
    rw [hcr3, hprog.cr3, ← hr₂]
    rfl
  have hroot : ∀ q, ((k₂.onMachine (k₂.loadCR3 k₁.cr3)).execSwitch p).root q = k₁.root q := fun q ↦
    (execSwitch_field (g := Pcb.cr3) (fun _ _ ↦ rfl) (fun _ ↦ rfl) _ p q).trans (hcr3 q)
  refine ⟨y.1, y.2, (k₂.onMachine (k₂.loadCR3 k₁.cr3)).execSwitch p, W, free', ?_, ⟨?_, hnp, ?_, ?_⟩,
    hb ▸ hargs, ?_, ?_⟩
  · have hfile₁ : loadString fuel file fuel k₁ = some (.done name k₁) := h.loadName hread₁
    simp only [execveSyscall, bind_done, read_done, modify_done, ask_done, call_done, pure_done,
      and_assoc, exists_eq_left, exists_and_left, exists_const, onMachine_toMachine,
      onMachine_onMachine, hp, hks, hm, hs, hr]
    refine ⟨name, k.onMachine s, h.loadName hread, name, k₁, hk₁ ▸ hfile₁, u, hu,
      (1 + args.length, u'), k₁, hcopy, y, k₂, ?_, rfl, rfl⟩
    rw [Nat.add_comm]
    exact hrun
  · rw [hmach, hr₂]
    rw [hmach₁] at hl
    exact ⟨s, rest, A, img, hnew, hnp', hl⟩
  · rw [hmach, hr₂]
    exact (hroot p).trans hprog.cr3
  · intro q hq
    exact (hroot q).trans (hother₁ q hq)
  · rw [hmach]
    exact fun a t ht ↦ hstate.bytesAt hprog.space ⟨by omega, by omega⟩ ht
  · exact (execSwitch_field (g := Pcb.rsp) (fun _ _ ↦ rfl) (fun _ ↦ rfl) _ p p).trans hrsp

theorem execve_argsAt (h : ExecCall w k free tarfs fuel file argv ehdr f name args l stack heap e) :
    ∃ ans as k' W, execveSyscall tarfs fuel file argv k = some (.done (.entered ans as) k') ∧
      ArgsAt W k.brk (name :: args) ∧ (∀ a t, HoldsAt W a t → BytesAt k'.toMachine a t) ∧
      (k'.procs.pcbs k'.procs.current).rsp = argsTop := by
  obtain ⟨ans, as, k', W, -, hrun, -, hargs⟩ := execve_entered h
  exact ⟨ans, as, k', W, hrun, hargs⟩

/-- The call enters the new process, which finds the arguments if they are read back from their
blocks. -/
theorem execve_passed (h : ExecCall w k free tarfs fuel file argv ehdr f name args l stack heap e) :
    ∃ ans as k', execveSyscall tarfs fuel file argv k = some (.done (.entered ans as) k') ∧
      (ArgsPassed k' (name :: args) ↔ Intact 20 (name :: args)) := by
  obtain ⟨ans, as, k', W, hrun, hargs, hread, hsp⟩ := execve_argsAt h
  have hhigh := h.caller.high
  refine ⟨ans, as, k', hrun, hargs.passed_iff hread hsp (by omega) (Nat.succ_le_succ h.short.1) ?_⟩
  exact List.forall_mem_cons.mpr ⟨h.nameAt.2.1, h.argvAt.2.notMem⟩

/-! ## A caller in the boot machine -/

/-- A text segment of five bytes. -/
def textPhdr : Phdr := ⟨1, 5, 120, 0x400000, 5, 5⟩

/-- The boot machine with the page of a caller, which holds `l`, and the archive from page 64 on. -/
def callMemory (l : List UInt8) : Memory := fun x ↦
  if 0x40000 ≤ x then Memory.ofWords (archiveWords textPhdr) (x - 0x40000)
  else if x / 4096 = 8 then l.getD (x - 0x8000) 0
  else (bootSpace 0x5007 0).mem x

def callKernel (l : List UInt8) : Kernel :=
  (bootKernel 0x5007 0 0xffffffff8000e000).onMachine { bootSpace 0x5007 0 with mem := callMemory l }

section
variable (l : List UInt8)

theorem callMemory_low (hx : x < 0x40000) (hx' : x / 4096 ≠ 8) :
    callMemory l x = (bootSpace 0x5007 0).mem x := by
  rw [callMemory, if_neg (by omega), if_neg hx']

/-- The caller's tables are those of the boot machine. -/
theorem callMemory_tables :
    SameOn (tableFrames userEntries (bootSpace 0x5007 0).mem 0x1000) (bootSpace 0x5007 0).mem
      (callKernel l).mem := by
  intro x hx
  rw [bootUser_frames] at hx
  simp only [Set.mem_insert_iff, Set.mem_singleton_iff] at hx
  exact callMemory_low l (by omega) (by omega)

theorem callKernel_space :
    Space 0x2000 (callKernel l).toMachine (List.range' 20 44) ∧
    windowFrames (callKernel l).mem 0x2000 = {0x2000, 0x3000, 0x4000} ∧
    tableFrames userEntries (callKernel l).mem 0x1000 = {0x1000, 0x5000, 0x6000, 0x7000} := by
  have hw := (bootSpace_window 0x5007 0).1
  have hb : Space 0x2000 (bootSpace 0x5007 0) (List.range' 20 44) :=
    ⟨bootSpace_ready 0x5007 0, bootUser_userTree 0⟩
  have hsw : SameOn (windowFrames (bootSpace 0x5007 0).mem 0x2000) (bootSpace 0x5007 0).mem
      (callKernel l).mem := by
    intro x hx
    rw [hw] at hx
    simp only [Set.mem_insert_iff, Set.mem_singleton_iff] at hx
    exact callMemory_low l (by omega) (by omega)
  obtain ⟨hs, hw', hu'⟩ : Space 0x2000 (callKernel l).toMachine (List.range' 20 44) ∧ _ ∧ _ :=
    hb.congr rfl rfl hsw (callMemory_tables l)
  exact ⟨hs, hw'.trans hw, hu'.trans (bootUser_frames 0)⟩

/-- The archive and the caller's page are in use. -/
theorem callKernel_settled (hx : x / 4096 = 8 ∨ 0x40000 ≤ x) :
    Settled 0x2000 (callKernel l).toMachine (List.range' 20 44) x := by
  constructor
  · rw [(callKernel_space l).2.1]
    simp only [Set.mem_insert_iff, Set.mem_singleton_iff]
    omega
  · rintro ⟨n, hn, he⟩
    have := List.mem_range'_1.mp hn
    omega

theorem callKernel_translate (ha : a < 4096) :
    (callKernel l).translate a = some (0x8000 + a) := by
  have hpath : pagePath a = [0, 0, 0, 0] := by
    rw [← show pagePath 0 = [0, 0, 0, 0] from rfl, pagePath_eq_iff]
    omega
  have hwalk : (callKernel l).walk a = some 0x8007 := by
    rw [show (callKernel l).walk a = pageAt userEntries (callKernel l).mem 0x1000 (pagePath a)
      from (pageAt_restrict (user_index (by omega))).symm,
      pageAt_congr (bootUser_userTree 0).dvd (callMemory_tables l), hpath, bootUser_pageAt]
  rw [translate_user (by omega), hwalk, Option.map_some, show frame 0x8007 = 0x8000 by decide,
    Nat.mod_eq_of_lt ha]

/-- The caller reads what its page holds. -/
theorem callKernel_userBytes {t : List UInt8} (hl : l.length ≤ 4096)
    (h : HoldsAt (fun x ↦ l[x]?) a t) :
    UserBytes 0x2000 (callKernel l).toMachine (List.range' 20 44) a t := by
  intro i b hi
  have hb : l[a + i]? = some b := h i b hi
  obtain ⟨hlt, -⟩ := List.getElem?_eq_some_iff.mp hb
  refine ⟨by omega, 0x8000 + (a + i), callKernel_translate l (by omega), ?_,
    callKernel_settled l (by omega)⟩
  change callMemory l _ = b
  rw [callMemory, if_neg (by omega), if_pos (by omega), Nat.add_sub_cancel_left,
    List.getD_eq_getElem?_getD, hb, Option.getD_some]

theorem callKernel_elf :
    (archiveElf textPhdr).At 0x2000 (callKernel l).toMachine (List.range' 20 44)
      0xffffffff80040200 := by
  have h := (archiveKernel_archived textPhdr rfl ⟨by decide, by decide, by decide⟩ (by decide)
    (by decide) fun g ↦ rfl).elf
  have hsub : 0xffffffff80040200 - kernBase = 0x40200 := rfl
  have hset : ∀ i, Settled 0x2000 (callKernel l).toMachine (List.range' 20 44)
      (0xffffffff80040200 - kernBase + i) := fun i ↦
    callKernel_settled l (Or.inr (by omega))
  refine h.congr ⟨h.file.kernel, h.file.bound, fun i _ ↦ (hset i).1, fun i _ ↦ (hset i).2,
    fun i hi ↦ ?_⟩ fun i hi ↦ ?_
  · change _ ∉ tableFrames userEntries (callKernel l).mem 0x1000
    rw [(callKernel_space l).2.2, hsub]
    simp only [Set.mem_insert_iff, Set.mem_singleton_iff]
    omega
  · change callMemory l _ = (archiveKernel textPhdr).mem _
    rw [callMemory, if_pos (by omega)]
    exact (if_pos (by omega)).symm

/-- The file is found wherever the archive reads as it was written. -/
theorem archive_found (fuel : Nat) (hbyte : ∀ o < 1024, s.readByte (0xffffffff80040000 + o) =
      some (Memory.ofWords (archiveWords textPhdr) o)) :
    s.getFile (cstr "a") (fuel + 64) 0xffffffff80040000 = some 0xffffffff80040200 := by
  -- any stretch of the archive reads as it was written
  have hbytes : ∀ o t, o + t.length ≤ 1024 → t = (List.range t.length).map (fun i ↦
      Memory.ofWords (archiveWords textPhdr) (o + i)) → BytesAt s (0xffffffff80040000 + o) t := by
    intro o t hlen ht i b hi
    obtain ⟨hlt, -⟩ := List.getElem?_eq_some_iff.mp hi
    rw [ht, List.getElem?_map, List.getElem?_range hlt, Option.map_some] at hi
    rw [Nat.add_assoc, hbyte (o + i) (by omega), Option.some.inj hi]
  have hmagic : StringAt s (0xffffffff80040000 + 257) (cstr "ustar") :=
    ⟨hbytes 257 _ (by decide) (by decide +kernel), by decide⟩
  have hname : StringAt s (0xffffffff80040000 + 0) (cstr "a") :=
    ⟨hbytes 0 _ (by decide) (by decide +kernel), by decide⟩
  have hsize : s.oct2bin (0xffffffff80040000 + 124) = some ((512 : Nat) : Int) :=
    oct2bin_eq (hbytes 124 _ (by decide) (by decide +kernel)) (by decide)
  have hfive : (cstr "ustar").length < fuel + 63 := Nat.lt_add_left fuel (by decide)
  have hone : (cstr "a").length < fuel + 63 := Nat.lt_add_left fuel (by decide)
  rw [Machine.getFile, readString_eq hmagic hfive, Option.bind_some, if_pos (by decide), hsize,
    Option.bind_some, readString_eq hname hone, Option.bind_some, if_pos (by decide)]
  rfl

/-- The archive is found whatever happens to the free frames. -/
theorem callKernel_found
    (h : SameInUse 0x2000 (callKernel l).toMachine (List.range' 20 44) s) :
    s.getFile (cstr "a") 64 0xffffffff80040000 = some 0xffffffff80040200 := by
  refine archive_found 0 fun o _ ↦ ?_
  have hsub : 0xffffffff80040000 + o - kernBase = 0x40000 + o := by
    simp only [kernBase]
    omega
  rw [readByte_kernel (by simp only [kernBase]; omega), hsub,
    h _ (callKernel_settled l (Or.inr (by omega)))]
  change some (callMemory l _) = _
  rw [callMemory, if_pos (by omega), Nat.add_sub_cancel_left]

theorem callKernel_clear : NoUserEntry (callKernel l).mem (23 * 4096) := by
  intro i _
  have he : entry (callKernel l).mem (23 * 4096) i = entry (bootSpace 0x5007 0).mem (23 * 4096) i :=
    entry_congr (fun x hx hx' ↦ callMemory_low l (by omega) (by omega)) i
  rw [he, bootSpace_entry, bootWords_zero (by simp; omega) (by omega)]
  exact not_present_zero

/-- The caller's records lie below the free pages. -/
theorem callKernel_records : ForkReady (bootKernel 0x5007 0 0xffffffff8000e000) (List.range' 20 44)
    [0xffffffff8000e000, 0xffffffff8000f000] :=
  bootKernel_forkReady ⟨⟨rfl, rfl, rfl⟩, by decide⟩ (by simp)

theorem callKernel_caller :
    Caller (callKernel l) (List.range' 20 44) [] 0xffffffff8000e000 0xffffffff8000f000 0x8001 := by
  have hl := callKernel_records.vmas
  refine ⟨⟨⟨hl.chain, hl.ne_zero⟩, List.forall_mem_nil _, ⟨rfl, rfl⟩, ⟨rfl, rfl, rfl⟩, by decide⟩,
    fun a ha hw ↦ ?_, show 0xffffffff8000d000 ≠ 0 by decide, Nat.le_refl heapStart,
    show heapStart / 4096 + 1 < heapEnd / 4096 by decide⟩
  exact callKernel_records.vma a ha (windowOf_mono (List.subset_cons_self _ _) hw)

/-- The program has one page of the two that the arguments may take, which the caller's heap reaches
beyond. -/
theorem textPhdr_spare (hx : x = heapStart / 4096 ∨ x = heapStart / 4096 + 1)
    (hpage : ProgramPage (archiveElf textPhdr).phdrs x) : x < 0x8001 := by
  have hstart := heapStart_page
  have htop := userStackTop_page
  rcases hpage with ⟨ph, hph, hc⟩ | hpage | hpage
  · rw [List.mem_singleton.mp hph] at hc
    have hlt : x < 0x400 + 1 := hc.2.2
    omega
  · omega
  · omega

end

section
variable {t₁ t₂ : CString}

/-- A page with a name at 8 and a vector at 16, whose strings start at 48. -/
def argPage (t₁ t₂ : CString) : List UInt8 :=
  .replicate 8 0 ++ ((cstr "a" ++ [0]) ++ (.replicate 14 0 ++ (leBytes 8 48 ++
    (leBytes 8 (48 + (t₁.length + 1)) ++ (leBytes 8 (48 + (t₁.length + 1) + (t₂.length + 1)) ++
      ((t₁ ++ [0]) ++ ((t₂ ++ [0]) ++ [0])))))))

theorem argPage_length (h₁ : t₁.length < 50) (h₂ : t₂.length < 50) :
    (argPage t₁ t₂).length ≤ 4096 := by
  simp only [argPage, List.length_append, List.length_replicate, length_leBytes, List.length_singleton,
    show (cstr "a").length = 1 from rfl]
  omega

theorem argPage_holds {W : Nat → Option UInt8} (hW : HoldsAt W 0 (argPage t₁ t₂))
    (h₁ : t₁.length < 50 ∧ 0 ∉ t₁ ∧ t₁ ≠ []) (h₂ : t₂.length < 50 ∧ 0 ∉ t₂ ∧ t₂ ≠ []) :
    HoldsAt W 8 (cstr "a" ++ [0]) ∧ VectorAt (HoldsAt W) 16 1 [t₁, t₂] := by
  obtain ⟨-, h⟩ := holdsAt_append.mp hW
  obtain ⟨hname, h⟩ := holdsAt_append.mp h
  obtain ⟨-, h⟩ := holdsAt_append.mp h
  obtain ⟨hp₁, h⟩ := holdsAt_append.mp h
  obtain ⟨hp₂, h⟩ := holdsAt_append.mp h
  obtain ⟨hp₃, h⟩ := holdsAt_append.mp h
  obtain ⟨ht₁, h⟩ := holdsAt_append.mp h
  obtain ⟨ht₂, hend⟩ := holdsAt_append.mp h
  have hlen : ∀ t : CString, (t ++ [0]).length = t.length + 1 := fun t ↦ List.length_append
  simp only [List.length_replicate, length_leBytes, hlen] at hname hp₁ hp₂ hp₃ ht₁ ht₂ hend
  exact ⟨hname, ⟨48, hp₁, by decide, ht₁, h₁.2.1⟩, h₁.2.2, ⟨_, hp₂, by omega, ht₂, h₂.2.1⟩, h₂.2.2, _,
    hp₃, by omega, hend⟩

theorem argPage_call (t₁ t₂ : CString) (h₁ : t₁.length < 50 ∧ 0 ∉ t₁ ∧ t₁ ≠ [])
    (h₂ : t₂.length < 50 ∧ 0 ∉ t₂ ∧ t₂ ≠ []) :
    ExecCall 0x2000 (callKernel (argPage t₁ t₂)) (List.range' 20 44) 0xffffffff80040000 64 8 16
      0xffffffff80040200 (archiveElf textPhdr) (cstr "a") [t₁, t₂] [] 0xffffffff8000e000
      0xffffffff8000f000 0x8001 := by
  have hlen := argPage_length h₁.1 h₂.1
  -- the page holds the name, the vector and both strings
  obtain ⟨hname, hvector⟩ := argPage_holds (W := fun x ↦ (argPage t₁ t₂)[x]?)
    (fun i b hi ↦ by rwa [Nat.zero_add]) h₁ h₂
  have hsub : windowOf (List.range' 20 44) ⊆ windowOf (0 :: List.range' 20 44) :=
    windowOf_mono (List.subset_cons_self _ _)
  have hbrk : (callKernel (argPage t₁ t₂)).brk = heapStart := rfl
  refine ⟨(callKernel_space _).1, callKernel_caller _, fun hw ↦ callKernel_records.pcb (hsub hw),
    fun hw ↦ callKernel_records.mm (hsub hw),
    ⟨callKernel_userBytes _ hlen hname, by decide, by decide⟩,
    ⟨by decide, hvector.mono fun a t ↦ callKernel_userBytes _ hlen⟩,
    ⟨show 2 ≤ 9 by decide, ?_⟩, ?_,
    fun s ↦ callKernel_found _, callKernel_elf _, fun x hx hpage ↦ ?_, ?_, ?_⟩
  · intro t ht
    rcases List.mem_cons.mp ht with rfl | ht
    · exact h₁.1
    · rw [List.mem_singleton.mp ht]
      exact h₂.1
  · intro n hn
    obtain rfl : 23 = n := Option.some.inj hn
    exact callKernel_clear _
  · rw [hbrk] at hx
    exact textPhdr_spare hx hpage
  · rw [hbrk]
    decide
  · rw [hbrk]
    decide

end

/-! ## Which arguments are passed -/

/-- The call enters the new process, and passes it the arguments if and only if every one but the last
has fewer than 20 characters, or is followed by what comes behind its first 20. -/
theorem execve_args_iff (h : ExecCall w k free tarfs fuel file argv ehdr f name args l stack heap e) :
    ∃ ans as k', execveSyscall tarfs fuel file argv k = some (.done (.entered ans as) k') ∧
      (ArgsPassed k' (name :: args) ↔
        (name :: args).IsChain fun s t ↦ s.length < 20 ∨ t = s.drop 20) := by
  obtain ⟨ans, as, k', hrun, hpassed⟩ := execve_passed h
  exact ⟨ans, as, k', hrun, hpassed.trans intact_iff⟩

/-- Two short arguments. -/
theorem execve_args_short :
    ∃ ans as k', execveSyscall 0xffffffff80040000 64 8 16 (callKernel (argPage (cstr "-l") (cstr "/")))
      = some (.done (.entered ans as) k') ∧ ArgsPassed k' [cstr "a", cstr "-l", cstr "/"] := by
  obtain ⟨ans, as, k', hrun, hpassed⟩ :=
    execve_args_iff (argPage_call (cstr "-l") (cstr "/") (by decide) (by decide))
  exact ⟨ans, as, k', hrun, hpassed.mpr (by decide)⟩

/-- An argument of 20 characters loses its NUL to the next one. -/
theorem execve_args_twenty :
    ∃ ans as k', execveSyscall 0xffffffff80040000 64 8 16
        (callKernel (argPage (cstr "abcdefghijklmnopqrst") (cstr "u"))) =
          some (.done (.entered ans as) k') ∧
      ¬ ArgsPassed k' [cstr "a", cstr "abcdefghijklmnopqrst", cstr "u"] := by
  obtain ⟨ans, as, k', hrun, hpassed⟩ :=
    execve_passed (argPage_call (cstr "abcdefghijklmnopqrst") (cstr "u") (by decide) (by decide))
  refine ⟨ans, as, k', hrun, fun hall ↦ ?_⟩
  have hchain := intact_iff.mp (hpassed.mp hall)
  revert hchain
  decide

end Sbunix
