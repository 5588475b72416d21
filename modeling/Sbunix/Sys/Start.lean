import Sbunix.Sys.Boot
import Sbunix.Sys.DirectMap
import Sbunix.Sys.Isolation
import Sbunix.Sys.ProcRun
import Sbunix.Sys.Residue
import Mathlib.Data.List.Sort

/-!
# From the memory map to the first program (`start` in `sys/main.c`)

`start` sets up the allocator and the kernel's tables, makes the kernel process and the first user
process, and enters the program of the latter.  What the calls of the processes assume of the machine
holds from there.
-/

namespace Sbunix

open Reasoning PageAlloc

/-- `start` up to `phy2vir(limit)`. -/
def Machine.start (s : Machine) (fuel : Nat) (map : List Smap) (physbase physfree : Nat) :
    Option Machine :=
  (s.alloc.start map physbase physfree).bind fun (newPhysfree, alloc) ↦
    { s with alloc := alloc }.kernelTables fuel physbase newPhysfree (largest map).limit

/-- The pages that `init_pageTable` makes available, in the order in which they are handed out. -/
def bootPages (map : List Smap) (physbase physfree : Nat) : List Nat :=
  let b := largest map
  let table := tableEnd physfree b.limit
  List.range' (b.base / 4096) (physbase / 4096 - b.base / 4096) ++
    List.range' (table / 4096) (b.limit / 4096 - table / 4096)

/-- The frames of the kernel's tables. -/
def bootTables (limit : Nat) : Nat := 2 + (limit / 2 ^ 30 + 1) + max (limit / 2 ^ 21 + 1) 2

/-- A memory map whose largest region ends behind the kernel and below 2 GiB, with pages for the
kernel's tables. -/
structure BootMemory (map : List Smap) (physbase physfree : Nat) : Prop
    extends BootMap map physbase physfree where
  above : physbase / 4096 ≤ (largest map).limit / 4096
  below : (largest map).limit < 2 ^ 31
  room : bootTables (largest map).limit ≤ (bootPages map physbase physfree).length

variable {map : List Smap} {s s' : Machine} {physbase physfree n w r last fuel : Nat}
  {free free' : List Nat}

/-! ## The allocator -/

theorem setPage_lastPage {a a' : PageAlloc} {index : Nat} (h : a.setPage index = some a') :
    a'.lastPage = a.lastPage := by
  unfold PageAlloc.setPage at h
  split at h
  · rw [← Option.some.inj h]
  · split at h
    · obtain ⟨x, -, rfl⟩ := Option.map_eq_some_iff.mp h
      rfl
    · rw [← Option.some.inj h]

theorem setPages_lastPage {a a' : PageAlloc} {index left : Nat}
    (h : PageAlloc.setPages index left a = some a') : a'.lastPage = a.lastPage := by
  induction left generalizing index a with
  | zero => rw [← Option.some.inj h]
  | succ left ih =>
      rw [PageAlloc.setPages, Option.bind_eq_some_iff] at h
      obtain ⟨b, hb, h⟩ := h
      rw [ih h, setPage_lastPage hb]

/-- The two ranges are in address order. -/
theorem BootMap.sorted (h : BootMap map physbase physfree) :
    (bootPages map physbase physfree).Pairwise (· < ·) := by
  refine List.pairwise_append.mpr ⟨List.pairwise_lt_range', List.pairwise_lt_range', ?_⟩
  intro x hx y hy
  rw [List.mem_range'_1] at hx hy
  have hend : physfree < tableEnd physfree (largest map).limit := by
    rw [tableEnd]
    omega
  have hle := h.le
  omega

/-- The allocator hands out `bootPages`. -/
theorem BootMemory.alloc (h : BootMemory map physbase physfree) (a : PageAlloc) :
    ∃ a', a.start map physbase physfree = some (tableEnd physfree (largest map).limit, a') ∧
      FreeList a' (bootPages map physbase physfree) ∧
      a'.lastPage = (largest map).limit / 4096 := by
  have hlt : (largest map).limit < 2 ^ 64 := Nat.lt_trans h.below (by decide)
  obtain ⟨a', l, ha', hf, hmem⟩ := initPageTable_freeList a (largest map).base h.le hlt h.above
  obtain ⟨a₁, -, hlast, hdrained⟩ :=
    initPageTable_drained a physbase physfree (largest map).base hlt
  have hset := hdrained.symm.trans ha'
  obtain ⟨a₂, ha₂, he⟩ := Option.map_eq_some_iff.mp hset
  obtain rfl : a₂ = a' := (Prod.mk.inj he).2
  have hl : l = bootPages map physbase physfree := by
    refine List.Pairwise.eq_of_mem_iff (List.pairwise_append.mp hf.ascending.sorted).1
      h.toBootMap.sorted ?_
    intro x
    rw [hmem, bootPages, List.mem_append, List.mem_range'_1, List.mem_range'_1]
    omega
  exact ⟨a₂, ha', hl ▸ hf, (setPages_lastPage ha₂).trans hlast⟩

theorem BootMemory.physfree_lt (h : BootMemory map physbase physfree) : physfree < 2 ^ 33 := by
  obtain ⟨x, hx, ht, hb, hfree⟩ := h.image
  have hlarge := largestOf_largest h.bound
  have hmax := hlarge.max x hx ht
  have hlimit := (hlarge.bounds h.bound).1
  have habove := h.above
  have hbelow := h.below
  omega

/-! ## The window -/

/-- The tables that map physical memory are the window of which the rest of the kernel makes use. -/
theorem DirectUpTo.ready (h : DirectUpTo s.cr3 last (last + 1) s free) (hlast : last < 2 ^ 19)
    (hfree : ∀ n ∈ free, n ≤ last) :
    ∃ w, Ready w s free ∧ windowFrames s.mem w ⊆ tableFrames allEntries s.mem s.cr3 := by
  have hroot : s.cr3 ∈ tableFrames allEntries s.mem s.cr3 := self_mem_tables
  -- the table of every page is below the one that entry 511 leads to
  have htop : ∀ n, n ≤ last → ∃ w t, child allEntries s.mem 2 s.cr3 511 = some w ∧
      descend (child allEntries s.mem) 2 w (windowPath n) = some t := by
    intro n hn
    obtain ⟨t, ht⟩ := h.table (m := n) (by omega)
    have hk : kptr (n * 4096) = kernBase + n * 4096 := kptr_eq (by omega)
    rw [← hk] at ht
    change (child allEntries s.mem 2 s.cr3 (getIndex (kptr (n * 4096)) 39)).bind _ = _ at ht
    rw [kptr_index (by omega), Option.bind_eq_some_iff] at ht
    obtain ⟨w, hw, hd⟩ := ht
    exact ⟨w, t, hw, hd⟩
  obtain ⟨w, -, hw, -⟩ := htop 0 (Nat.zero_le _)
  have hlow : ∀ k < 2, child userEntries s.mem k = child allEntries s.mem k := fun k hk ↦
    funext fun t ↦ child_low (Nat.ne_of_lt hk)
  have hframes : windowFrames s.mem w = tables (child allEntries s.mem) 2 w :=
    tables_congr_below hlow w
  have hsub : windowFrames s.mem w ⊆ tableFrames allEntries s.mem s.cr3 := by
    rw [hframes]
    exact fun t ht ↦ mem_tables_child hw ht
  have htree := h.paged.tree.1 511 w hw
  refine ⟨w, ⟨h.paged.freeList, h.paged.free_lt, ⟨htree.1.congr_below hlow, ?_, fun n hn ↦ ?_, ?_⟩,
    h.paged.aligned _ hroot, ⟨?_, fun hf ↦ h.paged.free_fresh _ hf hroot⟩, hw⟩, hsub⟩
  · exact fun t ht ↦ h.paged.aligned t (hsub ht)
  · obtain ⟨w', t, hw', hd⟩ := htop n (hfree n hn)
    obtain rfl : w = w' := Option.some.inj (hw.symm.trans hw')
    exact ⟨t, (descend_congr_below hlow w _).trans hd⟩
  · exact fun f hf ht ↦ h.paged.free_fresh f hf (hsub ht)
  · rw [hframes]
    exact htree.2

/-- `start` has come from `s` to `s'`, at the end of `phy2vir`, and has written to the frames of tables
alone. -/
structure Started (map : List Smap) (physbase physfree w : Nat) (s s' : Machine) (free : List Nat) :
    Prop where
  ready : Ready w s' free
  direct : DirectMap s'.mem s'.cr3 (largest map).limit
  taken : ∃ k, bootPages map physbase physfree = k ++ free ∧
    k.length ≤ bootTables (largest map).limit ∧ windowFrames s'.mem w ⊆ framesOf k ∧
      ∀ x, x / 4096 ∉ k → s'.mem x = s.mem x

theorem BootMemory.started (h : BootMemory map physbase physfree) (s : Machine)
    (hfuel : tableEnd physfree (largest map).limit / 4096 + (largest map).limit / 4096 + 2 ≤ fuel) :
    ∃ s' w free, s.start fuel map physbase physfree = some s' ∧
      Started map physbase physfree w s s' free := by
  obtain ⟨a, ha, hf, hlast⟩ := h.alloc s.alloc
  have hfit : tableEnd physfree (largest map).limit ≤ 2 ^ 52 := by
    have hp := h.physfree_lt
    have hb := h.below
    rw [tableEnd]
    omega
  obtain ⟨s', free, hs', hup, ⟨k, hk, htab⟩, hlen, hbytes⟩ :=
    kernelTables_upTo (s := { s with alloc := a }) physbase hf hlast hfit hfuel h.room h.below
  have hlimit := h.below
  have hmem : ∀ n ∈ free, n ≤ (largest map).limit / 4096 := by
    intro n hn
    have hn' : n ∈ bootPages map physbase physfree := hk ▸ List.mem_append_right k hn
    have hlt := hf.ascending.lt_end hn'
    omega
  obtain ⟨w, hready, hsub⟩ := hup.ready (by omega) hmem
  refine ⟨s', w, free, ?_, hready, hup.directMap hlimit, k, hk, ?_, htab ▸ hsub, fun x hx ↦
    hbytes x ?_⟩
  · rw [Machine.start, ha, Option.bind_some]
    exact hs'
  · rw [hk, List.length_append] at hlen
    rw [bootTables]
    omega
  · rw [htab]
    rintro ⟨n, hn, he⟩
    exact hx (by rwa [show x / 4096 = n by omega])

/-- 31 MiB from the second page on, with the kernel behind the first 256 KiB. -/
def smallMap : List Smap := [⟨0x1000, 0x1fff000, 1⟩]

theorem smallMap_memory : BootMemory smallMap 0x40000 0x50000 where
  bound r hr := by
    rw [List.mem_singleton.mp hr]
    decide
  le := by decide
  image := ⟨⟨0x1000, 0x1fff000, 1⟩, List.mem_singleton_self _, rfl, by decide, by decide⟩
  above := by decide
  below := by decide
  room := by
    rw [bootPages, List.length_append, List.length_range', List.length_range']
    decide

namespace Kernel

/-- `kernProcess()`, with the address of `init_func`. -/
def kernProcess (k : Kernel) (initFunc : Nat) : Kernel :=
  let (init, s) := k.kmalloc
  let (kstack, s) := s.kmalloc
  { k.onMachine s with procs := k.procs.kernProcess init kstack s.cr3 initFunc }

/-- The PCB of the first user process when `loadElf` is called for it. -/
def initPcb (pid cr3 mm kstack initFunc : Nat) (filename : CString) : Pcb :=
  { pid := pid, ppid := 0, rip := initFunc, processState := .new, sleep := 0, alarm := 0,
    waitOnChildpid := noPid, processName := filename, curDir := cstr "/rootfs/bin/", numChild := 0,
    cr3 := cr3, mm := mm, initKern := kstack + 0x1000 - 16, kstack := kstack + 0x1000 - 16 }

/-- `userInitProcess` from `loadElf` on, for the PCB at `init`. -/
def loadInit (k : Kernel) (tarfs fuel : Nat) (filename : CString) (init prevCR3 : Nat) :
    Option Kernel :=
  (k.loadElf tarfs fuel filename init).bind fun k ↦
    -- linked in before `current`, behind the process that closes the ring
    (findPred k.procs.nextOf k.procs.current fuel k.procs.current).map fun temp ↦
      let procs := (k.procs.setNext temp init).setNext init k.procs.current
      { k with toMachine := k.loadCR3 prevCR3, procs := procs }

/-- `userInitProcess(filename)`, and the PCB that it returns. -/
def userInitProcess (k : Kernel) (tarfs fuel initFunc : Nat) (filename : CString) :
    Option (Nat × Kernel) :=
  let (init, s) := k.kmalloc
  let (pid, procs) := k.procs.getPID
  let (cr3, s) := s.setUserSpace
  let prevCR3 := s.cr3
  let (mm, s) := (s.loadCR3 cr3).kmalloc
  let (kstack, s) := s.kmalloc
  let procs := procs.modify init fun _ ↦ initPcb pid cr3 mm kstack initFunc filename
  let k := { (k.onMachine s).setMm mm {} with procs := procs }
  (k.loadInit tarfs fuel filename init prevCR3).map fun k ↦ (init, k)

/-- `switchToRing3(init)`; `iretq` goes to the `rip` and the `rsp` of the PCB. -/
def switchToRing3 (k : Kernel) (init : Nat) : Kernel :=
  { k with
    toMachine := k.loadCR3 (k.procs.pcbs init).cr3, procs := k.procs.switchToRing3 init }

/-- `start`, with the archive at `tarfs`: the index of the archive and the console are apart from what
is modelled here. -/
def start (k : Kernel) (tarfs fuel initFunc : Nat) (map : List Smap) (physbase physfree : Nat)
    (filename : CString) : Option Kernel :=
  (k.toMachine.start fuel map physbase physfree).bind fun s ↦
    let k := { k.onMachine s with procs := k.procs.mapProcessID }.kernProcess initFunc
    (k.userInitProcess tarfs fuel initFunc filename).map fun (init, k) ↦ k.switchToRing3 init

end Kernel

/-! ## The tables of the first program -/

theorem Kept.held (h : Kept w s free s' free') (hs : Ready w s free) :
    ∀ n ∈ free', ∀ o < 4096, s'.mem (n * 4096 + o) = s.mem (n * 4096 + o) := by
  obtain ⟨l, rfl, hl⟩ := h.taken
  intro n hn o ho
  have hnl : n ∉ l := fun hnl ↦ by
    have hd := hs.freeList.nodup
    rw [List.nodup_append] at hd
    exact hd.2.2 n hnl n hn rfl
  refine hl _ ?_ ?_
  · rw [frame_of_offset ho]
    exact hs.window.apart _ ⟨n, List.mem_append_right l hn, rfl⟩
  · rw [frame_of_offset ho, mem_framesOf]
    exact hnl

/-- The machine has come from `s` to `s'`, whose tables map nothing of the user's half; the frames that
are still free hold what they held. -/
structure FreshSpace (w : Nat) (s : Machine) (free : List Nat) (s' : Machine) (free' : List Nat) :
    Prop where
  space : Space w s' free'
  frames : windowFrames s'.mem w = windowFrames s.mem w
  tables : tableFrames userEntries s'.mem s'.cr3 ⊆ framesOf free
  empty : ∀ q, pageAt userEntries s'.mem s'.cr3 q = none
  inUse : SameInUse w s free s'
  held : ∀ n ∈ free', ∀ o < 4096, s'.mem (n * 4096 + o) = s.mem (n * 4096 + o)
  subset : free' ⊆ free

/-- `kmalloc` with the page that it takes. -/
theorem kmalloc_kept_eq (h : Ready w s (n :: free)) :
    ∃ s', s.kmalloc = (kptr (n * 4096), s') ∧ Kept w s (n :: free) s' free := by
  obtain ⟨hfst, hk⟩ := kmalloc_kept h
  exact ⟨s.kmalloc.2, Prod.ext hfst rfl, hk⟩

theorem FreshSpace.kmalloc (h : FreshSpace w s free s' (n :: free')) :
    ∃ s'', s'.kmalloc = (kptr (n * 4096), s'') ∧ s''.cr3 = s'.cr3 ∧
      FreshSpace w s free s'' free' := by
  obtain ⟨s'', hs'', hk⟩ := kmalloc_kept_eq h.space.ready
  have hsame := hk.sameOn h.space.user
  have hsub : free' ⊆ n :: free' := List.subset_cons_self n free'
  refine ⟨s'', hs'', hk.cr3, ⟨hk.ready, ?_⟩, hk.frames.trans h.frames, ?_, fun q ↦ ?_,
    h.inUse.trans hk.sameInUse h.frames h.subset, fun m hm o ho ↦ ?_, fun m hm ↦ h.subset (hsub hm)⟩
  · rw [hk.cr3]
    exact hk.userTree h.space.user
  · rw [hk.cr3, tableFrames_congr h.space.user.dvd hsame]
    exact h.tables
  · rw [hk.cr3, pageAt_congr h.space.user.dvd hsame]
    exact h.empty q
  · rw [hk.held h.space.ready m hm o ho, h.held m (hsub hm) o ho]

/-- `setUserSpace`, and its table in CR3. -/
theorem Kept.freshSpace (h : Kept w s free s' (n :: free')) (hs : Ready w s free)
    (hclear : NoUserEntry s.mem (n * 4096)) :
    ∃ s'', s'.setUserSpace = (n * 4096, s'') ∧
      FreshSpace w s free (s''.loadCR3 (n * 4096)) free' := by
  obtain ⟨ha, hnew⟩ :=
    setUserSpace_space h.ready (h.noUserEntry hs List.mem_cons_self hclear)
  obtain ⟨-, -, -, hm⟩ := setUserSpace_spec h.ready.freeList (h.ready.free_lt n List.mem_cons_self)
  have hmem := h.newSpace hnew
  refine ⟨_, Prod.ext ha rfl, hmem.space, hmem.frames, ?_, hmem.page_none, hmem.inUse,
    fun m hmf o ho ↦ ?_, hmem.subset⟩
  · change tableFrames userEntries s'.setUserSpace.2.mem (n * 4096) ⊆ _
    rw [hmem.tables, Set.singleton_subset_iff]
    exact hmem.root
  · -- the only store is to the new table
    have hne : m ≠ n := fun he ↦ h.ready.freeList.nodup_cons (he ▸ hmf)
    have h511 : (511 : Fin 512).val = 511 := rfl
    change s'.setUserSpace.2.mem _ = _
    rw [hm, Memory.store64_apply_of_lt (by omega)]
    exact h.held hs m (List.mem_cons_of_mem n hmf) o ho

/-! ## The image of the kernel -/

/-- The image of the kernel holds what it held. -/
def SameImage (physbase physfree : Nat) (s s' : Machine) : Prop :=
  ∀ x, physbase ≤ x → x < physfree → s'.mem x = s.mem x

/-- The archive in the image has the well-formed file `f` under `name`, with its header at `ehdr`. -/
structure InImage (s : Machine) (physbase physfree tarfs fuel : Nat) (name : CString) (ehdr : Nat)
    (f : Elf) : Prop where
  kernel : kernBase ≤ ehdr
  bound : ehdr + f.size < 2 ^ 64
  inside : physbase ≤ ehdr - kernBase ∧ ehdr - kernBase + f.size ≤ physfree
  found : ∀ s', SameImage physbase physfree s s' → s'.getFile name fuel tarfs = some ehdr
  elf : ∀ w s' free, SameImage physbase physfree s s' → FileAt w s' free ehdr f.size →
    f.At w s' free ehdr

theorem image_notMem {x : Nat} (hx : physbase ≤ x) (hx' : x < physfree) :
    x / 4096 ∉ bootPages map physbase physfree := by
  rw [bootPages, List.mem_append, List.mem_range'_1, List.mem_range'_1]
  have hend : physfree / 4096 < tableEnd physfree (largest map).limit / 4096 := by
    rw [tableEnd]
    omega
  omega

theorem Started.held (h : Started map physbase physfree w s s' free)
    (hm : BootMap map physbase physfree) :
    ∀ n ∈ free, ∀ o < 4096, s'.mem (n * 4096 + o) = s.mem (n * 4096 + o) := by
  obtain ⟨k, hk, -, -, hbytes⟩ := h.taken
  have hnodup : (k ++ free).Nodup := hk ▸ hm.sorted.imp fun hlt ↦ hlt.ne
  rw [List.nodup_append] at hnodup
  intro n hn o ho
  refine hbytes _ fun hmem ↦ hnodup.2.2 _ hmem n hn ?_
  omega

/-- What is taken from the pages of `bootPages` leaves the image alone. -/
theorem Started.sameImage {s'' : Machine} (h : Started map physbase physfree w s s' free)
    (hf : FreshSpace w s' free s'' free') : SameImage physbase physfree s s'' := by
  obtain ⟨k, hk, -, hwin, hbytes⟩ := h.taken
  intro x hx hx'
  have hnot : x / 4096 ∉ k ++ free := hk ▸ image_notMem hx hx'
  rw [List.mem_append, not_or] at hnot
  rw [hf.inUse x ⟨fun hm ↦ hnot.1 (mem_framesOf.mp (hwin hm)), fun hm ↦ hnot.2 (mem_framesOf.mp hm)⟩]
  exact hbytes x hnot.1

theorem Started.fileAt {s'' : Machine} {tarfs ehdr : Nat} {name : CString} {f : Elf}
    (h : Started map physbase physfree w s s' free) (hf : FreshSpace w s' free s'' free')
    (hi : InImage s physbase physfree tarfs fuel name ehdr f) : FileAt w s'' free' ehdr f.size := by
  obtain ⟨k, hk, -, hwin, -⟩ := h.taken
  have hnot : ∀ i < f.size, (ehdr - kernBase + i) / 4096 ∉ k ∧
      (ehdr - kernBase + i) / 4096 ∉ free := by
    intro i hlt
    obtain ⟨hlow, hhigh⟩ := hi.inside
    have hn : (ehdr - kernBase + i) / 4096 ∉ k ++ free :=
      hk ▸ image_notMem (by omega) (by omega)
    rwa [List.mem_append, not_or] at hn
  refine ⟨hi.kernel, hi.bound, fun i hlt hm ↦ ?_, fun i hlt hm ↦ ?_, fun i hlt hm ↦ ?_⟩
  · rw [hf.frames] at hm
    exact (hnot i hlt).1 (mem_framesOf.mp (hwin hm))
  · exact (hnot i hlt).2 (hf.subset (mem_framesOf.mp hm))
  · exact (hnot i hlt).2 (mem_framesOf.mp (hf.tables hm))

/-! ## The first program -/

section
variable {tarfs ehdr initFunc kern init : Nat} {name : CString} {f : Elf} {k : Kernel}

/-- The kernel process is alone on the ring when the first user process is linked in. -/
theorem findPred_boot (s₀ : Procs) (hne : kern ≠ init) (kstack cr3 initFunc fuel : Nat)
    (g : Pcb → Pcb) :
    let procs := (s₀.mapProcessID.kernProcess kern kstack cr3 initFunc).getPID.2.modify init g
    findPred procs.nextOf procs.current (fuel + 1) procs.current = some kern := by
  have hnext : ((s₀.mapProcessID.kernProcess kern kstack cr3 initFunc).getPID.2.modify init g).nextOf
      kern = kern := by
    rw [Procs.nextOf_modify, Function.update_of_ne hne, Procs.nextOf, Procs.getPID_pcbs]
    simp [Procs.kernProcess, Procs.modify]
  exact if_pos hnext

/-- The state in which the program of the first user process is entered. -/
structure FirstProgram (map : List Smap) (physbase physfree : Nat) (k : Kernel) (ehdr : Nat) (f : Elf)
    (kern init w : Nat) (free : List Nat) (k' : Kernel) : Prop where
  booted : Booted kern init k'.procs
  space : Space w k'.toMachine free
  cr3 : (k'.procs.pcbs init).cr3 = k'.cr3
  rip : (k'.procs.pcbs init).rip = f.entry
  rsp : (k'.procs.pcbs init).rsp = userStackTop + 4096 - 16
  mapped : ∀ v < 2 ^ 47, ProgramPage f.phdrs (v / 4096) → ∃ n ∈ bootPages map physbase physfree,
    k'.readByte v =
      some ((programImage (k.fileByte ehdr) f.phdrs v).getD (k.mem (n * 4096 + v % 4096)))
  unmapped : ∀ v < 2 ^ 47, ¬ProgramPage f.phdrs (v / 4096) → k'.readByte v = none

theorem StackEnds.loadElf {task : Nat} {k k' : Kernel} (h : StackEnds k)
    (hl : k.loadElf tarfs fuel name task = some k') : StackEnds k' := by
  obtain ⟨ehdr, -, hl⟩ := Option.bind_eq_some_iff.mp hl
  obtain ⟨c₁, -, hl⟩ := Option.bind_eq_some_iff.mp hl
  obtain ⟨c₂, -, hl⟩ := Option.bind_eq_some_iff.mp hl
  obtain ⟨c₃, -, hl⟩ := Option.bind_eq_some_iff.mp hl
  split at hl
  · exact h.loadProgram hl
  · obtain rfl := Option.some.inj hl
    exact h

theorem modify_modify (procs : Procs) (a : Nat) (g g' : Pcb → Pcb) :
    (procs.modify a g).modify a g' = procs.modify a fun p ↦ g' (g p) := by
  simp [Procs.modify]

/-- `loadElf` for the first user process finds its file in the image, where the pages that were taken
before have left it. -/
theorem FreshSpace.program {s'' : Kernel} {free'' : List Nat} (task : Nat)
    (hf : FreshSpace w s' free s''.toMachine free'')
    (h : Started map physbase physfree w k.toMachine s' free) (hm : BootMap map physbase physfree)
    (hi : InImage k.toMachine physbase physfree tarfs fuel name ehdr f)
    (hlen : f.frames ≤ free''.length) :
    ∃ k' A free', s''.loadElf tarfs fuel name task = some k' ∧
      Program w s'' free'' task ehdr f A k' free' ∧
      (∀ v < 2 ^ 47, ProgramPage f.phdrs (v / 4096) → ∃ n ∈ bootPages map physbase physfree,
        k'.readByte v =
          some ((programImage (k.fileByte ehdr) f.phdrs v).getD (k.mem (n * 4096 + v % 4096)))) ∧
      ∀ v < 2 ^ 47, ¬ProgramPage f.phdrs (v / 4096) → k'.readByte v = none := by
  have hsame := h.sameImage hf
  have hfile := h.fileAt hf hi
  have helf := hi.elf w _ _ hsame hfile
  obtain ⟨k', A, free', hk', hprog⟩ := loadFile_program task hf.space helf hlen
  refine ⟨k', A, free', ?_, hprog, fun v hv hp ↦ ?_, fun v hv hp ↦ ?_⟩
  · rw [Kernel.loadElf, hi.found _ hsame, Option.bind_some, hk']
  · obtain ⟨n, hn⟩ := Option.ne_none_iff_exists'.mp ((hprog.pages _).mpr hp)
    have hnf := (hprog.machine.owned _ n hn).1
    obtain ⟨l, hl, -⟩ := h.taken
    have hmod : v % 4096 < 4096 := Nat.mod_lt v (by decide)
    refine ⟨n, hl ▸ List.mem_append_right l (hf.subset hnf), ?_⟩
    rw [hprog.machine.readByte hf.space hv hn, hf.held n hnf _ hmod,
      h.held hm n (hf.subset hnf) _ hmod]
    refine congrArg (fun img : Nat → Option UInt8 ↦ some ((img v).getD _)) ?_
    have hin := hi.inside
    exact programImage_congr helf.fits fun x hx ↦ hsame _ (by omega) (by omega)
  · have hA : A (v / 4096) = none := not_not.mp fun hA ↦ hp ((hprog.pages _).mp hA)
    have hwalk := hprog.machine.pages v hv
    rw [hA, ← walk_user hv, hf.empty] at hwalk
    rw [Machine.readByte, translate_user hv, hwalk]
    rfl

/-- The tables of the process are in CR3 again. -/
theorem switchToRing3_loadCR3 {k : Kernel} {procs : Procs} {prevCR3 : Nat}
    (h : (procs.pcbs init).cr3 = k.cr3) :
    Kernel.switchToRing3 { k with toMachine := k.loadCR3 prevCR3, procs := procs } init =
      { k with procs := procs.switchToRing3 init } := by
  simp [Kernel.switchToRing3, Machine.loadCR3, h]

/-- The program is loaded, and its process is linked in and entered. -/
theorem FreshSpace.firstProgram {k₀ : Kernel} {free₀ : List Nat}
    {kstack cr3 prevCR3 pid c mm stack : Nat}
    (hf : FreshSpace w s' free₀ k₀.toMachine free)
    (h : Started map physbase physfree w k.toMachine s' free₀) (hm : BootMap map physbase physfree)
    (hi : InImage k.toMachine physbase physfree tarfs (fuel + 1) name ehdr f)
    (hlen : f.frames ≤ free.length) (hp : k.procs.last = 0 ∧ k.procs.zombie = 0)
    (hkern : kern ≠ 0) (hinit : init ≠ 0) (hne : kern ≠ init)
    (hpid : pid = (k.procs.mapProcessID.kernProcess kern kstack cr3 initFunc).getPID.1)
    (hprocs : k₀.procs = (k.procs.mapProcessID.kernProcess kern kstack cr3
      initFunc).getPID.2.modify init fun _ ↦ Kernel.initPcb pid c mm stack initFunc name)
    (hc : c = k₀.cr3) (hv : k₀.vmas = k.vmas) (hw : init ∉ windowOf free) :
    ∃ k' kern init' free', ((k₀.loadInit tarfs (fuel + 1) name init prevCR3).map fun k ↦
        (init, k)).map (fun (p : Nat × Kernel) ↦ p.2.switchToRing3 p.1) = some k' ∧
      FirstProgram map physbase physfree k ehdr f kern init' w free' k' ∧
      Isolated w k' [init'] free' ∧ (StackEnds k → StackEnds k') := by
  obtain ⟨k₁, A, free', hk₁, hprog, hmap, hun⟩ := hf.program init h hm hi hlen
  have hprocs₁ : k₁.procs = (k.procs.mapProcessID.kernProcess kern kstack cr3
      initFunc).getPID.2.modify init fun _ ↦ { Kernel.initPcb pid c mm stack initFunc name with
        rip := f.entry, rsp := userStackTop + 4096 - 16 } := by
    rw [hprog.procs, Kernel.setRsp, Kernel.setRip, hprocs]
    dsimp only
    rw [modify_modify, modify_modify]
  have hfind := findPred_boot k.procs hne kstack cr3 initFunc fuel fun _ ↦
    { Kernel.initPcb pid c mm stack initFunc name with
        rip := f.entry, rsp := userStackTop + 4096 - 16 }
  dsimp only at hfind
  rw [← hprocs₁] at hfind
  have hcr3 : k₁.cr3 = k₀.cr3 := hprog.machine.cr3
  have hpcb : ∀ q, (((k₁.procs.setNext kern init).setNext init q).pcbs init).cr3 = k₀.cr3 ∧
      (((k₁.procs.setNext kern init).setNext init q).pcbs init).rip = f.entry ∧
      (((k₁.procs.setNext kern init).setNext init q).pcbs init).rsp = userStackTop + 4096 - 16 := by
    intro q
    simp [hprocs₁, Procs.setNext, Procs.modify, hne.symm, Kernel.initPcb, hc]
  obtain ⟨hpc, hrip, hrsp⟩ := hpcb k₁.procs.current
  rw [Kernel.loadInit, hk₁, Option.bind_some, hfind, Option.map_some, Option.map_some,
    Option.map_some]
  dsimp only
  rw [switchToRing3_loadCR3 (hpc.trans hcr3.symm)]
  have hw' : init ∉ windowOf free' := fun hm ↦ hw (windowOf_mono hprog.machine.suffix.subset hm)
  have hiso (procs : Procs) (hroot : (procs.pcbs init).cr3 = k₁.cr3) :
      Isolated w { k₁ with procs := procs } [init] free' :=
    (Loaded.isolated (k := { k₁ with procs := procs }) hprog.machine hf.space hf.empty hroot hw').1
  refine ⟨_, kern, init, free', rfl, ⟨⟨hkern, hinit, hne, k.procs,
    (k₁.procs.setNext kern init).setNext init k₁.procs.current, kstack, cr3, initFunc, fuel + 1,
    ⟨init, c, mm, stack, f.entry, userStackTop + 4096 - 16, name⟩, hp.1, hp.2, rfl, ?_, rfl⟩,
    hprog.machine.space, hpc.trans hcr3.symm, hrip, hrsp, hmap, hun⟩,
    hiso _ (hpc.trans hcr3.symm), fun hs ↦ ?_⟩
  · rw [hprocs₁, hpid] at hfind ⊢
    exact Option.map_eq_some_iff.mpr ⟨kern, hfind, rfl⟩
  · have hload : StackEnds k₁ := StackEnds.loadElf (hs.congr hv) hk₁
    exact hload.congr rfl

/-- The two processes, and the tables of the second one with its program. -/
theorem Started.firstProgram {n₁ n₂ n₃ n₄ n₅ n₆ : Nat}
    (h : Started map physbase physfree w k.toMachine s' (n₁ :: n₂ :: n₃ :: n₄ :: n₅ :: n₆ :: free))
    (hm : BootMap map physbase physfree) (hp : k.procs.last = 0 ∧ k.procs.zombie = 0)
    (hclear : NoUserEntry k.mem (n₄ * 4096))
    (hi : InImage k.toMachine physbase physfree tarfs (fuel + 1) name ehdr f)
    (hlen : f.frames ≤ free.length) (initFunc : Nat) :
    ∃ k' kern init free', (({ k.onMachine s' with procs := k.procs.mapProcessID }.kernProcess
        initFunc).userInitProcess tarfs (fuel + 1) initFunc name).map (fun (p : Nat × Kernel) ↦
          p.2.switchToRing3 p.1) = some k' ∧
      FirstProgram map physbase physfree k ehdr f kern init w free' k' ∧
      Isolated w k' [init] free' ∧ (StackEnds k → StackEnds k') := by
  have hr := h.ready
  have hheld := h.held hm
  -- two pages for the kernel process, then one for the PCB and the topmost table
  obtain ⟨s₁, hs₁, hk₁⟩ := kmalloc_kept_eq hr
  obtain ⟨s₂, hs₂, hk₂⟩ := kmalloc_kept_eq hk₁.ready
  obtain ⟨s₃, hs₃, hk₃⟩ := kmalloc_kept_eq hk₂.ready
  have hclear' : NoUserEntry s'.mem (n₄ * 4096) := by
    intro i hi
    have hsame : ∀ x, n₄ * 4096 ≤ x → x < n₄ * 4096 + 4096 → s'.mem x = k.mem x := by
      intro x hx hx'
      have ho := hheld n₄ (by simp) (x - n₄ * 4096) (by omega)
      rwa [Nat.add_sub_cancel' hx] at ho
    rw [entry_congr hsame]
    exact hclear i hi
  obtain ⟨s₄, hs₄, hf₄⟩ := ((hk₁.trans hk₂).trans hk₃).freshSpace hr hclear'
  obtain ⟨s₅, hs₅, hc₅, hf₅⟩ := hf₄.kmalloc
  obtain ⟨s₆, hs₆, hc₆, hf₆⟩ := hf₅.kmalloc
  have hne : n₁ ≠ n₃ := fun he ↦ by
    have hd := hr.freeList.nodup
    simp [he] at hd
  have hlt₁ := hr.free_lt n₁ (by simp)
  have hlt₃ := hr.free_lt n₃ (by simp)
  have hout : kptr (n₃ * 4096) ∉ windowOf free := fun hm ↦
    not_mem_windowOf hk₂.ready.free_lt hk₂.ready.freeList.nodup_cons
      (windowOf_mono (List.subset_append_right [n₄, n₅, n₆] free) hm)
  simp only [Kernel.userInitProcess, Kernel.kernProcess, Kernel.onMachine, hs₁, hs₂, hs₃, hs₄, hs₅,
    hs₆]
  exact FreshSpace.firstProgram hf₆ h hm hi hlen hp (kptr_ne_zero (n₁ * 4096))
    (kptr_ne_zero (n₃ * 4096)) (fun he ↦ hne (kptr_page_inj hlt₁ hlt₃ he)) rfl rfl
    (hc₆.trans hc₅).symm rfl hout

/-- `start` comes to its end, with the first user process alone in the user's half. -/
theorem BootMemory.enters (h : BootMemory map physbase physfree)
    (hp : k.procs.last = 0 ∧ k.procs.zombie = 0)
    (hclear : ∀ n ∈ bootPages map physbase physfree, NoUserEntry k.mem (n * 4096))
    (hi : InImage k.toMachine physbase physfree tarfs fuel name ehdr f)
    (hroom : bootTables (largest map).limit + 6 + f.frames ≤
      (bootPages map physbase physfree).length)
    (hfuel : tableEnd physfree (largest map).limit / 4096 + (largest map).limit / 4096 + 2 ≤ fuel) :
    ∃ k' kern init w free,
      k.start tarfs fuel initFunc map physbase physfree name = some k' ∧
      FirstProgram map physbase physfree k ehdr f kern init w free k' ∧
      Isolated w k' [init] free ∧ (StackEnds k → StackEnds k') := by
  obtain ⟨s', w, free, hs', hst⟩ := h.started k.toMachine hfuel
  obtain ⟨l, hl, hlen, -⟩ := hst.taken
  obtain ⟨fuel, rfl⟩ : ∃ m, fuel = m + 1 := ⟨fuel - 1, by omega⟩
  rw [hl, List.length_append] at hroom
  have hsix : 6 + f.frames ≤ free.length := by omega
  obtain _ | ⟨n₁, _ | ⟨n₂, _ | ⟨n₃, _ | ⟨n₄, _ | ⟨n₅, _ | ⟨n₆, free⟩⟩⟩⟩⟩⟩ := free
  case cons.cons.cons.cons.cons.cons =>
    have hmem : n₄ ∈ bootPages map physbase physfree := by
      rw [hl]
      simp
    simp only [List.length_cons] at hsix
    obtain ⟨k', kern, init, free', hk', hfirst⟩ :=
      hst.firstProgram h.toBootMap hp (hclear n₄ hmem) hi (by omega) initFunc
    refine ⟨k', kern, init, w, free', ?_, hfirst⟩
    rw [Kernel.start, hs', Option.bind_some]
    exact hk'
  all_goals
    simp only [List.length_cons, List.length_nil] at hsix
    omega

/-- For any memory map with room for the tables and the program, and an image with the file of the
first user process, `start` enters the program of the file in tables of its own, which map its pages
and nothing else of the user's half; the rest of the kernel starts from there. -/
theorem start_program (h : BootMemory map physbase physfree)
    (hp : k.procs.last = 0 ∧ k.procs.zombie = 0)
    (hclear : ∀ n ∈ bootPages map physbase physfree, NoUserEntry k.mem (n * 4096))
    (hi : InImage k.toMachine physbase physfree tarfs fuel name ehdr f)
    (hroom : bootTables (largest map).limit + 6 + f.frames ≤
      (bootPages map physbase physfree).length)
    (hfuel : tableEnd physfree (largest map).limit / 4096 + (largest map).limit / 4096 + 2 ≤ fuel) :
    ∃ k' kern init w free,
      k.start tarfs fuel initFunc map physbase physfree name = some k' ∧
      FirstProgram map physbase physfree k ehdr f kern init w free k' := by
  obtain ⟨k', kern, init, w, free, hk', hfirst, -⟩ := h.enters hp hclear hi hroom hfuel
  exact ⟨k', kern, init, w, free, hk', hfirst⟩

end

/-! ## An image with one program -/

/-- The words of a machine with the archive as the image of its kernel. -/
def imageWords (w : Nat) : Nat := if 0x8000 ≤ w then archiveWords textPhdr (w - 0x8000) else 0

/-- A kernel before `start`. -/
def imageKernel : Kernel :=
  { bootKernel 0 0 0 with mem := Memory.ofWords imageWords, cr3 := 0, alloc := ⟨fun _ ↦ 0, 0, 0, 0⟩ }

theorem imageKernel_mem {o : Nat} :
    imageKernel.mem (0x40000 + o) = Memory.ofWords (archiveWords textPhdr) o := by
  change Memory.ofWords imageWords _ = _
  rw [Memory.ofWords, Memory.ofWords, imageWords, if_pos (by omega),
    show (0x40000 + o) / 8 - 0x8000 = o / 8 by omega, show (0x40000 + o) % 8 = o % 8 by omega]

theorem archiveWords_zero {ph : Phdr} {i : Nat} (h : 80 ≤ i) : archiveWords ph i = 0 := by
  rw [archiveWords, if_neg (by omega), if_neg (by omega), if_neg (by omega), if_neg (by omega),
    if_pos (by omega), elfWords, if_neg (by omega), if_neg (by omega), if_neg (by omega),
    if_neg (by omega), if_neg (by omega), if_neg (by omega), if_neg (by omega), if_neg (by omega),
    if_neg (by omega), if_neg (by omega)]

/-- The pages that are handed out are behind the archive, or before it. -/
theorem imageKernel_clear (hn : n ∈ bootPages smallMap 0x40000 0x50000) :
    NoUserEntry imageKernel.mem (n * 4096) := by
  have hpage : n < 64 ∨ 80 ≤ n := by
    by_contra hn'
    have hnot : n * 4096 / 4096 ∉ bootPages smallMap 0x40000 0x50000 :=
      image_notMem (by omega) (by omega)
    rw [Nat.mul_div_cancel _ (by decide)] at hnot
    exact hnot hn
  intro i _
  have he : entry imageKernel.mem (n * 4096) i = imageWords (512 * n + i.val) % 2 ^ 64 := by
    rw [entry, show n * 4096 + 8 * i.val = 8 * (512 * n + i.val) by omega]
    exact Memory.load64_ofWords (f := imageWords)
  have hzero : imageWords (512 * n + i.val) = 0 := by
    rw [imageWords]
    split
    · exact archiveWords_zero (by omega)
    · rfl
  rw [he, hzero]
  exact not_present_zero

theorem imageKernel_inImage : InImage imageKernel.toMachine 0x40000 0x50000 0xffffffff80040000
    0x5000 (cstr "a") 0xffffffff80040200 (archiveElf textPhdr) where
  kernel := by decide
  bound := by decide
  inside := by decide
  found s' h := by
    refine archive_found 0x4fc0 fun o ho ↦ ?_
    have hsub : 0xffffffff80040000 + o - kernBase = 0x40000 + o := by
      simp only [kernBase]
      omega
    rw [readByte_kernel (by simp only [kernBase]; omega), hsub, h _ (by omega) (by omega),
      imageKernel_mem]
  elf w s' free h hf := by
    have hat := (archiveKernel_archived textPhdr rfl ⟨by decide, by decide, by decide⟩ (by decide)
      (by decide) fun g ↦ rfl).elf
    refine hat.congr hf fun i hi ↦ ?_
    have hsub : 0xffffffff80040200 - kernBase + i = 0x40200 + i := rfl
    change i < 512 at hi
    rw [Machine.fileByte, Machine.fileByte, hsub, h _ (by omega) (by omega),
      show 0x40200 + i = 0x40000 + (0x200 + i) by omega, imageKernel_mem]
    refine .symm ((if_pos (by omega)).trans ?_)
    rw [Nat.add_sub_cancel_left]

theorem imageKernel_room : bootTables (largest smallMap).limit + 6 + (archiveElf textPhdr).frames ≤
    (bootPages smallMap 0x40000 0x50000).length := by
  rw [bootPages, List.length_append, List.length_range', List.length_range']
  decide

theorem start_program_archive : ∃ k' kern init w free,
    imageKernel.start 0xffffffff80040000 0x5000 0 smallMap 0x40000 0x50000 (cstr "a") = some k' ∧
      FirstProgram smallMap 0x40000 0x50000 imageKernel 0xffffffff80040200 (archiveElf textPhdr) kern
        init w free k' :=
  start_program smallMap_memory ⟨rfl, rfl⟩ (fun _ hn ↦ imageKernel_clear hn) imageKernel_inImage
    imageKernel_room (by decide)

end Sbunix
