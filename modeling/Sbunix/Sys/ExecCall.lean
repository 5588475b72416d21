import Sbunix.Sys.ExecArgs

/-!
# The arguments that a new program finds

`execLoad` leaves the number of the arguments on the new program's stack, and an array of pointers to
them.  An argument of 20 characters or more ends with what the next one has written over it.
-/

namespace Sbunix

open Reasoning Kernel KernelM Machine

variable {k k' : Kernel} {s s' : Machine} {free free' l : List Nat} {t name : CString}
  {w p q e a n x r fuel tarfs file argv ehdr ans stack heap : Nat} {args ts : List CString} {f : Elf}
  {u : UserStack} {W : Nat → Option UInt8}

/-! ## Loading -/

theorem readByte_of_readBytes {c : UInt8} (h : s.readBytes a 1 = some c.toNat) :
    s.readByte a = some c := by
  rw [readBytes] at h
  obtain ⟨b, hb, h⟩ := Option.bind_eq_some_iff.mp h
  obtain ⟨r, hr, he⟩ := Option.map_eq_some_iff.mp h
  obtain rfl : 0 = r := Option.some.inj hr
  rw [hb, ← UInt8.toNat_inj.mp (show b.toNat = c.toNat by omega)]

theorem isElf_eq (h : f.At w k.toMachine free ehdr) (hf : 0 < fuel) :
    isElf fuel ehdr k = some (.done true k) := by
  obtain ⟨h₁, h₂, h₃⟩ := h.magic
  refine bind_done.mpr ⟨0x45, k, loadByte_eq (readByte_of_readBytes h₁) hf, ?_⟩
  rw [if_pos rfl]
  refine bind_done.mpr ⟨0x4c, k, loadByte_eq (readByte_of_readBytes h₂) hf, ?_⟩
  rw [if_pos rfl]
  refine bind_done.mpr ⟨0x46, k, loadByte_eq (readByte_of_readBytes h₃) hf, ?_⟩
  exact pure_done.mpr ⟨rfl, rfl⟩

/-- The program is loaded, with frames to spare. -/
theorem execProgram_program (h₀ : Space w k.toMachine free) (hf : f.At w k.toMachine free ehdr)
    (hlen : f.frames ≤ free.length) (hfuel : 0 < fuel) :
    ∃ k' A free', execProgram fuel p ehdr k = some (.done () k') ∧
      free.length ≤ free'.length + f.frames ∧ Program w k free p ehdr f A k' free' := by
  obtain ⟨k', A, free', hk', hlen', hp⟩ := loadProgram_program p h₀ hf hlen
  refine ⟨k', A, free', bind_done.mpr ⟨true, k, isElf_eq hf hfuel, ?_⟩, hlen', hp⟩
  rw [if_pos rfl]
  exact attempt_done.mpr hk'

theorem placeArgs_procs {y : List (Nat × CString)}
    (hrun : placeArgs fuel ans u n a k = some (.done y k')) : k'.procs = k.procs := by
  induction n generalizing a k y with
  | zero =>
      obtain ⟨-, rfl⟩ := pure_done.mp hrun
      rfl
  | succ n ih =>
      obtain ⟨arg, k₁, h₁, hrun₁⟩ := bind_done.mp hrun
      obtain ⟨rest, k₂, h₂, hrun₂⟩ := bind_done.mp hrun₁
      obtain ⟨-, rfl⟩ := pure_done.mp hrun₂
      obtain ⟨_, k₃, h₃, hrun₃⟩ := bind_done.mp h₁
      obtain ⟨_, k₄, h₄, hrun₄⟩ := bind_done.mp hrun₃
      obtain ⟨_, k₅, h₅, hrun₅⟩ := bind_done.mp hrun₄
      obtain ⟨_, k₆, h₆, hrun₆⟩ := bind_done.mp hrun₅
      obtain ⟨-, rfl⟩ := pure_done.mp hrun₆
      obtain ⟨-, rfl⟩ := call_done.mp h₃
      obtain ⟨-, rfl⟩ := ask_done.mp h₅
      rw [ih h₂, (quiet_storeString fuel _ _ _ _ _ h₆).procs,
        (quiet_storeBytes fuel _ _ 8 _ _ _ h₄).procs]
      rfl

/-! ## The arguments under the new tables -/

theorem setRsp_rsp (k : Kernel) (task rsp : Nat) :
    ((k.setRsp task rsp).procs.pcbs task).rsp = rsp := by
  change (Function.update k.procs.pcbs task _ task).rsp = rsp
  rw [Function.update_self]

/-- The caller's records are not in free pages, and its heap has room for the arguments. -/
structure Caller (k : Kernel) (free l : List Nat) (stack' heap' e : Nat) : Prop
    extends HeapVmas k l stack' heap' e where
  vmas : ∀ a ∈ l ++ [stack', heap'], a ∉ windowOf free
  mm : k.curMm ≠ 0
  low : heapStart ≤ k.brk
  high : k.brk / 4096 + 1 < heapEnd / 4096

/-- Where the new program's stack pointer is: at the array of its arguments, with their number above
it. -/
def argsTop : Nat := userStackTop + 4096 - 32

/-- The array, its blocks and the words on the stack are among the bytes `W`. -/
structure ArgsAt (W : Nat → Option UInt8) (ans : Nat) (ts : List CString) : Prop where
  blocks : BlocksAt W ans 0 ts
  argc : HoldsAt W (argsTop + 8) (leBytes 8 ts.length)
  argv : HoldsAt W argsTop (leBytes 8 ans)

/-- The two words on the stack are written last. -/
theorem BlocksAt.argsAt (h : BlocksAt W ans 0 ts) (hlow : ∀ x, W x ≠ none → x < argsTop) :
    ArgsAt (putAt argsTop (leBytes 8 ans) (putAt (argsTop + 8) (leBytes 8 ts.length) W)) ans
      ts := by
  have hkeep : ∀ x, W x ≠ none →
      putAt argsTop (leBytes 8 ans) (putAt (argsTop + 8) (leBytes 8 ts.length) W) x = W x := by
    intro x hx
    have hlt := hlow x hx
    rw [putAt_of_lt (Or.inl hlt), putAt_of_lt (Or.inl (Nat.lt_of_lt_of_le hlt (Nat.le_add_right _ 8)))]
  refine ⟨fun i t ls hi ↦ ?_, ?_, holdsAt_putAt _ _ _⟩
  · obtain ⟨hptr, ht⟩ := h i t ls hi
    exact ⟨hptr.mono hkeep, ht.mono hkeep⟩
  · refine (holdsAt_putAt _ _ _).congr fun x hx _ ↦ putAt_of_lt (Or.inr ?_)
    rw [length_leBytes]
    exact hx

/-- The tables at `r` map nothing yet, the file is found, and the frames suffice for the program and
the pages of the arguments. -/
structure ProgramFor (w : Nat) (k : Kernel) (free : List Nat) (tarfs fuel p r ehdr e : Nat) (f : Elf) :
    Prop where
  space : Space w (k.loadCR3 r) free
  empty : ∀ v < 2 ^ 47, (k.loadCR3 r).walk v = none
  cr3 : (k.procs.pcbs p).cr3 = r
  found : (k.loadCR3 r).getFile (k.procs.pcbs p).processName fuel tarfs = some ehdr
  elf : f.At w (k.loadCR3 r) free ehdr
  spare : ∀ x, x = k.brk / 4096 ∨ x = k.brk / 4096 + 1 → ProgramPage f.phdrs x → x < e
  frames : f.frames + 4 * (k.brk / 4096 + 2 - e + 4) ≤ free.length

theorem faultsLeft_le (p e : Nat) (A : Nat → Option Nat) : faultsLeft p e A ≤ p + 2 - e + 4 := by
  unfold faultsLeft
  split <;> split <;> omega

/-- The loader leaves the caller's heap alone, which then takes the arguments. -/
theorem Program.argState {A : Nat → Option Nat}
    (h : Program w (k.onMachine (k.loadCR3 r)) free p ehdr f A k' free')
    (hc : HeapVmas k' l stack heap e) (hmm : k'.curMm ≠ 0)
    (hp : ProgramFor w k free tarfs fuel p r ehdr e f) (hlen : free.length ≤ free'.length + f.frames)
    (hfuel : l.length + (e - (k.brk / 4096 + 2)) + (k.brk / 4096 + 2 - e) + 10 ≤ fuel) :
    ArgState w (k.loadCR3 r) free fuel (k.brk / 4096) l stack heap (fun _ ↦ none) k' A e free' := by
  have hle := faultsLeft_le (k.brk / 4096) e A
  have hfr := hp.frames
  refine ⟨⟨_, h.machine, fun a c hw ↦ by cases hw⟩, fun a hw ↦ absurd rfl hw, hc, hmm,
    Or.inr fun x hx hA ↦ hp.spare x hx ((h.pages x).mp hA), ?_, by omega, by omega⟩
  exact (h.pages _).mpr (Or.inr (Or.inl rfl))

/-- The program is loaded for `p`, and the caller's heap is as it was. -/
theorem ProgramFor.load (hp : ProgramFor w k free tarfs fuel p r ehdr e f)
    (hc : Caller k free l stack heap e) (hne : k.curMm ≠ (k.procs.pcbs p).mm)
    (hfuel : l.length + (e - (k.brk / 4096 + 2)) + (k.brk / 4096 + 2 - e) + 10 ≤ fuel) :
    ∃ k' A free', execProgram fuel p ehdr (k.onMachine (k.loadCR3 r)) = some (.done () k') ∧
      ArgState w (k.loadCR3 r) free fuel (k.brk / 4096) l stack heap (fun _ ↦ none) k' A e free' ∧
      k'.brk = k.brk ∧ (k'.procs.pcbs p).rsp = userStackTop + 4096 - 16 ∧
      ∀ q, (k'.procs.pcbs q).cr3 = (k.procs.pcbs q).cr3 := by
  have hlen : f.frames ≤ free.length := Nat.le_trans (Nat.le_add_right _ _) hp.frames
  have hpos : 0 < fuel := by omega
  obtain ⟨k', A, free', hrun, hlen', hprog⟩ :=
    execProgram_program (k := k.onMachine (k.loadCR3 r)) hp.space hp.elf hlen hpos
  obtain ⟨hload, -⟩ := execProgram_done hrun rfl
  obtain ⟨_, _, _, hlink, -⟩ := hprog.vmas
  have hmm : k'.mms k.curMm = k.mms k.curMm := hload.mms _ hne
  refine ⟨k', A, free', hrun, hprog.argState (hc.toHeapVmas.congr
    (fun a ha ↦ hlink.vmas a (hc.vmas a ha)) hload.curMm (congrArg Mm.mmap hmm))
    (by rw [hload.curMm]; exact hc.mm) hp hlen' hfuel, ?_, ?_, fun q ↦ ?_⟩
  · rw [Kernel.brk, hload.curMm]
    exact congrArg Mm.brk hmm
  · rw [hprog.procs]
    exact setRsp_rsp _ p _
  · exact hprog.cr3 q

/-- The number of arguments and the address of the array go to the stack. -/
theorem ArgState.stackWords {s₀ : Machine} {A : Nat → Option Nat}
    (h : ArgState w s₀ free fuel q l stack heap W k A e free') (h₀ : Space w s₀ free)
    (hnew : ∀ v < 2 ^ 47, s₀.walk v = none)
    (hq : heapStart / 4096 ≤ q ∧ q + 1 < heapEnd / 4096) (hblocks : BlocksAt W ans 0 ts)
    (hlow : ∀ x, W x ≠ none → x < argsTop) :
    ∃ k₁ k' W' A' e' free'',
      KernelM.storeBytes fuel (argsTop + 8) ts.length 8 k = some (.done () k₁) ∧
      KernelM.storeBytes fuel argsTop ans 8 k₁ = some (.done () k') ∧
      ArgState w s₀ free fuel q l stack heap W' k' A' e' free'' ∧ ArgsAt W' ans ts := by
  have htop : argsTop = 0x22222000 * 4096 + 4064 := rfl
  have hpage := userStackTop_page
  obtain ⟨k₁, A₁, e₁, free₁, h₁, hs₁⟩ := h.storeBytes (v := argsTop + 8) (x := ts.length) (n := 8)
    h₀ hnew hq fun i hi ↦ Or.inr (by omega)
  obtain ⟨k', A', e', free'', h₂, hs'⟩ := hs₁.storeBytes (v := argsTop) (x := ans) (n := 8)
    h₀ hnew hq fun i hi ↦ Or.inr (by omega)
  exact ⟨k₁, k', _, A', e', free'', h₁, h₂, hs', hblocks.argsAt hlow⟩

theorem execLoad_args (hc : Caller k free l stack heap e)
    (hp : ProgramFor w k free tarfs fuel p r ehdr e f) (hne : k.curMm ≠ (k.procs.pcbs p).mm)
    (hfuel : l.length + (e - (k.brk / 4096 + 2)) + (k.brk / 4096 + 2 - e) + 10 ≤ fuel)
    (hlen : ts.length ≤ 10) (hrows : RowsAt u ts) :
    ∃ y k' W A e' free', execLoad tarfs fuel p ts.length u k = some (.done y k') ∧
      ArgState w (k.loadCR3 r) free fuel (k.brk / 4096) l stack heap W k' A e' free' ∧
      ArgsAt W k.brk ts ∧ (k'.procs.pcbs p).rsp = argsTop ∧
      ∀ q, (k'.procs.pcbs q).cr3 = (k.procs.pcbs q).cr3 := by
  have hlow := hc.low
  have hhigh := hc.high
  have hstart := heapStart_page
  have hend := heapEnd_page
  have htop : argsTop = 0x22222000 * 4096 + 4064 := rfl
  have hroom : heapStart / 4096 ≤ k.brk / 4096 ∧ k.brk / 4096 + 1 < heapEnd / 4096 := by omega
  obtain ⟨k₁, A, free₁, h₁, hs₁, hb₁, hrsp₁, hcr₁⟩ := hp.load hc hne hfuel
  have hb₂ : (k₁.mallocSyscall 800).2.brk = k.brk + 800 + 20 * 0 := by
    rw [mallocSyscall_brk, hb₁]
    omega
  obtain ⟨args, k₂, W, A₂, e₂, free₂, h₂, hs₂, hblocks, -, -, hwritten⟩ :=
    (hs₁.mallocSyscall 800).placeArgs hp.space hp.empty hroom rfl hb₂
      (show 0 + ts.length ≤ 10 by omega) fun i t hi ↦ by
        rw [Nat.zero_add]
        exact hrows i t hi
  have hprocs : k₂.procs = k₁.procs := (placeArgs_procs h₂).trans rfl
  -- the tables are loaded once more, and the two words go to the stack
  have hloaded : k₂.loadCR3 r = k₂.toMachine := by
    obtain ⟨img, hl, -⟩ := hs₂.machine
    rw [← (show k₂.cr3 = r from hl.cr3)]
    rfl
  have hs₂' : ArgState w (k.loadCR3 r) free fuel (k.brk / 4096) l stack heap W
      (k₂.onMachine (k₂.loadCR3 r)) A₂ e₂ free₂ := by
    rw [hloaded]
    exact hs₂.congr rfl rfl rfl rfl
  obtain ⟨k₃, k₄, W', A₄, e₄, free₄, h₃, h₄, hs₄, hargs⟩ := hs₂'.stackWords hp.space hp.empty hroom
    hblocks fun x hx ↦ by
      have := (hwritten x hx).resolve_left (not_not.mpr rfl)
      omega
  have hrec := (quiet_storeBytes fuel _ _ 8 _ _ _ h₃).trans (quiet_storeBytes fuel _ _ 8 _ _ _ h₄)
  have hprocs₄ : k₄.procs = k₁.procs := hrec.procs.trans hprocs
  refine ⟨(k.brk, args), k₄.setRsp p argsTop, W', A₄, e₄, free₄, ?_,
    hs₄.congr rfl rfl (setRsp_owner k₄ p _ _) rfl, hargs, setRsp_rsp _ p _, fun q ↦ ?_⟩
  · have hptr : ((k₂.onMachine (k₂.loadCR3 r)).procs.pcbs p).rsp = userStackTop + 4096 - 16 := by
      rw [onMachine_procs, hprocs, hrsp₁]
    have htop₈ : sub64 (userStackTop + 4096 - 16) 8 = argsTop + 8 := by decide
    have htop₁₆ : sub64 (userStackTop + 4096 - 16) 16 = argsTop := by decide
    simp only [execLoad, bind_done, read_done, modify_done, ask_done, call_done, pure_done, and_assoc,
      exists_eq_left, exists_and_left, exists_const, hp.cr3, mallocSyscall_fst]
    refine ⟨ehdr, hp.found, (), k₁, h₁, args, k₂, hb₁ ▸ h₂, (), k₃, ?_, (), k₄, ?_, ?_, ?_⟩
    · rw [hptr, htop₈]
      exact h₃
    · rw [hptr, htop₁₆, hb₁]
      exact h₄
    · rw [hb₁]
    · rw [hptr, htop₁₆]
  · rw [setRsp_field (g := Pcb.cr3) (fun _ _ ↦ rfl), hprocs₄, hcr₁]

/-! ## What the program finds -/

/-- The program that runs finds these arguments: their number above its stack pointer, and there the
address of an array of pointers to them.  `_start` takes them from the stack in this order. -/
def ArgsPassed (k : Kernel) (ts : List CString) : Prop :=
  let sp := (k.procs.pcbs k.procs.current).rsp
  k.readBytes (sp + 8) 8 = some ts.length ∧ ∃ ans, k.readBytes sp 8 = some ans ∧
    ∀ i t, ts[i]? = some t →
      ∃ p, k.readBytes (ans + 8 * i) 8 = some p ∧ StringAt k.toMachine p t

theorem StringAt.unique {t' : CString} (h : StringAt s a t) (h' : StringAt s a t') : t = t' := by
  have hr := readString_eq h (Nat.lt_add_of_pos_right (Nat.succ_pos t'.length))
  have hr' := readString_eq h' (show t'.length < t.length + (t'.length + 1) by omega)
  exact Option.some.inj (hr.symm.trans hr')

/-- The arguments are passed if no one has been overwritten by those behind it. -/
theorem ArgsAt.passed_iff (h : ArgsAt W ans ts)
    (hread : ∀ a t, HoldsAt W a t → BytesAt k.toMachine a t)
    (hsp : (k.procs.pcbs k.procs.current).rsp = argsTop) (hans : ans < heapEnd)
    (hlen : ts.length ≤ 10) (hzero : ∀ t ∈ ts, 0 ∉ t) : ArgsPassed k ts ↔ Intact 20 ts := by
  have hend : heapEnd = 0x10000 * 4096 := rfl
  have hget : ∀ i t, ts[i]? = some t → ∃ ls, ts.drop i = t :: ls ∧
      k.readBytes (ans + 8 * i) 8 = some (ans + 800 + 20 * i) ∧
      StringAt k.toMachine (ans + 800 + 20 * i) (overrun 20 t ls) := by
    intro i t hi
    obtain ⟨hlt, rfl⟩ := List.getElem?_eq_some_iff.mp hi
    have hd := List.drop_eq_getElem_cons hlt
    obtain ⟨hptr, ht⟩ := h.blocks i _ _ hd
    rw [Nat.zero_add] at hptr ht
    refine ⟨_, hd, readBytes_leBytes (hread _ _ hptr) (by omega), hread _ _ ht,
      overrun_notMem fun m hm ↦ hzero m ?_⟩
    exact List.mem_of_mem_drop (hd ▸ hm)
  have hargc : k.readBytes (argsTop + 8) 8 = some ts.length :=
    readBytes_leBytes (hread _ _ h.argc) (by omega)
  have hargv : k.readBytes argsTop 8 = some ans := readBytes_leBytes (hread _ _ h.argv) (by omega)
  unfold ArgsPassed
  rw [hsp]
  constructor
  · -- the pointers are those of the blocks, and at each of them stands one string only
    rintro ⟨-, ans', hans', hall⟩
    obtain rfl : ans = ans' := Option.some.inj (hargv.symm.trans hans')
    refine intact_get fun i t ls hi ↦ ?_
    have hi' : ts[i]? = some t := by rw [← List.head?_drop, hi, List.head?_cons]
    obtain ⟨p, hp, ht⟩ := hall i t hi'
    obtain ⟨ls', hls, hp', ht'⟩ := hget i t hi'
    obtain rfl : p = _ := Option.some.inj (hp.symm.trans hp')
    obtain ⟨-, rfl⟩ := List.cons.inj (hls.symm.trans hi)
    exact ht'.unique ht
  · refine fun hintact ↦ ⟨hargc, ans, hargv, fun i t hi ↦ ?_⟩
    obtain ⟨ls, hls, hp, ht⟩ := hget i t hi
    rw [hintact.get hls] at ht
    exact ⟨_, hp, ht⟩

end Sbunix
