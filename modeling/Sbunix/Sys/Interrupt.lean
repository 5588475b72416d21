import Sbunix.Reasoning.StackWords

/-!
# The interrupt entries (`sys/interrupt.s`, `irq_handler2` of `sys/isr.c`)

The processor pushes the context it leaves on the kernel stack, the entry pushes the registers over it
and calls a C function, and everything is popped again.  A C function is what it makes of the machine
between its call and its `ret`.
-/

namespace Sbunix

open Reasoning

inductive Reg where
  | rax | rbx | rcx | rdx | rsi | rdi | rbp | r8 | r9 | r10 | r11 | r12 | r13 | r14 | r15
deriving DecidableEq, Repr

/-- The registers that a C function leaves as they are. -/
def calleeSaved : List Reg := [.rbx, .rbp, .r12, .r13, .r14, .r15]

/-- The machine, and the global `pos` of `interrupt.s`. -/
structure Cpu extends StackMachine Reg where
  rip : UInt64
  cs : UInt64
  rflags : UInt64
  ss : UInt64
  pos : UInt64

/-- The instructions of the entries. -/
inductive Insn where
  | push (r : Reg)
  | pushImm (v : UInt64)
  | pop (r : Reg)
  | addRsp (n : UInt64)
  | movRspPos
  | movRspRdi
  | cli
  | call (ret : UInt64)

/-- Bit 9 of RFLAGS: interrupts are taken. -/
def interruptFlag : UInt64 := 0x200

namespace Cpu

/-- An instruction; `handler` is the C function that is called, `ret` the address behind its call. -/
def exec (handler : Cpu → Cpu) (c : Cpu) : Insn → Cpu
  | .push r => { c with toStackMachine := c.push (c.regs r) }
  | .pushImm v => { c with toStackMachine := c.push v }
  | .pop r => { c with toStackMachine := c.pop r }
  | .addRsp n => { c with toStackMachine := c.drop n }
  | .movRspPos => { c with pos := c.sp }
  | .movRspRdi => { c with regs := Function.update c.regs .rdi c.sp }
  | .cli => { c with rflags := c.rflags &&& ~~~interruptFlag }
  | .call ret =>
      let c := handler { c with toStackMachine := c.push ret }
      { c with toStackMachine := c.drop 8 }

/-- Where the processor puts its frame: from ring 3 on the stack of the TSS, else on the current one,
down to a multiple of 16. -/
def frameBase (c : Cpu) (rsp0 : UInt64) : UInt64 :=
  (if c.cs &&& 3 = 3 then rsp0 else c.sp) &&& ~~~15

/-- The words that the processor pushes; a page fault has an error code. -/
def frame (c : Cpu) (err : Option UInt64) : List UInt64 :=
  [c.ss, c.sp, c.rflags, c.cs, c.rip] ++ err.toList

/-- An interrupt through a gate of `idt_gate` (`sel` is 0x08): TF, NT and RF are cleared, and so is IF
as all gates are interrupt gates. -/
def deliver (c : Cpu) (rsp0 entry : UInt64) (err : Option UInt64) : Cpu :=
  { c with
    toStackMachine :=
      (c.frame err).foldl StackMachine.push { c.toStackMachine with sp := c.frameBase rsp0 },
    rip := entry, cs := 8, ss := if c.cs &&& 3 = 3 then 0 else c.ss,
    rflags := c.rflags &&& ~~~(interruptFlag ||| 0x14100) }

/-- `iretq` pops five words. -/
def iretq (c : Cpu) : Cpu :=
  let a := c.sp.toNat
  { c with
    sp := c.mem.word (a + 24), rip := c.mem.word a, cs := c.mem.word (a + 8),
    rflags := c.mem.word (a + 16), ss := c.mem.word (a + 32) }

/-- The whole of an interrupt, from one instruction of the interrupted code to the next. -/
def interrupt (c : Cpu) (rsp0 entry : UInt64) (err : Option UInt64) (stub : List Insn)
    (handler : Cpu → Cpu) : Cpu :=
  (stub.foldl (exec handler) (c.deliver rsp0 entry err)).iretq

end Cpu

/-- In the order in which `irq_common_stub` and `irq_common_stub1` push them. -/
def stubRegs : List Reg :=
  [.rax, .rbx, .rcx, .rdx, .rsi, .rdi, .rbp, .r8, .r9, .r10, .r11, .r12, .r13, .r14, .r15]

def irqCommonStub (ret : UInt64) : List Insn :=
  [.push .rax, .push .rbx, .push .rcx, .push .rdx, .push .rsi, .push .rdi, .push .rbp, .push .r8,
    .push .r9, .push .r10, .push .r11, .push .r12, .push .r13, .push .r14, .push .r15,
    .call ret,
    .pop .r15, .pop .r14, .pop .r13, .pop .r12, .pop .r11, .pop .r10, .pop .r9, .pop .r8, .pop .rbp,
    .pop .rdi, .pop .rsi, .pop .rdx, .pop .rcx, .pop .rbx, .pop .rax]

def timerRoutine (ret : UInt64) : List Insn := irqCommonStub ret

/-- `irq_common_stub1` differs from `irq_common_stub` in the function that it calls alone. -/
def keyboardRoutine (ret : UInt64) : List Insn := .cli :: irqCommonStub ret

def irqCommonStub2 (ret : UInt64) : List Insn :=
  [.movRspPos,
    .push .rdi, .push .rax, .push .rbx, .push .rcx, .push .rdx, .push .rbp, .push .rsi, .push .r8,
    .push .r9, .movRspRdi, .call ret,
    .pop .r9, .pop .r8, .pop .rsi, .pop .rbp, .pop .rdx, .pop .rcx, .pop .rbx, .pop .rax, .pop .rdi,
    .addRsp 16]

/-- `isr14`: the processor has pushed the error code. -/
def isr14 (ret : UInt64) : List Insn := .pushImm 14 :: irqCommonStub2 ret

def syscallRoutine (ret : UInt64) : List Insn := .pushImm 0 :: .pushImm 128 :: irqCommonStub2 ret

/-- `registers_t`, in the order of its words. -/
structure Registers where
  r9 : UInt64
  r8 : UInt64
  rsi : UInt64
  rbp : UInt64
  rdx : UInt64
  rcx : UInt64
  rbx : UInt64
  rax : UInt64
  rdi : UInt64
  intNo : UInt64
  errCode : UInt64
  rip : UInt64
  cs : UInt64
  rflags : UInt64
  rsp : UInt64
  ss : UInt64
deriving DecidableEq, Repr

def Registers.words (t : Registers) : List UInt64 :=
  [t.r9, t.r8, t.rsi, t.rbp, t.rdx, t.rcx, t.rbx, t.rax, t.rdi, t.intNo, t.errCode, t.rip, t.cs,
    t.rflags, t.rsp, t.ss]

/-- The register that a field is loaded into. -/
def Registers.get (t : Registers) : Reg → UInt64
  | .r9 => t.r9
  | .r8 => t.r8
  | .rsi => t.rsi
  | .rbp => t.rbp
  | .rdx => t.rdx
  | .rcx => t.rcx
  | .rbx => t.rbx
  | .rax => t.rax
  | .rdi => t.rdi
  | .r10 | .r11 | .r12 | .r13 | .r14 | .r15 => 0

/-- `irq_handler2(regs)` outside the first return of a forked child (`childFlag` is 0): what is left in
`*regs`.  `none`: it prints a message and spins. -/
def irqHandler2 (syscall : UInt64 → UInt64 → UInt64 → UInt64 → UInt64) (t : Registers) :
    Option Registers :=
  if t.intNo = 0 ∨ t.intNo = 10 ∨ t.intNo = 13 then none
  -- `pageFault` only reads the error code
  else if t.intNo = 14 then some t
  else if t.intNo = 128 then some { t with rax := syscall t.rax t.rbx t.rcx t.rdx }
  else some t

/-! ## One entry -/

/-- The calling convention: a C function that is called in `c` comes back with the stack pointer, with
the callee-saved registers, and with the words `ws` on the stack. -/
structure Returns (handler : Cpu → Cpu) (c : Cpu) (ws : List UInt64) : Prop where
  sp : (handler c).sp = c.sp
  saved : ∀ r ∈ calleeSaved, (handler c).regs r = c.regs r
  words : (handler c).mem.Words c.sp.toNat ws

/-- The two contexts differ in nothing that code at `c` can tell from its registers. -/
structure SameContext (c d : Cpu) : Prop where
  regs : d.regs = c.regs
  sp : d.sp = c.sp
  rip : d.rip = c.rip
  cs : d.cs = c.cs
  rflags : d.rflags = c.rflags
  ss : d.ss = c.ss

namespace Cpu

variable {c d : Cpu} {handler : Cpu → Cpu} {rsp0 entry ret : UInt64} {err : Option UInt64}

theorem exec_pushes (handler : Cpu → Cpu) (c : Cpu) (rs : List Reg) :
    (rs.map Insn.push).foldl (exec handler) c =
      { c with toStackMachine := (rs.map c.regs).foldl StackMachine.push c.toStackMachine } := by
  induction rs generalizing c with
  | nil => rfl
  | cons r rs ih =>
      rw [List.map_cons, List.foldl_cons, ih]
      rfl

theorem exec_pops (handler : Cpu → Cpu) (c : Cpu) (rs : List Reg) :
    (rs.map Insn.pop).foldl (exec handler) c =
      { c with toStackMachine := rs.foldl StackMachine.pop c.toStackMachine } := by
  induction rs generalizing c with
  | nil => rfl
  | cons r rs ih =>
      rw [List.map_cons, List.foldl_cons, ih]
      rfl

/-- The machine at the first instruction of the C function. -/
def atCall (c : Cpu) (rs : List Reg) (ret : UInt64) : Cpu :=
  { c with toStackMachine := (rs.map c.regs ++ [ret]).foldl StackMachine.push c.toStackMachine }

theorem exec_save (handler : Cpu → Cpu) (c : Cpu) (rs : List Reg) (ret : UInt64) :
    (rs.map Insn.push ++ .call ret :: rs.reverse.map Insn.pop).foldl (exec handler) c =
      let d := handler (c.atCall rs ret)
      { d with toStackMachine := rs.reverse.foldl StackMachine.pop (d.drop 8) } := by
  rw [List.foldl_append, exec_pushes, List.foldl_cons, exec_pops, atCall, List.foldl_append]
  rfl

/-- Where the call of the C function leaves the registers' words as `f`, the registers are loaded with
these, and the rest of the stack is what comes next. -/
theorem popped_of_returns {a : Nat} (rs : List Reg) (f : Reg → UInt64) (ws : List UInt64)
    (ha : a < 2 ^ 64) (hsp : d.sp.toNat + 8 * (rs.length + 1) = a)
    (hr : Returns handler d (ret :: (rs.map f ++ ws))) :
    ((handler d).drop 8).Popped rs f (rs.foldl StackMachine.pop ((handler d).drop 8)) ∧
      (rs.foldl StackMachine.pop ((handler d).drop 8)).sp.toNat = a ∧
      (handler d).mem.Words a ws := by
  have hdrop : ((handler d).drop 8).sp.toNat = d.sp.toNat + 8 := by
    have h8 : (8 : UInt64).toNat = 8 := rfl
    rw [StackMachine.drop_sp (by rw [hr.sp, h8]; omega), hr.sp, h8]
  have hwords := Memory.words_append.mp hr.words.2
  have hpop := StackMachine.popped_popAll (s := (handler d).drop 8) (hdrop ▸ hwords.1)
    (by rw [hdrop]; omega)
  have htop : d.sp.toNat + 8 + 8 * (rs.map f).length = a := by
    rw [List.length_map]
    omega
  refine ⟨hpop, ?_, htop ▸ hwords.2⟩
  rw [hpop.sp, hdrop]
  omega

/-- `iretq` from the frame of `c`. -/
theorem sameContext_iretq (hregs : d.regs = c.regs)
    (hw : d.mem.Words d.sp.toNat [c.rip, c.cs, c.rflags, c.sp, c.ss]) : SameContext c d.iretq :=
  ⟨hregs, hw.2.2.2.1, hw.1, hw.2.1, hw.2.2.1, hw.2.2.2.2.1⟩

/-- The stub of the device interrupts, where the words that the C function leaves are those of `c`. -/
theorem irqCommonStub_restores (hroom : 128 ≤ d.sp.toNat)
    (hr : Returns handler (d.atCall stubRegs ret)
      (ret :: (stubRegs.reverse.map c.regs ++ [c.rip, c.cs, c.rflags, c.sp, c.ss]))) :
    SameContext c ((irqCommonStub ret).foldl (exec handler) d).iretq ∧
      ((irqCommonStub ret).foldl (exec handler) d).iretq.mem =
        (handler (d.atCall stubRegs ret)).mem := by
  have hstub : irqCommonStub ret =
    stubRegs.map Insn.push ++ .call ret :: stubRegs.reverse.map Insn.pop := rfl
  have hpush : d.Pushed (stubRegs.map d.regs ++ [ret]) (d.atCall stubRegs ret).toStackMachine :=
    StackMachine.pushed_pushAll hroom
  obtain ⟨hpop, hsp, hws⟩ := popped_of_returns _ _ _ d.sp.toNat_lt hpush.sp hr
  rw [hstub, exec_save]
  refine ⟨sameContext_iretq (funext fun r ↦ ?_) ?_, hpop.mem⟩
  · refine (hpop.regs r).trans (if_pos (List.mem_reverse.mpr ?_))
    cases r <;> decide
  · have hmem := hpop.mem
    rw [hsp, hmem]
    exact hws

/-- `d` is in the kernel with the frame of `c` on the stack, which begins at `base`. -/
structure Delivered (c : Cpu) (base : UInt64) (err : Option UInt64) (d : Cpu) : Prop where
  regs : d.regs = c.regs
  sp : d.sp.toNat + 8 * (c.frame err).length = base.toNat
  words : d.mem.Words d.sp.toNat (c.frame err).reverse
  mem : ∀ x, x < d.sp.toNat ∨ base.toNat ≤ x → d.mem x = c.mem x

theorem delivered (c : Cpu) (rsp0 : UInt64) (err : Option UInt64)
    (hroom : 8 * (c.frame err).length ≤ (c.frameBase rsp0).toNat) (entry : UInt64) :
    c.Delivered (c.frameBase rsp0) err (c.deliver rsp0 entry err) := by
  have h : StackMachine.Pushed { c.toStackMachine with sp := c.frameBase rsp0 } (c.frame err)
      (c.deliver rsp0 entry err).toStackMachine := StackMachine.pushed_pushAll hroom
  exact ⟨h.regs, h.sp, h.words, h.mem⟩

end Cpu

/-! ## Interrupts between the instructions of a user program -/

/-- A C function that an interrupt calls: it keeps to the calling convention, leaves the stack that it
was called on as it is, 21 words of it, and does not write to the user's memory `U`. -/
structure CFunction (U : Set Nat) where
  run : Cpu → Cpu
  sp : ∀ c, (run c).sp = c.sp
  saved : ∀ c, ∀ r ∈ calleeSaved, (run c).regs r = c.regs r
  stack : ∀ c x, c.sp.toNat ≤ x → x < c.sp.toNat + 168 → (run c).mem x = c.mem x
  user : ∀ c, ∀ x ∈ U, (run c).mem x = c.mem x

/-- What a user program can see of the machine. -/
structure SameView (U : Set Nat) (c d : Cpu) : Prop extends SameContext c d where
  user : ∀ x ∈ U, d.mem x = c.mem x

/-- The instructions of a user program: what one does is determined by the registers and the user's
memory, and ring 3 is left by interrupts alone. -/
structure UserProgram (U : Set Nat) where
  step : Cpu → Cpu
  congr : ∀ {c d}, SameView U c d → SameView U (step c) (step d)
  ring3 : ∀ {c}, c.cs &&& 3 = 3 → (step c).cs &&& 3 = 3

/-- An instruction of the program, or an interrupt of the timer or the keyboard. -/
inductive UserEvent (U : Set Nat) where
  | instr
  | timer (entry ret : UInt64) (handler : CFunction U)
  | keyboard (entry ret : UInt64) (handler : CFunction U)

def UserEvent.isInstr {U : Set Nat} : UserEvent U → Bool
  | .instr => true
  | .timer _ _ _ | .keyboard _ _ _ => false

def UserProgram.exec {U : Set Nat} (p : UserProgram U) (rsp0 : UInt64) (c : Cpu) : UserEvent U → Cpu
  | .instr => p.step c
  | .timer entry ret h => c.interrupt rsp0 entry none (timerRoutine ret) h.run
  | .keyboard entry ret h => c.interrupt rsp0 entry none (keyboardRoutine ret) h.run

variable {U : Set Nat} {c d : Cpu} {rsp0 entry ret : UInt64}

theorem SameView.refl (U : Set Nat) (c : Cpu) : SameView U c c :=
  ⟨⟨rfl, rfl, rfl, rfl, rfl, rfl⟩, fun _ _ ↦ rfl⟩

theorem SameView.trans {e : Cpu} (h : SameView U c d) (h' : SameView U d e) : SameView U c e where
  regs := h'.regs.trans h.regs
  sp := h'.sp.trans h.sp
  rip := h'.rip.trans h.rip
  cs := h'.cs.trans h.cs
  rflags := h'.rflags.trans h.rflags
  ss := h'.ss.trans h.ss
  user x hx := (h'.user x hx).trans (h.user x hx)

theorem CFunction.returns (h : CFunction U) {ws : List UInt64} (hlen : ws.length ≤ 21)
    (hw : c.mem.Words c.sp.toNat ws) : Returns h.run c ws :=
  ⟨h.sp c, h.saved c, hw.congr fun x hx hx' ↦ h.stack c x hx (by omega)⟩

/-- The stub with a C function that leaves the stack alone, after an interrupt at `c`. -/
theorem CFunction.sameView (h : CFunction U) {base : UInt64} (hd : c.Delivered base none d)
    (hroom : 168 ≤ base.toNat) (hU : ∀ x ∈ U, x + 168 < base.toNat ∨ base.toNat ≤ x) :
    SameView U c ((irqCommonStub ret).foldl (Cpu.exec h.run) d).iretq := by
  have hsp : d.sp.toNat + 40 = base.toNat := hd.sp
  have hpush : d.Pushed (stubRegs.map d.regs ++ [ret]) (d.atCall stubRegs ret).toStackMachine :=
    StackMachine.pushed_pushAll (show 128 ≤ d.sp.toNat by omega)
  have hcall : (d.atCall stubRegs ret).sp.toNat + 128 = d.sp.toNat := hpush.sp
  have hwords := hpush.under hd.words
  rw [List.reverse_append, ← List.map_reverse, hd.regs] at hwords
  obtain ⟨hctx, hm⟩ := Cpu.irqCommonStub_restores (by omega) (h.returns (Nat.le_refl 21) hwords)
  refine ⟨hctx, fun x hx ↦ ?_⟩
  have hx' := hU x hx
  rw [hm, h.user _ x hx, hpush.mem x (by omega), hd.mem x (by omega)]

/-- One interrupt of a user program. -/
theorem UserProgram.exec_sameView (p : UserProgram U) {e : UserEvent U} (he : ¬e.isInstr)
    (h3 : c.cs &&& 3 = 3) (hroom : 168 ≤ (rsp0 &&& ~~~15).toNat)
    (hU : ∀ x ∈ U, x + 168 < (rsp0 &&& ~~~15).toNat ∨ (rsp0 &&& ~~~15).toNat ≤ x) :
    SameView U c (p.exec rsp0 c e) := by
  have hbase : c.frameBase rsp0 = rsp0 &&& ~~~15 := by rw [Cpu.frameBase, if_pos h3]
  rw [← hbase] at hroom hU
  have hd := Cpu.delivered c rsp0 none (Nat.le_trans (by decide : 40 ≤ 168) hroom)
  cases e with
  | instr => exact absurd rfl he
  | timer entry ret h => exact h.sameView (hd entry) hroom hU
  | keyboard entry ret h =>
      -- `cli` changes nothing that the stub reads
      have hcli : c.Delivered (c.frameBase rsp0) none ((c.deliver rsp0 entry none).exec h.run .cli) :=
        ⟨(hd entry).regs, (hd entry).sp, (hd entry).words, (hd entry).mem⟩
      rw [UserProgram.exec, Cpu.interrupt, keyboardRoutine, List.foldl_cons]
      exact h.sameView hcli hroom hU

/-- A user program runs the same with and without the interrupts of the devices, in any order and any
number of them. -/
theorem interrupts_transparent (p : UserProgram U) (events : List (UserEvent U)) (c : Cpu)
    (h3 : c.cs &&& 3 = 3) (hroom : 168 ≤ (rsp0 &&& ~~~15).toNat)
    (hU : ∀ x ∈ U, x + 168 < (rsp0 &&& ~~~15).toNat ∨ (rsp0 &&& ~~~15).toNat ≤ x) :
    SameView U (p.step^[events.countP UserEvent.isInstr] c) (events.foldl (p.exec rsp0) c) := by
  suffices h : ∀ d, SameView U d c → d.cs &&& 3 = 3 →
      SameView U (p.step^[events.countP UserEvent.isInstr] d) (events.foldl (p.exec rsp0) c) from
    h c (.refl U c) h3
  induction events generalizing c with
  | nil => exact fun d hdc _ ↦ hdc
  | cons e events ih =>
      intro d hdc hd3
      rw [List.foldl_cons, List.countP_cons]
      cases he : e.isInstr with
      | true =>
          rw [if_pos rfl, Function.iterate_succ_apply]
          obtain rfl : e = .instr := by
            cases e with
            | instr => rfl
            | _ => cases he
          exact ih _ (p.ring3 h3) _ (p.congr hdc) (p.ring3 hd3)
      | false =>
          rw [if_neg Bool.false_ne_true]
          have hview := p.exec_sameView (e := e) (by rw [he]; exact Bool.false_ne_true) h3 hroom hU
          exact ih _ (by rw [hview.cs]; exact h3) d (hdc.trans hview) hd3

/-- Adds one to `rax` with every instruction. -/
def countUp (U : Set Nat) : UserProgram U where
  step c := { c with regs := Function.update c.regs .rax (c.regs .rax + 1), rip := c.rip + 4 }
  congr h := ⟨⟨by rw [h.regs], h.sp, by rw [h.rip], h.cs, h.rflags, h.ss⟩, h.user⟩
  ring3 h := h

/-- A C function that uses all registers that it need not save. -/
def clobber (U : Set Nat) : CFunction U where
  run c := { c with regs := fun r ↦ if r ∈ calleeSaved then c.regs r else 0 }
  sp _ := rfl
  saved _ _ hr := if_pos hr
  stack _ _ _ _ := rfl
  user _ _ _ := rfl

/-- A user context with all registers 5. -/
def fives : Cpu :=
  { regs := fun _ ↦ 5, sp := 0x800, mem := fun _ ↦ 0, rip := 0x400, cs := 0x2B, rflags := 0x202,
    ss := 0x23, pos := 0 }

theorem interrupts_transparent_fives :
    SameView {x | x < 0x1000} ((countUp {x | x < 0x1000}).step^[2] fives)
      ([.instr, .timer 0 0 (clobber _), .keyboard 0 0 (clobber _), .instr].foldl
        ((countUp {x | x < 0x1000}).exec 0x2000) fives) := by
  refine interrupts_transparent (countUp {x | x < 0x1000})
    [.instr, .timer 0 0 (clobber _), .keyboard 0 0 (clobber _), .instr] fives rfl (by decide) ?_
  intro x hx
  have hx' : x < 0x1000 := hx
  have hbase : ((0x2000 : UInt64) &&& ~~~15).toNat = 0x2000 := by decide
  omega

/-! ## System calls and page faults -/

/-- What is entered through `irq_common_stub2`. -/
inductive Trap where
  | pageFault (errCode : UInt64)
  | syscall

namespace Trap

def err : Trap → Option UInt64
  | .pageFault e => some e
  | .syscall => none

def stub : Trap → UInt64 → List Insn
  | .pageFault _, ret => isr14 ret
  | .syscall, ret => syscallRoutine ret

/-- The `registers_t` of a context. -/
def registers (k : Trap) (c : Cpu) : Registers where
  r9 := c.regs .r9
  r8 := c.regs .r8
  rsi := c.regs .rsi
  rbp := c.regs .rbp
  rdx := c.regs .rdx
  rcx := c.regs .rcx
  rbx := c.regs .rbx
  rax := c.regs .rax
  rdi := c.regs .rdi
  intNo := match k with
    | .pageFault _ => 14
    | .syscall => 128
  errCode := match k with
    | .pageFault e => e
    | .syscall => 0
  rip := c.rip
  cs := c.cs
  rflags := c.rflags
  rsp := c.sp
  ss := c.ss

/-- What is in `rax` afterwards. -/
def result (sys : UInt64 → UInt64 → UInt64 → UInt64 → UInt64) (c : Cpu) : Trap → UInt64
  | .pageFault _ => c.regs .rax
  | .syscall => sys (c.regs .rax) (c.regs .rbx) (c.regs .rcx) (c.regs .rdx)

end Trap

theorem irqHandler2_registers (sys : UInt64 → UInt64 → UInt64 → UInt64 → UInt64) (k : Trap)
    (c : Cpu) :
    irqHandler2 sys (k.registers c) = some { k.registers c with rax := k.result sys c } := by
  cases k <;> rfl

/-- In the order in which `irq_common_stub2` pushes them: not `r10` to `r15`. -/
def stub2Regs : List Reg := [.rdi, .rax, .rbx, .rcx, .rdx, .rbp, .rsi, .r8, .r9]

namespace Cpu

variable {k : Trap} {t : Registers}

/-- The machine at `irq_common_stub2`. -/
def atStub2 (c : Cpu) (k : Trap) (rsp0 entry : UInt64) : Cpu :=
  let d := c.deliver rsp0 entry k.err
  match k with
  | .pageFault _ => { d with toStackMachine := d.push 14 }
  | .syscall => { d with toStackMachine := (d.push 0).push 128 }

/-- The machine at the first instruction of `irq_handler2`, which is called from `irq_common_stub2`. -/
def atHandler2 (d : Cpu) (ret : UInt64) : Cpu :=
  let t := (stub2Regs.map d.regs).foldl StackMachine.push d.toStackMachine
  let t := { t with regs := Function.update t.regs .rdi t.sp }
  { d with pos := d.sp, toStackMachine := t.push ret }

/-- The stub has the `registers_t` of `c` on the stack up to `int_no`. -/
theorem atStub2_delivered (hroom : 56 ≤ (c.frameBase rsp0).toNat) (entry : UInt64) :
    let d := c.atStub2 k rsp0 entry
    d.regs = c.regs ∧ d.sp.toNat + 56 = (c.frameBase rsp0).toNat ∧
      d.mem.Words d.sp.toNat
        [(k.registers c).intNo, (k.registers c).errCode, c.rip, c.cs, c.rflags, c.sp, c.ss] := by
  cases k with
  | pageFault e =>
      have hd := delivered c rsp0 (some e)
        (Nat.le_trans (by decide : 48 ≤ 56) hroom) entry
      have hsp : (c.deliver rsp0 entry (some e)).sp.toNat + 48 = (c.frameBase rsp0).toNat := hd.sp
      have hpush := StackMachine.pushed_push (s := (c.deliver rsp0 entry (some e)).toStackMachine)
        (show 8 ≤ _ by omega) 14
      have hpushed : ((c.deliver rsp0 entry (some e)).push 14).sp.toNat + 8 =
        (c.deliver rsp0 entry (some e)).sp.toNat := hpush.sp
      exact ⟨hpush.regs.trans hd.regs, show ((c.deliver rsp0 entry (some e)).push 14).sp.toNat + 56 = _
        by omega, hpush.under hd.words⟩
  | syscall =>
      have hd := delivered c rsp0 none
        (Nat.le_trans (by decide : 40 ≤ 56) hroom) entry
      have hsp : (c.deliver rsp0 entry none).sp.toNat + 40 = (c.frameBase rsp0).toNat := hd.sp
      have hpush := StackMachine.pushed_pushAll (s := (c.deliver rsp0 entry none).toStackMachine)
        (show 8 * ([0, 128] : List UInt64).length ≤ _ by
          rw [List.length_cons, List.length_singleton]
          omega)
      have hpushed : (((c.deliver rsp0 entry none).push 0).push 128).sp.toNat + 16 =
        (c.deliver rsp0 entry none).sp.toNat := hpush.sp
      exact ⟨hpush.regs.trans hd.regs,
        show (((c.deliver rsp0 entry none).push 0).push 128).sp.toNat + 56 = _ by omega,
        hpush.under hd.words⟩

/-- `irq_handler2` is called with the address of the `registers_t` of `c` in `rdi`. -/
theorem atHandler2_words (hroom : 136 ≤ (c.frameBase rsp0).toNat) (entry ret : UInt64) :
    let d := (c.atStub2 k rsp0 entry).atHandler2 ret
    d.sp.toNat + 136 = (c.frameBase rsp0).toNat ∧ d.regs = Function.update c.regs .rdi (d.sp + 8) ∧
      d.mem.Words d.sp.toNat (ret :: (k.registers c).words) := by
  obtain ⟨hregs, hsp, hws⟩ :=
    atStub2_delivered (k := k) (Nat.le_trans (by decide : 56 ≤ 136) hroom) entry
  set d := c.atStub2 k rsp0 entry
  have hsave : d.Pushed (stub2Regs.map d.regs)
      ((stub2Regs.map d.regs).foldl StackMachine.push d.toStackMachine) :=
    StackMachine.pushed_pushAll (show 72 ≤ d.sp.toNat by omega)
  set t := (stub2Regs.map d.regs).foldl StackMachine.push d.toStackMachine
  have htsp : t.sp.toNat + 72 = d.sp.toNat := hsave.sp
  have hcall := StackMachine.pushed_push
    (s := { t with regs := Function.update t.regs .rdi t.sp }) (show 8 ≤ t.sp.toNat by omega) ret
  have hcsp : (d.atHandler2 ret).sp.toNat + 8 = t.sp.toNat := hcall.sp
  have hback : (d.atHandler2 ret).sp + 8 = t.sp := UInt64.sub_add_cancel t.sp 8
  refine ⟨by omega, ?_, ?_⟩
  · rw [hback, ← hregs, ← hsave.regs]
    exact hcall.regs
  · have hwords := hsave.under hws
    rw [hregs] at hwords
    exact hcall.under hwords

theorem exec_stub2 (handler : Cpu → Cpu) (d : Cpu) (ret : UInt64) :
    (irqCommonStub2 ret).foldl (exec handler) d =
      let e := handler (d.atHandler2 ret)
      { e with
        toStackMachine := (stub2Regs.reverse.foldl StackMachine.pop (e.drop 8)).drop 16 } := by
  have hstub : irqCommonStub2 ret = .movRspPos :: (stub2Regs.map Insn.push ++
    (.movRspRdi :: .call ret :: (stub2Regs.reverse.map Insn.pop ++ [.addRsp 16]))) := rfl
  rw [hstub, List.foldl_cons, List.foldl_append, exec_pushes, List.foldl_cons, List.foldl_cons,
    List.foldl_append, exec_pops]
  rfl

/-- `irq_common_stub2`, where `irq_handler2` leaves `t` in its `registers_t`. -/
theorem irqCommonStub2_restores (htop : d.sp.toNat + 16 < 2 ^ 64)
    (hsp : (d.atHandler2 ret).sp.toNat + 80 = d.sp.toNat)
    (hr : Returns handler (d.atHandler2 ret) (ret :: t.words)) :
    let e := ((irqCommonStub2 ret).foldl (exec handler) d).iretq
    (∀ r, e.regs r = if r ∈ stub2Regs then t.get r else (handler (d.atHandler2 ret)).regs r) ∧
      e.sp = t.rsp ∧ e.rip = t.rip ∧ e.cs = t.cs ∧ e.rflags = t.rflags ∧ e.ss = t.ss := by
  obtain ⟨hpop, hpsp, hws⟩ := popped_of_returns stub2Regs.reverse t.get
    [t.intNo, t.errCode, t.rip, t.cs, t.rflags, t.rsp, t.ss] d.sp.toNat_lt hsp hr
  set p := stub2Regs.reverse.foldl StackMachine.pop ((handler (d.atHandler2 ret)).drop 8)
  have h16 : (16 : UInt64).toNat = 16 := rfl
  have hdrop : (p.drop 16).sp.toNat = d.sp.toNat + 16 := by
    rw [StackMachine.drop_sp (by rw [hpsp, h16]; exact htop), hpsp, h16]
  -- `int_no` and `err_code` lie between the registers and the processor's frame
  have hframe : (p.drop 16).mem.Words (p.drop 16).sp.toNat
      [t.rip, t.cs, t.rflags, t.rsp, t.ss] := by
    have hm : (p.drop 16).mem = (handler (d.atHandler2 ret)).mem := hpop.mem
    rw [hdrop, hm]
    exact hws.2.2
  rw [exec_stub2]
  refine ⟨fun r ↦ ?_, hframe.2.2.2.1, hframe.1, hframe.2.1, hframe.2.2.1, hframe.2.2.2.2.1⟩
  refine (hpop.regs r).trans ?_
  simp only [List.mem_reverse]
  rfl

theorem interrupt_stub (c : Cpu) (k : Trap) (rsp0 entry ret : UInt64) (handler : Cpu → Cpu) :
    c.interrupt rsp0 entry k.err (k.stub ret) handler =
      ((irqCommonStub2 ret).foldl (exec handler) (c.atStub2 k rsp0 entry)).iretq := by
  cases k with
  | pageFault e => rw [interrupt, Trap.stub, isr14, List.foldl_cons]; rfl
  | syscall => rw [interrupt, Trap.stub, syscallRoutine, List.foldl_cons, List.foldl_cons]; rfl

/-- A trap outside `r10` and `r11`. -/
theorem interrupt_trap {v : UInt64} (hroom : 136 ≤ (c.frameBase rsp0).toNat)
    (hr : Returns handler ((c.atStub2 k rsp0 entry).atHandler2 ret)
      (ret :: ({ k.registers c with rax := v } : Registers).words)) :
    let e := c.interrupt rsp0 entry k.err (k.stub ret) handler
    (∀ r, e.regs r = if r = .rax then v
      else if r = .r10 ∨ r = .r11 then
        (handler ((c.atStub2 k rsp0 entry).atHandler2 ret)).regs r
      else c.regs r) ∧
      e.sp = c.sp ∧ e.rip = c.rip ∧ e.cs = c.cs ∧ e.rflags = c.rflags ∧ e.ss = c.ss := by
  obtain ⟨-, hsp, -⟩ := atStub2_delivered (k := k) (Nat.le_trans (by decide : 56 ≤ 136) hroom) entry
  obtain ⟨hhsp, hregs, -⟩ := atHandler2_words (k := k) hroom entry ret
  have hlt := (c.frameBase rsp0).toNat_lt
  obtain ⟨hpop, hctx⟩ := irqCommonStub2_restores (by omega) (by omega) hr
  rw [interrupt_stub]
  refine ⟨fun r ↦ (hpop r).trans ?_, hctx⟩
  have hsaved (hs : r ∈ calleeSaved) (hne : r ≠ .rdi) :
      (handler ((c.atStub2 k rsp0 entry).atHandler2 ret)).regs r = c.regs r := by
    rw [hr.saved r hs, hregs, Function.update_of_ne hne]
  cases r with
  | r12 | r13 | r14 | r15 => exact hsaved (by decide) (by decide)
  | _ => rfl

end Cpu

variable {k : Trap} {handler : Cpu → Cpu} {sys : UInt64 → UInt64 → UInt64 → UInt64 → UInt64}

/-- `int $0x80` calls `syscall(rax, rbx, rcx, rdx)`: `irq_handler2` gets the address of the caller's
registers, and the caller goes on with the result in `rax` and the registers it had, but for `r10` and
`r11`. -/
theorem syscall_returns (hroom : 136 ≤ (c.frameBase rsp0).toNat)
    (hr : ∀ t, irqHandler2 sys (Trap.syscall.registers c) = some t →
      Returns handler ((c.atStub2 .syscall rsp0 entry).atHandler2 ret) (ret :: t.words)) :
    let d := (c.atStub2 .syscall rsp0 entry).atHandler2 ret
    let e := c.interrupt rsp0 entry none (syscallRoutine ret) handler
    d.mem.Words (d.regs .rdi).toNat (Trap.syscall.registers c).words ∧
      e.regs .rax = sys (c.regs .rax) (c.regs .rbx) (c.regs .rcx) (c.regs .rdx) ∧
      (∀ r, r ≠ .rax → r ≠ .r10 → r ≠ .r11 → e.regs r = c.regs r) ∧
      e.sp = c.sp ∧ e.rip = c.rip ∧ e.cs = c.cs ∧ e.rflags = c.rflags ∧ e.ss = c.ss := by
  obtain ⟨hsp, hregs, hwords⟩ := Cpu.atHandler2_words (k := .syscall) hroom entry ret
  obtain ⟨hall, hctx⟩ := Cpu.interrupt_trap hroom (hr _ (irqHandler2_registers sys .syscall c))
  have hlt := (c.frameBase rsp0).toNat_lt
  refine ⟨?_, hall .rax, fun r h1 h2 h3 ↦ ?_, hctx⟩
  · have hrdi : ((c.atStub2 .syscall rsp0 entry).atHandler2 ret).regs .rdi =
        ((c.atStub2 .syscall rsp0 entry).atHandler2 ret).sp + 8 := by
      rw [hregs, Function.update_self]
    have h8 : (8 : UInt64).toNat = 8 := rfl
    rw [hrdi, UInt64.toNat_add, Nat.mod_eq_of_lt (by rw [h8]; omega)]
    exact hwords.2
  · exact (hall r).trans (by rw [if_neg h1, if_neg (fun h ↦ h.elim h2 h3)])

/-- What the handler of a page fault leaves in the two registers that the entry does not save is what
the user's code finds there; the fault is transparent if and only if it leaves them alone. -/
theorem pageFault_sameContext_iff {errCode : UInt64} (hroom : 136 ≤ (c.frameBase rsp0).toNat)
    (hr : ∀ t, irqHandler2 sys ((Trap.pageFault errCode).registers c) = some t →
      Returns handler ((c.atStub2 (.pageFault errCode) rsp0 entry).atHandler2 ret)
        (ret :: t.words)) :
    let d := (c.atStub2 (.pageFault errCode) rsp0 entry).atHandler2 ret
    SameContext c (c.interrupt rsp0 entry (some errCode) (isr14 ret) handler) ↔
      (handler d).regs .r10 = c.regs .r10 ∧ (handler d).regs .r11 = c.regs .r11 := by
  obtain ⟨hall, hsp, hrip, hcs, hfl, hss⟩ :=
    Cpu.interrupt_trap hroom (hr _ (irqHandler2_registers sys (.pageFault errCode) c))
  refine ⟨fun h ↦ ⟨?_, ?_⟩, fun ⟨h10, h11⟩ ↦ ⟨funext fun r ↦ ?_, hsp, hrip, hcs, hfl, hss⟩⟩
  · exact (hall .r10).symm.trans (congrFun h.regs .r10)
  · exact (hall .r11).symm.trans (congrFun h.regs .r11)
  · refine (hall r).trans ?_
    cases r with
    | r10 => exact h10
    | r11 => exact h11
    | _ => rfl

/-- `irq_handler2` as a compiler may make it: `r10` and `r11` are its scratch registers. -/
def handler2 (sys : UInt64 → UInt64 → UInt64 → UInt64 → UInt64) (c : Cpu) : Cpu :=
  let a := (c.regs .rdi).toNat
  let rax := sys (c.mem.word (a + 56)) (c.mem.word (a + 48)) (c.mem.word (a + 40))
    (c.mem.word (a + 32))
  { c with
    mem := if c.mem.word (a + 72) = 128 then c.mem.store64 (a + 56) rax.toNat else c.mem,
    regs := Function.update (Function.update c.regs .r10 a.toUInt64) .r11 0 }

theorem handler2_returns (hroom : 136 ≤ (c.frameBase rsp0).toNat) {t : Registers}
    (ht : irqHandler2 sys (k.registers c) = some t) :
    Returns (handler2 sys) ((c.atStub2 k rsp0 entry).atHandler2 ret) (ret :: t.words) := by
  obtain ⟨hsp, hregs, hwords⟩ := Cpu.atHandler2_words (k := k) hroom entry ret
  have hlt := (c.frameBase rsp0).toNat_lt
  generalize (c.atStub2 k rsp0 entry).atHandler2 ret = d at hsp hregs hwords ⊢
  have h8 : (8 : UInt64).toNat = 8 := rfl
  have hrdi : (d.regs .rdi).toNat = d.sp.toNat + 8 := by
    rw [hregs, Function.update_self, UInt64.toNat_add, h8, Nat.mod_eq_of_lt (by omega)]
  have hrdx : d.mem.word ((d.regs .rdi).toNat + 32) = c.regs .rdx := hrdi ▸ hwords.2.2.2.2.2.1
  have hrcx : d.mem.word ((d.regs .rdi).toNat + 40) = c.regs .rcx := hrdi ▸ hwords.2.2.2.2.2.2.1
  have hrbx : d.mem.word ((d.regs .rdi).toNat + 48) = c.regs .rbx := hrdi ▸ hwords.2.2.2.2.2.2.2.1
  have hrax : d.mem.word ((d.regs .rdi).toNat + 56) = c.regs .rax :=
    hrdi ▸ hwords.2.2.2.2.2.2.2.2.1
  have hnum : d.mem.word ((d.regs .rdi).toNat + 72) = (k.registers c).intNo :=
    hrdi ▸ hwords.2.2.2.2.2.2.2.2.2.2.1
  refine ⟨rfl, fun r hr ↦ ?_, ?_⟩
  · have h10 : r ≠ .r10 := fun h ↦ absurd hr (by rw [h]; decide)
    have h11 : r ≠ .r11 := fun h ↦ absurd hr (by rw [h]; decide)
    exact (Function.update_of_ne h11 _ _).trans (Function.update_of_ne h10 _ _)
  · obtain rfl := Option.some.inj ((irqHandler2_registers sys k c).symm.trans ht)
    have hmem : (handler2 sys d).mem = if d.mem.word ((d.regs .rdi).toNat + 72) = 128 then
        d.mem.store64 ((d.regs .rdi).toNat + 56) (sys (d.mem.word ((d.regs .rdi).toNat + 56))
          (d.mem.word ((d.regs .rdi).toNat + 48)) (d.mem.word ((d.regs .rdi).toNat + 40))
          (d.mem.word ((d.regs .rdi).toNat + 32))).toNat
      else d.mem := by simp only [handler2]
    rw [hmem, hnum]
    cases k with
    | pageFault e =>
        have hnum : ((Trap.pageFault e).registers c).intNo ≠ 128 := (by decide : (14 : UInt64) ≠ 128)
        rw [if_neg hnum]
        exact hwords
    | syscall =>
        have hnum : (Trap.syscall.registers c).intNo = 128 := rfl
        rw [if_pos hnum, hrdx, hrcx, hrbx, hrax, hrdi]
        exact hwords.set [ret, c.regs .r9, c.regs .r8, c.regs .rsi, c.regs .rbp, c.regs .rdx,
          c.regs .rcx, c.regs .rbx] _

/-- System call 5 of 5, 5 and 5. -/
theorem syscall_returns_fives :
    let e := fives.interrupt 0x2000 0 none (syscallRoutine 0) (handler2 fun n a b d ↦ n * a + b * d)
    e.regs .rax = 50 ∧ e.regs .rdi = 5 ∧ e.sp = 0x800 := by
  obtain ⟨-, hrax, hregs, hsp, -⟩ := @syscall_returns fives 0x2000 0 0
    (handler2 fun n a b d ↦ n * a + b * d) (fun n a b d ↦ n * a + b * d) (by decide)
    fun t ht ↦ handler2_returns (by decide) ht
  exact ⟨hrax, hregs .rdi (by decide) (by decide) (by decide), hsp⟩

theorem pageFault_sameContext_iff_fives :
    ¬SameContext fives
      (fives.interrupt 0x2000 0 (some 6) (isr14 0) (handler2 fun _ _ _ _ ↦ 0)) := by
  intro h
  obtain ⟨-, h11⟩ := (@pageFault_sameContext_iff fives 0x2000 0 0 (handler2 fun _ _ _ _ ↦ 0)
    (fun _ _ _ _ ↦ 0) 6 (by decide) fun t ht ↦ handler2_returns (by decide) ht).mp h
  -- `handler2` leaves 0 in `r11`
  exact absurd h11 (by decide)

end Sbunix
