import Sbunix.Sys.Keyboard

/-!
# The line buffer

No branch that appends to the buffer looks at its length, and the tests of caps lock and shift come
before those of backspace and enter.  What the buffer, the screen and the reader should agree on
holds in exactly the runs that stay away from these branches.
-/

namespace Sbunix

open Reasoning Keyboard

/-! ## The index -/

section
variable {s : Stdin} {e : StdinEvent}

namespace Stdin

/-- A store goes to the 512 bytes of the buffer. -/
def InBuffer (s : Stdin) (e : StdinEvent) : Prop :=
  ∀ i, (s.step e).buffer i ≠ s.buffer i → i < 512

/-- There is room for what the step stores, and for one more byte. -/
def HasRoom (s : Stdin) : StdinEvent → Prop
  | .key scancode => s.Stores scancode → s.index < 511
  | .scan => s.pc = .left → s.index < 511

end Stdin

/-- A key changes the buffer only at the index, which goes up only for a key that is stored. -/
theorem irqHandler1_index (s : Keyboard) (scancode : UInt8) :
    (∀ i ≠ s.index, (s.irqHandler1 scancode).1.buffer i = s.buffer i) ∧
      (if s.Stores scancode then (s.irqHandler1 scancode).1.index = s.index + 1
        else (s.irqHandler1 scancode).1.index ≤ s.index) := by
  by_cases hstores : s.Stores scancode
  · obtain ⟨c, hc⟩ := irqHandler1_stores hstores
    rw [if_pos hstores, hc]
    refine ⟨fun i hi ↦ ?_, rfl⟩
    show Function.update s.buffer s.index c i = s.buffer i
    exact Function.update_of_ne hi c s.buffer
  · rw [if_neg hstores]
    -- backspace is the only other key that changes the index
    by_cases htypes : s.Types scancode
    · cases hcaps : s.capskey with
      | true =>
          rw [irqHandler1_caps htypes hcaps]
          exact ⟨fun _ _ ↦ rfl, Nat.le_refl _⟩
      | false =>
          obtain ⟨hshift, hkey⟩ := special_of_not_stores htypes hcaps hstores
          rw [irqHandler1_special htypes hcaps hshift hkey]
          split
          · exact ⟨fun _ _ ↦ rfl, Nat.sub_le _ _⟩
          · split
            · exact ⟨fun _ _ ↦ rfl, Nat.le_refl _⟩
            · exact ⟨fun _ _ ↦ rfl, Nat.le_refl _⟩
    · obtain ⟨hsame, -⟩ := irqHandler1_quiet htypes
      exact ⟨fun i _ ↦ by rw [hsame.buffer], hsame.index.le⟩

/-- A step of the reader changes the buffer only at the index, which goes up with its NUL. -/
theorem scanfstdin_index (s : Stdin) :
    (∀ i ≠ s.index, s.scanfstdin.buffer i = s.buffer i) ∧
      (if s.pc = .left then s.scanfstdin.index = s.index + 1
        else s.scanfstdin.index ≤ s.index) := by
  unfold Stdin.scanfstdin
  cases s.pc with
  | idle => exact ⟨fun _ _ ↦ rfl, Nat.le_refl _⟩
  | waiting =>
      dsimp only
      split
      · exact ⟨fun _ _ ↦ rfl, Nat.le_refl _⟩
      · exact ⟨fun _ _ ↦ rfl, Nat.le_refl _⟩
  | left =>
      refine ⟨fun i hi ↦ ?_, rfl⟩
      show Function.update s.buffer s.index 0 i = s.buffer i
      exact Function.update_of_ne hi 0 s.buffer
  | stored => exact ⟨fun _ _ ↦ rfl, Nat.le_refl _⟩
  | copied => exact ⟨fun _ _ ↦ rfl, Nat.zero_le _⟩

theorem le_iff_room {p : Prop} [Decidable p] {m n : Nat} (hm : m ≤ 511)
    (h : if p then n = m + 1 else n ≤ m) : n ≤ 511 ↔ (p → m < 511) := by
  split at h
  · rename_i hp
    exact ⟨fun hn _ ↦ by omega, fun hroom ↦ by have := hroom hp; omega⟩
  · rename_i hp
    exact iff_of_true (h.trans hm) fun hp' ↦ absurd hp' hp

theorem index_step_iff (h : s.index ≤ 511) (e : StdinEvent) :
    (s.step e).index ≤ 511 ∧ s.InBuffer e ↔ s.HasRoom e := by
  have hroom : ((∀ i ≠ s.index, (s.step e).buffer i = s.buffer i) ∧
      ((s.step e).index ≤ 511 ↔ s.HasRoom e)) := by
    cases e with
    | key scancode =>
        obtain ⟨hbuffer, hindex⟩ := irqHandler1_index s.toKeyboard scancode
        exact ⟨hbuffer, le_iff_room h hindex⟩
    | scan =>
        obtain ⟨hbuffer, hindex⟩ := scanfstdin_index s
        exact ⟨hbuffer, le_iff_room h hindex⟩
  have hin : s.InBuffer e := by
    intro i hi
    by_contra hlt
    exact hi (hroom.1 i (by omega))
  rw [and_iff_left hin]
  exact hroom.2

/-- The index stays in the buffer in exactly the runs whose steps all find room. -/
theorem stdin_index_iff (h : s.index ≤ 511) (evs : List StdinEvent) :
    AllStates Stdin.step (fun s ↦ s.index ≤ 511) s evs ∧ AllSteps Stdin.step Stdin.InBuffer s evs ↔
      AllSteps Stdin.step Stdin.HasRoom s evs :=
  allStates_and_allSteps_iff (fun _ h e _ ↦ index_step_iff h e) h

/-- A call of `scanfstdin` that starts, and one key. -/
theorem stdin_index_oneKey : AllStates Stdin.step (fun s ↦ s.index ≤ 511)
      ⟨⟨false, false, false, false, fun _ ↦ 0, 0, false⟩, .idle, [], 0⟩ [.scan, .key 0x1e] ∧
    AllSteps Stdin.step Stdin.InBuffer
      ⟨⟨false, false, false, false, fun _ ↦ 0, 0, false⟩, .idle, [], 0⟩ [.scan, .key 0x1e] := by
  refine (stdin_index_iff (Nat.zero_le 511) _).mpr ?_
  rw [allSteps_cons, allSteps_cons]
  refine ⟨?_, ?_, allSteps_nil⟩
  · intro h
    cases h
  · intro _
    show 0 < 511
    decide

/-- A key that changes no modifier is stored as often as it is pressed. -/
theorem index_replicate {n : Nat} (hs : s.Stores 0x1e) :
    ((List.replicate n (StdinEvent.key 0x1e)).foldl Stdin.step s).index = s.index + n := by
  induction n generalizing s with
  | zero => rfl
  | succ n ih =>
      obtain ⟨c, hc⟩ := irqHandler1_stores hs
      have hstep : s.step (.key 0x1e) = { s with toKeyboard := (s.append c).1 } := by
        rw [Stdin.step, hc]
      rw [List.replicate_succ, List.foldl_cons, hstep, ih (by exact hs)]
      show s.index + 1 + n = s.index + (n + 1)
      omega

/-- 512 presses of a key that no one reads. -/
theorem stdin_index_flood : ¬ AllStates Stdin.step (fun s ↦ s.index ≤ 511)
    ⟨⟨false, false, false, false, fun _ ↦ 0, 0, false⟩, .idle, [], 0⟩
    (.replicate 512 (.key 0x1e)) := by
  intro h
  have hlast := h _ [] (List.append_nil _).symm
  dsimp only at hlast
  rw [index_replicate (by decide)] at hlast
  exact absurd hlast (by decide)

end

/-! ## The echo -/

/-- The keyboard and the characters that are echoed and not erased. -/
structure Echo extends Keyboard where
  screen : List UInt8

namespace Echo

/-- What an operation of the console does to these characters. -/
def shown (screen : List UInt8) : ConsoleOp → List UInt8
  | .write c => screen ++ [c]
  | .backspace => screen.dropLast
  | _ => screen

def step (s : Echo) (scancode : UInt8) : Echo where
  toKeyboard := (s.irqHandler1 scancode).1
  screen := (s.irqHandler1 scancode).2.foldl shown s.screen

/-- A call of `scanfstdin` waits with an empty line, and control is up. -/
structure Pending (s : Echo) : Prop where
  localEcho : s.localEcho = true
  index : s.index = 0
  screen : s.screen = []
  controlkey : s.controlkey = false

/-- The characters on the screen are those of the buffer. -/
structure Echoes (s : Echo) : Prop where
  line : s.screen = (List.range s.index).map s.buffer
  room : s.index ≤ 512
  localEcho : s.localEcho = true
  controlkey : s.controlkey = false

/-- Enter ends the line. -/
def Completes (s : Echo) (scancode : UInt8) : Prop :=
  scancode = 0x1c → (s.step scancode).scanFlag = false

/-- A key that types does so without caps lock, finds room for its character, and is not enter with
shift. -/
def Plain (s : Echo) (scancode : UInt8) : Prop :=
  s.Types scancode → s.capskey = false ∧ (s.Stores scancode → s.index < 512) ∧
    (scancode = 0x1c → s.shiftkey = false ∨ s.scanFlag = false)

theorem Pending.echoes {s : Echo} (h : s.Pending) : s.Echoes := by
  obtain ⟨hlocal, hindex, hscreen, hctl⟩ := h
  refine ⟨?_, by omega, hlocal, hctl⟩
  rw [hscreen, hindex]
  rfl

end Echo

open Echo

variable {s : Echo} {scancode : UInt8}

theorem range_map_update (buffer : Nat → UInt8) (n : Nat) (c : UInt8) :
    (List.range (n + 1)).map (Function.update buffer n c) = (List.range n).map buffer ++ [c] := by
  rw [List.range_succ, List.map_append, List.map_singleton, Function.update_self]
  congr 1
  refine List.map_congr_left fun i hi ↦ Function.update_of_ne ?_ c buffer
  exact (List.mem_range.mp hi).ne

/-- The step by what the handler does: the state after it and what it prints. -/
theorem Echo.step_eq {k : Keyboard} {ops : List ConsoleOp}
    (h : s.irqHandler1 scancode = (k, ops)) : s.step scancode = ⟨k, ops.foldl shown s.screen⟩ := by
  rw [Echo.step, h]

theorem append_echo {k : Keyboard} (h : k.localEcho = true) (c : UInt8) :
    (k.append c).2 = [.write c] := by
  have hc : (c.toNat : Int) % 256 = c.toNat :=
    Int.emod_eq_of_lt (Int.natCast_nonneg _) (by exact_mod_cast c.toNat_lt)
  unfold Keyboard.append
  dsimp only
  rw [if_pos h, kprintf_char, hc, Int.toNat_natCast, Nat.toUInt8_eq, UInt8.ofNat_toNat]
  rfl

/-- A key that is stored is echoed too. -/
theorem echoes_stores_iff (h : s.Echoes) (hstores : s.Stores scancode) :
    (s.step scancode).Echoes ∧ s.Completes scancode ↔ s.Plain scancode := by
  obtain ⟨hline, hroom, hlocal, hctl⟩ := h
  obtain ⟨c, hc⟩ := irqHandler1_stores hstores
  obtain ⟨htypes, hcaps, hkey⟩ := hstores
  have hstep : s.step scancode = ⟨(s.append c).1, s.screen ++ [c]⟩ := by
    rw [Echo.step, hc, append_echo hlocal]
    rfl
  rw [Echo.Completes, hstep]
  constructor
  · rintro ⟨hechoes, hflag⟩ -
    exact ⟨hcaps, fun _ ↦ hechoes.room, fun hsc ↦ .inr (hflag hsc)⟩
  · intro hplain
    obtain ⟨-, hlt, henter⟩ := hplain htypes
    refine ⟨⟨?_, hlt ⟨htypes, hcaps, hkey⟩, hlocal, hctl⟩, fun hsc ↦ ?_⟩
    · show s.screen ++ [c] = (List.range (s.index + 1)).map (Function.update s.buffer s.index c)
      rw [range_map_update, hline]
    · -- enter is stored only with shift
      have hspecial : Special scancode := .inr (.inr (.inl hsc))
      have hshift : s.shiftkey = true := hkey.resolve_right fun hn ↦ hn hspecial
      refine (henter hsc).resolve_left fun hs ↦ ?_
      rw [hshift] at hs
      cases hs

/-- A key without a character, when neither caps lock nor shift is on, erases from both or from
none. -/
theorem echoes_special (h : s.Echoes) (htypes : s.Types scancode) (hcaps : s.capskey = false)
    (hshift : s.shiftkey = false) (hkey : Special scancode) :
    (s.step scancode).Echoes ∧ s.Completes scancode := by
  obtain ⟨hline, hroom, hlocal, hctl⟩ := h
  have hirq := irqHandler1_special htypes hcaps hshift hkey
  rw [Echo.Completes]
  unfold Echo.step
  rw [hirq]
  split
  · rename_i herase
    refine ⟨⟨?_, ?_, hlocal, hctl⟩, fun hsc ↦ ?_⟩
    · show s.screen.dropLast = (List.range (s.index - 1)).map s.buffer
      -- one character less on the screen, and one less in the buffer
      obtain ⟨n, hn⟩ : ∃ n, s.index = n + 1 := ⟨s.index - 1, by omega⟩
      rw [hline, hn, List.range_succ, List.map_append, List.map_singleton, List.dropLast_concat,
        Nat.add_sub_cancel]
    · show s.index - 1 ≤ 512
      omega
    · rw [herase.1] at hsc
      cases hsc
  · split
    · exact ⟨⟨hline, hroom, hlocal, hctl⟩, fun _ ↦ rfl⟩
    · rename_i henter
      exact ⟨⟨hline, hroom, hlocal, hctl⟩, fun hsc ↦ absurd hsc henter⟩

theorem echoes_step_iff (h : s.Echoes) (hsc : scancode ≠ 0x1d) :
    (s.step scancode).Echoes ∧ s.Completes scancode ↔ s.Plain scancode := by
  by_cases hstores : s.Stores scancode
  · exact echoes_stores_iff h hstores
  by_cases htypes : s.Types scancode
  · cases hcaps : s.capskey with
    | true =>
        -- the character is on the screen and not in the buffer
        refine iff_of_false (fun h' ↦ ?_) fun hplain ↦ ?_
        · have hline := h'.1.line
          rw [Echo.step_eq (irqHandler1_caps htypes hcaps)] at hline
          change s.screen ++ [keyValue scancode - 32] = (List.range s.index).map s.buffer at hline
          rw [← h.line, List.append_right_eq_self] at hline
          cases hline
        · have := (hplain htypes).1
          rw [hcaps] at this
          cases this
    | false =>
        obtain ⟨hshift, hkey⟩ := special_of_not_stores htypes hcaps hstores
        refine iff_of_true (echoes_special h htypes hcaps hshift hkey) fun _ ↦ ?_
        exact ⟨hcaps, fun hs ↦ absurd hs hstores, fun _ ↦ .inl hshift⟩
  · obtain ⟨hsame, hops⟩ := irqHandler1_quiet htypes
    refine iff_of_true ⟨⟨?_, ?_, ?_, irqHandler1_controlkey h.controlkey hsc⟩, ?_⟩
      fun ht ↦ absurd ht htypes
    · show (s.irqHandler1 scancode).2.foldl shown s.screen =
        (List.range (s.irqHandler1 scancode).1.index).map (s.irqHandler1 scancode).1.buffer
      rw [hops, hsame.index, hsame.buffer]
      exact h.line
    · exact hsame.index.trans_le h.room
    · exact hsame.localEcho.trans h.localEcho
    · -- enter types
      rintro rfl
      exact absurd ⟨h.controlkey, by decide, by decide⟩ htypes

/-- While a read waits, the characters on the screen are those of the buffer, and enter ends the line,
in exactly the runs whose keys are all plain. -/
theorem echo_buffer_iff (h : s.Pending) {scs : List UInt8} (hscs : ∀ sc ∈ scs, sc ≠ 0x1d) :
    AllStates Echo.step Echoes s scs ∧ AllSteps Echo.step Completes s scs ↔
      AllSteps Echo.step Plain s scs :=
  allStates_and_allSteps_iff (fun _ h sc hsc ↦ echoes_step_iff h (hscs sc hsc)) h.echoes

/-- One letter, and enter. -/
theorem echo_buffer_letter :
    AllStates Echo.step Echoes ⟨⟨false, false, false, true, fun _ ↦ 0, 0, true⟩, []⟩ [0x1e, 0x1c] ∧
      AllSteps Echo.step Completes ⟨⟨false, false, false, true, fun _ ↦ 0, 0, true⟩, []⟩
        [0x1e, 0x1c] := by
  refine (echo_buffer_iff ⟨rfl, rfl, rfl, rfl⟩ (by simp)).mpr ?_
  rw [allSteps_cons, allSteps_cons]
  have hfirst : 0 < 512 := by decide
  have hsecond : 1 < 512 := by decide
  exact ⟨fun _ ↦ ⟨rfl, fun _ ↦ hfirst, fun _ ↦ .inl rfl⟩,
    fun _ ↦ ⟨rfl, fun _ ↦ hsecond, fun _ ↦ .inl rfl⟩, allSteps_nil⟩

/-- Caps lock and a letter: it is on the screen and not in the buffer. -/
theorem echo_buffer_caps :
    ¬ AllStates Echo.step Echoes ⟨⟨false, false, false, true, fun _ ↦ 0, 0, true⟩, []⟩
      [0x3a, 0x1e] := by
  intro h
  have hline := (h _ [] (List.append_nil _).symm).line
  revert hline
  decide

end Sbunix
