import Sbunix.Reasoning.Runs
import Sbunix.Sys.Console

/-!
# The cursor

`write` counts 81 characters a line where the screen has 80: behind a long line `video` is a cell
ahead of `xp` and `yp`, unless the screen is scrolled and `video` set anew.  Exactly the runs that do not
get there keep them together.
-/

namespace Sbunix

open Reasoning

variable {s : Console} {ops : List ConsoleOp} {c : UInt8}

namespace Console

/-- The output pointer is at the cell of the cursor, in a row of the screen. -/
structure Aligned (s : Console) : Prop where
  video : s.video = screenBase + 160 * s.yp + 2 * s.xp
  col : s.xp ≤ 80
  row : 1 ≤ s.yp ∧ s.yp ≤ 22

/-- A character is stored in the cell of the cursor, which is in the 25 rows of the screen; the screen
may then be scrolled. -/
def InCell (s : Console) : ConsoleOp → Prop
  | .write c =>
      let stored := { s with mem := putCells s.mem (screenBase + 160 * s.yp + 2 * s.xp) [c] }
      160 * s.yp + 2 * s.xp + 2 ≤ 160 * 25 ∧
        ((s.write c).mem = stored.mem ∨ (s.write c).mem = stored.scroll.mem)
  | _ => True

/-- The cursor and the output pointer stay together in a run. -/
def CursorLaw (s : Console) (ops : List ConsoleOp) : Prop :=
  AllStates step Aligned s ops ∧ AllSteps step InCell s ops

/-- The steps that keep the cursor and the pointer together: a character in column 80 comes before a
scroll, a line is scrolled from its start, and nothing is erased before it. -/
def InLine (s : Console) : ConsoleOp → Prop
  | .write _ => s.xp < 80 ∨ 21 ≤ s.yp
  | .scroll => s.xp = 0
  | .backspace => 0 < s.xp
  | _ => True

theorem aligned_clearScreen (s : Console) : s.clearScreen.Aligned := by
  refine ⟨rfl, ?_, ?_⟩
  · show 0 ≤ 80
    decide
  · show 1 ≤ 1 ∧ 1 ≤ 22
    decide

theorem write_of_lt (h : s.xp < 80) : s.write c =
    { s with mem := putCells s.mem s.video [c], video := s.video + 2, xp := s.xp + 1 } := by
  rw [putCells_cons, putCells_nil]
  exact if_pos h

theorem write_wrap (h : 80 ≤ s.xp) (hy : s.yp < 21) : s.write c =
    { s with mem := putCells s.mem s.video [c], video := s.video + 2, xp := 0, yp := s.yp + 1 } := by
  rw [putCells_cons, putCells_nil]
  exact (if_neg (Nat.not_lt.mpr h)).trans (if_pos hy)

theorem write_scroll (h : 80 ≤ s.xp) (hy : 21 ≤ s.yp) : s.write c =
    { s with mem := putCells s.mem s.video [c], video := s.video + 2, xp := 0 }.scroll := by
  rw [putCells_cons, putCells_nil]
  exact (if_neg (Nat.not_lt.mpr h)).trans (if_neg (Nat.not_lt.mpr hy))

end Console

open Console

theorem aligned_scroll_iff (h : s.xp ≤ 80) : s.scroll.Aligned ↔ s.xp = 0 := by
  have hy : 1 ≤ 22 ∧ 22 ≤ 22 := by decide
  constructor
  · intro h'
    have hv := h'.video
    change screenBase + 22 * 160 = screenBase + 160 * 22 + 2 * s.xp at hv
    omega
  · intro hx
    refine ⟨?_, h, hy⟩
    show screenBase + 22 * 160 = screenBase + 160 * 22 + 2 * s.xp
    rw [hx]

theorem aligned_write_iff (h : s.Aligned) :
    (s.write c).Aligned ∧ s.InCell (.write c) ↔ s.xp < 80 ∨ 21 ≤ s.yp := by
  obtain ⟨hv, hc, hr⟩ := h
  by_cases hx : s.xp < 80
  · refine iff_of_true ⟨?_, ?_, .inl ?_⟩ (.inl hx)
    · rw [write_of_lt hx]
      exact ⟨by dsimp only; omega, hx, hr⟩
    · omega
    · rw [write_of_lt hx, ← hv]
  · by_cases hy : s.yp < 21
    · refine iff_of_false (fun h' ↦ ?_) (by omega)
      -- the pointer is in the first cell of the next row and has moved on, the cursor is at its start
      have hv' := h'.1.video
      rw [write_wrap (by omega) hy] at hv'
      dsimp only at hv'
      omega
    · refine iff_of_true ⟨?_, ?_, .inr ?_⟩ (by omega)
      · rw [write_scroll (by omega) (by omega)]
        exact (aligned_scroll_iff (Nat.zero_le 80)).mpr rfl
      · omega
      · rw [write_scroll (by omega) (by omega), ← hv]
        rfl

theorem aligned_backspace_iff (h : s.Aligned) : s.backspace.Aligned ↔ 0 < s.xp := by
  obtain ⟨hv, hc, hr⟩ := h
  have hbase : 2 ≤ screenBase := by decide
  unfold Console.backspace
  dsimp only
  split
  · rename_i hxy
    -- from column 0 the pointer goes back one cell, and the cursor to column 80
    refine iff_of_false (fun h' ↦ ?_) (by omega)
    have hv' := h'.video
    dsimp only at hv'
    omega
  · rename_i hxy
    split
    · rename_i hx
      refine iff_of_true ⟨?_, ?_, hr⟩ hx
      · dsimp only
        omega
      · dsimp only
        omega
    · rename_i hx
      refine iff_of_false (fun h' ↦ ?_) hx
      have hv' := h'.video
      dsimp only at hv'
      omega

/-- One step keeps the cursor and the pointer together, and stores where it should, exactly if it is
in line. -/
theorem aligned_step_iff (h : s.Aligned) (op : ConsoleOp) :
    (s.step op).Aligned ∧ s.InCell op ↔ s.InLine op := by
  cases op with
  | write c => exact aligned_write_iff h
  | backspace => exact (and_iff_left trivial).trans (aligned_backspace_iff h)
  | clearScreen => exact iff_of_true ⟨aligned_clearScreen s, trivial⟩ trivial
  | scroll => exact (and_iff_left trivial).trans (aligned_scroll_iff h.col)
  | newline =>
      obtain ⟨hv, hc, hr⟩ := h
      refine iff_of_true ⟨?_, trivial⟩ trivial
      show s.newline.Aligned
      unfold Console.newline
      dsimp only
      split
      · refine ⟨?_, Nat.zero_le 80, ?_⟩
        · dsimp only
          omega
        · dsimp only
          omega
      · exact (aligned_scroll_iff (Nat.zero_le 80)).mpr rfl
  | carReturn =>
      obtain ⟨hv, hc, hr⟩ := h
      refine iff_of_true ⟨⟨?_, Nat.zero_le 80, hr⟩, trivial⟩ trivial
      show s.video - s.xp * 2 = screenBase + 160 * s.yp + 2 * 0
      omega

/-- From a cleared screen on, the cursor and the pointer stay together in exactly the runs whose steps
are all in line. -/
theorem cursorLaw_iff (s : Console) (ops : List ConsoleOp) :
    CursorLaw s.clearScreen ops ↔ AllSteps step InLine s.clearScreen ops :=
  allStates_and_allSteps_iff (fun _ h op _ ↦ aligned_step_iff h op) (aligned_clearScreen s)

/-- 81 characters on the first line. -/
theorem cursorLaw_longLine :
    ¬ CursorLaw (Console.clearScreen ⟨fun _ ↦ 0, 0, 0, 0⟩)
      (kprintf (cstr "%s") [.str (.replicate 81 (chr 'a'))]) := by
  -- the first 80 characters fit on the line, and the one behind them is not in line
  have hops : kprintf (cstr "%s") [.str (.replicate 81 (chr 'a'))] =
      prints (.replicate 80 (chr 'a')) ++ .write (chr 'a') :: [] := by decide
  have hfit : (Console.clearScreen ⟨fun _ ↦ 0, 0, 0, 0⟩).xp +
      (List.replicate 80 (chr 'a')).length ≤ 80 := by decide
  have hrun := run_prints_fit hfit
  rw [hops]
  generalize prints (.replicate 80 (chr 'a')) = pre at hrun
  rintro ⟨hstates, hsteps⟩
  have hstate := hstates pre _ rfl
  have hnext := hstates (pre ++ [.write (chr 'a')]) [] (List.append_nil _).symm
  rw [List.foldl_append] at hnext
  have hin := (aligned_write_iff hstate).mp ⟨hnext, hsteps pre _ [] rfl⟩
  rw [Console.run] at hrun
  rw [hrun] at hin
  revert hin
  decide

end Sbunix
