import Sbunix.Sys.Cursor

/-!
# The clock (`sys/timer.c`)

Every 90 ticks `time_func` prints the time in row 0, with the column and the row of the code that it
interrupts.  If these make it scroll, the clock moves the whole screen and ends up in row 22.
-/

namespace Sbunix

open Reasoning Console

/-- The globals of `timer.c`. -/
structure Timer where
  count : Nat
  time : Nat
  temp : Nat
  sec : Nat
  min : Nat
  hour : Nat

/-- A number below 60 with its leading zero. -/
def padded (fmt : CString) (n : Nat) : List ConsoleOp :=
  if n < 10 then kprintf (cstr "0") [] ++ kprintf fmt [.int n] else kprintf fmt [.int n]

namespace Timer

/-- The time of the next second.  The hour is never set. -/
def advance (t : Timer) : Timer :=
  let time := (t.time + 1) % 2 ^ 64
  { t with
    time := time, sec := time % 60, min := time / 60 % 60, temp := time / 60 / 60,
    hour := t.hour % 60 }

def clock (t : Timer) : List ConsoleOp :=
  padded (cstr "%d:") t.hour ++ padded (cstr "%d:") t.min ++ padded (cstr "%d") t.sec

/-- The tick prints the time. -/
def Prints (t : Timer) : Prop := (t.count + 1) % 2 ^ 64 % 90 = 0

instance (t : Timer) : Decidable t.Prints := inferInstanceAs (Decidable (_ = _))

end Timer

/-- `time_func()` with `current->sleep`.  It declares `xp` and `yp` as `char`, so it saves and sets
their low bytes. -/
def timeFunc (t : Timer) (sleep : Nat) (s : Console) : Timer × Nat × Console :=
  let t := { t with count := (t.count + 1) % 2 ^ 64 }
  let x := s.xp % 256
  let y := s.yp % 256
  let tempV := s.video
  let s := { s with video := screenBase }
  let (t, sleep, s) :=
    if t.count % 90 = 0 then
      (t.advance, if sleep > 0 then sleep - 1 else sleep, s.run t.advance.clock)
    else (t, sleep, s)
  (t, sleep,
    { s with video := tempV, xp := s.xp / 256 * 256 + x, yp := s.yp / 256 * 256 + y })

/-! ## What the clock prints -/

/-- Two digits. -/
def digits (n : Nat) : CString := [(48 + n / 10).toUInt8, (48 + n % 10).toUInt8]

theorem padded_colon : ∀ n < 60, padded (cstr "%d:") n = prints (digits n ++ [chr ':']) := by
  decide

theorem padded_last : ∀ n < 60, padded (cstr "%d") n = prints (digits n) := by
  decide

/-- The characters of the time, two digits for each part. -/
def Timer.text (t : Timer) : CString :=
  digits t.hour ++ [chr ':'] ++ (digits t.min ++ [chr ':']) ++ digits t.sec

theorem Timer.text_length (t : Timer) : t.text.length = 8 := rfl

theorem Timer.clock_advance (t : Timer) : t.advance.clock = prints t.advance.text := by
  have hh : t.advance.hour < 60 := Nat.mod_lt _ (by decide)
  have hm : t.advance.min < 60 := Nat.mod_lt _ (by decide)
  have hs : t.advance.sec < 60 := Nat.mod_lt _ (by decide)
  rw [Timer.clock, padded_colon _ hh, padded_colon _ hm, padded_last _ hs, Timer.text]
  simp only [prints, List.map_append]

/-! ## Rows of the screen -/

variable {s s' : Console} {t : Timer} {mem : Memory} {cs : CString} {c : UInt8}
  {row o sleep : Nat}

/-- Byte `o` of a row. -/
def rowByte (row o : Nat) : Nat := screenBase + 160 * row + o

theorem putCells_row {a : Nat} (h : 160 * row + o < a ∨ a + 2 * cs.length ≤ 160 * row + o) :
    putCells mem (screenBase + a) cs (rowByte row o) = mem (rowByte row o) := by
  apply putCells_outside
  unfold rowByte
  omega

theorem putCells_add {a : Nat} : putCells mem a cs (a + o) =
    if o < 2 * cs.length then putCells (fun _ ↦ 0) 0 cs o else mem (a + o) := by
  unfold putCells
  rw [Nat.add_sub_cancel_left, Nat.sub_zero]
  by_cases ho : o < 2 * cs.length
  · rw [if_pos (by omega), if_pos ho]
    exact (if_pos (by omega)).symm
  · rw [if_neg (by omega), if_neg ho]

/-- A scroll moves the rows up from row 2 on and clears row 23. -/
theorem scroll_row (hr : 1 ≤ row) (ho : o < 160) : s.scroll.mem (rowByte row o) =
    if row ≤ 22 then s.mem (rowByte (row + 1) o) else if row = 23 then 0 else s.mem (rowByte row o) := by
  have hscroll : s.scroll.mem = ((s.mem.copy (screenBase + 160) (screenBase + 160 + 160)
      (22 * 160)).fill (screenBase + 160 + 22 * 160) 160 0) := rfl
  unfold rowByte
  rw [hscroll]
  by_cases h22 : row ≤ 22
  · rw [if_pos h22, Memory.fill_apply_of_lt (by omega), Memory.copy_apply (by omega),
      if_pos (by omega)]
    exact congrArg s.mem (by omega)
  · rw [if_neg h22]
    by_cases h23 : row = 23
    · rw [if_pos h23, Memory.fill_apply_of_mem (by omega) (by omega)]
    · rw [if_neg h23, Memory.fill_apply_of_lt (by omega), Memory.copy_apply (by omega),
        if_neg (by omega)]

/-! ## The interrupted code -/

/-- The cursor is where it was, and no row but row 0 has changed. -/
structure Transparent (s s' : Console) : Prop where
  video : s'.video = s.video
  xp : s'.xp = s.xp
  yp : s'.yp = s.yp
  rows : ∀ row o, 1 ≤ row → row < 25 → o < 160 → s'.mem (rowByte row o) = s.mem (rowByte row o)

/-- A screen that a scroll and the characters `cs` in row 22 leave as it is: `cs` is in every row. -/
structure Still (s : Console) (cs : CString) : Prop where
  rows : ∀ row o, 1 ≤ row → row ≤ 22 → o < 160 →
    s.mem (rowByte row o) = putCells (fun _ ↦ 0) 0 cs o
  last : ∀ o < 160, s.mem (rowByte 23 o) = 0

/-- Set back the cursor after the clock. -/
def restore (s s' : Console) : Console :=
  { s' with
    video := s.video, xp := s'.xp / 256 * 256 + s.xp % 256, yp := s'.yp / 256 * 256 + s.yp % 256 }

theorem timeFunc_of_not_prints (h : ¬ t.Prints) :
    (timeFunc t sleep s).2.2 = restore s { s with video := screenBase } := by
  replace h : ¬ (t.count + 1) % 2 ^ 64 % 90 = 0 := h
  unfold timeFunc
  dsimp only
  rw [if_neg h]
  rfl

theorem timeFunc_of_prints (h : t.Prints) : (timeFunc t sleep s).2.2 =
    restore s ({ s with video := screenBase }.run (prints t.advance.text)) := by
  replace h : (t.count + 1) % 2 ^ 64 % 90 = 0 := h
  unfold timeFunc
  dsimp only
  rw [if_pos h, Timer.clock_advance]
  rfl

/-- The clock without a scroll: its characters stay in row 0. -/
theorem transparent_of_row0 (hx : s.xp ≤ 80) (hy : s.yp ≤ 22) (hx' : s'.xp ≤ 80) (hy' : s'.yp ≤ 22)
    (hmem : ∀ row o, 1 ≤ row → row < 25 → o < 160 → s'.mem (rowByte row o) = s.mem (rowByte row o)) :
    Transparent s (restore s s') := by
  refine ⟨rfl, ?_, ?_, hmem⟩
  · show s'.xp / 256 * 256 + s.xp % 256 = s.xp
    omega
  · show s'.yp / 256 * 256 + s.yp % 256 = s.yp
    omega

/-- The clock over the end of a line: the first characters, the one in column 80, and the rest. -/
theorem run_prints_wrap {pre post : CString} (hpre : s.xp + pre.length = 80)
    (hpost : post.length ≤ 80) (hy : s.yp < 21) : s.run (prints (pre ++ c :: post)) =
      { s with
        mem := putCells (putCells (putCells s.mem s.video pre) (s.video + 2 * pre.length) [c])
          (s.video + 2 * pre.length + 2) post
        video := s.video + 2 * pre.length + 2 + 2 * post.length
        xp := 0 + post.length
        yp := s.yp + 1 } := by
  have hwrap := write_wrap (s := { s with
    mem := putCells s.mem s.video pre, video := s.video + 2 * pre.length
    xp := s.xp + pre.length }) (c := c) hpre.ge hy
  rw [run_prints_append, run_prints_fit hpre.le, hwrap, run_prints_fit]
  show 0 + post.length ≤ 80
  omega

theorem run_prints_scroll {pre post : CString} (hpre : s.xp + pre.length = 80)
    (hpost : post.length ≤ 80) (hy : 21 ≤ s.yp) : s.run (prints (pre ++ c :: post)) =
      { mem := putCells ({ s with
          mem := putCells (putCells s.mem s.video pre) (s.video + 2 * pre.length) [c] }.scroll).mem
            (screenBase + 22 * 160) post
        video := screenBase + 22 * 160 + 2 * post.length
        xp := 0 + post.length
        yp := 22 } := by
  have hscroll := write_scroll (s := { s with
    mem := putCells s.mem s.video pre, video := s.video + 2 * pre.length
    xp := s.xp + pre.length }) (c := c) hpre.ge hy
  rw [run_prints_append, run_prints_fit hpre.le, hscroll, run_prints_fit]
  · rfl
  · show 0 + post.length ≤ 80
    omega

/-- The screen after a scroll and the characters `cs` in row 22 is the old one only if that has `cs` in
every row. -/
theorem still_iff {full : Console} (hcs : cs.length ≤ 80)
    (hfull : ∀ row o, 1 ≤ row → o < 160 → full.mem (rowByte row o) = s.mem (rowByte row o)) :
    (∀ row o, 1 ≤ row → row < 25 → o < 160 →
      putCells full.scroll.mem (screenBase + 22 * 160) cs (rowByte row o) = s.mem (rowByte row o)) ↔
      Still s cs := by
  -- the characters go to row 22 only
  have hother : ∀ row o, 1 ≤ row → row ≠ 22 → o < 160 →
      putCells full.scroll.mem (screenBase + 22 * 160) cs (rowByte row o) =
        full.scroll.mem (rowByte row o) :=
    fun row o _ hr _ ↦ putCells_row (by omega)
  have hrow22 : ∀ o < 160, putCells full.scroll.mem (screenBase + 22 * 160) cs (rowByte 22 o) =
      if o < 2 * cs.length then putCells (fun _ ↦ 0) 0 cs o else s.mem (rowByte 23 o) := by
    intro o ho
    have haddr : rowByte 22 o = screenBase + 22 * 160 + o := rfl
    rw [haddr, putCells_add]
    split
    · rfl
    · rw [← haddr, scroll_row (by decide) ho, if_pos (by decide), hfull 23 o (by decide) ho]
  constructor
  · intro h
    have hlast : ∀ o < 160, s.mem (rowByte 23 o) = 0 := by
      intro o ho
      rw [← h 23 o (by decide) (by decide) ho, hother 23 o (by decide) (by decide) ho,
        scroll_row (by decide) ho, if_neg (by decide), if_pos rfl]
    have h22 : ∀ o < 160, s.mem (rowByte 22 o) = putCells (fun _ ↦ 0) 0 cs o := by
      intro o ho
      rw [← h 22 o (by decide) (by decide) ho, hrow22 o ho]
      split
      · rfl
      · rw [hlast o ho, putCells_outside (by omega)]
    refine ⟨fun row o hr hr' ho ↦ ?_, hlast⟩
    -- each row but the last is the one below it
    induction hd : 22 - row generalizing row with
    | zero =>
        obtain rfl : row = 22 := by omega
        exact h22 o ho
    | succ d ih =>
        rw [← h row o hr (by omega) ho, hother row o hr (by omega) ho, scroll_row hr ho,
          if_pos hr', hfull (row + 1) o (by omega) ho]
        exact ih (row + 1) (by omega) (by omega) (by omega)
  · rintro ⟨hrows, hlast⟩ row o hr hr' ho
    by_cases h22 : row = 22
    · subst h22
      rw [hrow22 o ho, hrows 22 o hr (by decide) ho]
      split
      · rfl
      · rw [hlast o ho, putCells_outside (by omega)]
    · rw [hother row o hr h22 ho, scroll_row hr ho]
      by_cases hlow : row ≤ 22
      · rw [if_pos hlow, hfull (row + 1) o (by omega) ho, hrows row o hr hlow ho,
          hrows (row + 1) o (by omega) (by omega) ho]
      · rw [if_neg hlow]
        split
        · rename_i h23
          rw [h23, hlast o ho]
        · exact hfull row o hr ho

theorem clock_fit (hcs : cs.length = 8) (hx : s.xp ≤ 72) (hy : s.yp ≤ 22) :
    Transparent s (restore s ({ s with video := screenBase }.run (prints cs))) := by
  have hfit : s.xp + cs.length ≤ 80 := by omega
  rw [run_prints_fit (s := { s with video := screenBase }) hfit]
  refine transparent_of_row0 (by omega) hy hfit hy fun row o hr _ _ ↦ ?_
  exact putCells_row (a := 0) (by omega)

/-- The characters before column 80, the one in it, and the rest. -/
theorem clock_split (hcs : cs.length = 8) (hx : 72 < s.xp) (hx' : s.xp ≤ 80) :
    ∃ pre c, cs = pre ++ c :: cs.drop (81 - s.xp) ∧ s.xp + pre.length = 80 := by
  refine ⟨cs.take (80 - s.xp), cs[80 - s.xp], ?_, ?_⟩
  · rw [show 81 - s.xp = 80 - s.xp + 1 by omega, ← List.drop_eq_getElem_cons,
      List.take_append_drop]
  · rw [List.length_take]
    omega

theorem clock_wrap {pre post : CString} (hcs : (pre ++ c :: post).length = 8)
    (hpre : s.xp + pre.length = 80) (hy : s.yp ≤ 20) :
    Transparent s (restore s ({ s with video := screenBase }.run (prints (pre ++ c :: post)))) := by
  rw [List.length_append, List.length_cons] at hcs
  have hpost : post.length ≤ 80 := by omega
  rw [run_prints_wrap (s := { s with video := screenBase }) hpre hpost (Nat.lt_succ_of_le hy)]
  refine transparent_of_row0 (by omega) (by omega) ?_ ?_ fun row o hr _ _ ↦ ?_
  · show 0 + post.length ≤ 80
    omega
  · show s.yp + 1 ≤ 22
    omega
  · have hone : [c].length = 1 := rfl
    show putCells (putCells (putCells s.mem (screenBase + 0) pre) (screenBase + 2 * pre.length) [c])
      (screenBase + (2 * pre.length + 2)) post (rowByte row o) = _
    rw [putCells_row (by omega), putCells_row (by omega), putCells_row (by omega)]

theorem clock_scroll_iff {pre post : CString} (hcs : (pre ++ c :: post).length = 8)
    (hpre : s.xp + pre.length = 80) (hy : 21 ≤ s.yp) (hy' : s.yp ≤ 22) :
    Transparent s (restore s ({ s with video := screenBase }.run (prints (pre ++ c :: post)))) ↔
      Still s post := by
  rw [List.length_append, List.length_cons] at hcs
  have hpost : post.length ≤ 80 := by omega
  rw [run_prints_scroll (s := { s with video := screenBase }) hpre hpost hy, ← still_iff hpost]
  · refine ⟨fun h ↦ h.rows, fun h ↦ transparent_of_row0 (by omega) hy' ?_ (Nat.le_refl 22) h⟩
    show 0 + post.length ≤ 80
    omega
  · intro row o hr _
    have hone : [c].length = 1 := rfl
    show putCells (putCells s.mem (screenBase + 0) pre) (screenBase + 2 * pre.length) [c]
      (rowByte row o) = _
    rw [putCells_row (by omega), putCells_row (by omega)]

/-- The clock is transparent exactly if it is not printed, or is printed without a scroll, or the
screen is still under the scroll. -/
theorem timeFunc_transparent_iff (t : Timer) (sleep : Nat) (hx : s.xp ≤ 80)
    (hy : 1 ≤ s.yp ∧ s.yp ≤ 22) : Transparent s (timeFunc t sleep s).2.2 ↔
      ¬ t.Prints ∨ s.xp ≤ 72 ∨ s.yp ≤ 20 ∨ Still s (t.advance.text.drop (81 - s.xp)) := by
  by_cases hp : t.Prints
  · rw [timeFunc_of_prints hp, ← or_assoc, ← or_assoc]
    have hcs := t.advance.text_length
    generalize t.advance.text = cs at hcs
    -- the eight characters fit, or one of them is in column 80 and wraps or scrolls
    by_cases hfit : s.xp ≤ 72
    · exact iff_of_true (clock_fit hcs hfit hy.2) (.inl (.inl (.inr hfit)))
    · obtain ⟨pre, c, hsplit, hpre⟩ := clock_split hcs (by omega) hx
      generalize cs.drop (81 - s.xp) = post at hsplit ⊢
      subst hsplit
      by_cases hrow : s.yp ≤ 20
      · exact iff_of_true (clock_wrap hcs hpre hrow) (.inl (.inr hrow))
      · rw [clock_scroll_iff hcs hpre (by omega) hy.2]
        exact ⟨.inr, fun h ↦ h.resolve_left (by tauto)⟩
  · refine iff_of_true ?_ (.inl hp)
    rw [timeFunc_of_not_prints hp]
    exact transparent_of_row0 hx hy.2 hx hy.2 fun _ _ _ _ _ ↦ rfl

/-- A cleared screen, and the tick before the first second. -/
theorem timeFunc_transparent_cleared : Transparent (clearScreen ⟨fun _ ↦ 0, 0, 0, 0⟩)
    (timeFunc ⟨89, 0, 0, 0, 0, 0⟩ 0 (clearScreen ⟨fun _ ↦ 0, 0, 0, 0⟩)).2.2 :=
  (timeFunc_transparent_iff _ 0 (aligned_clearScreen _).col (aligned_clearScreen _).row).mpr
    (.inr (.inl (Nat.zero_le 72)))

/-- With the cursor behind the last column of row 22 the screen scrolls, and a character in row 2
moves. -/
theorem timeFunc_transparent_lastLine : ∃ s : Console, s.xp ≤ 80 ∧ (1 ≤ s.yp ∧ s.yp ≤ 22) ∧
    ¬ Transparent s (timeFunc ⟨89, 0, 0, 0, 0, 0⟩ 0 s).2.2 := by
  refine ⟨⟨putCells (fun _ ↦ 0) (screenBase + 320) [chr 'a'], screenBase + 160 * 23, 80, 22⟩,
    Nat.le_refl 80, by decide, ?_⟩
  have htext : (Timer.advance ⟨89, 0, 0, 0, 0, 0⟩).text = [] ++ chr '0' :: cstr "0:00:01" := by decide
  rw [timeFunc_of_prints (by decide), htext, clock_scroll_iff rfl rfl (by decide) (Nat.le_refl 22)]
  intro h
  have hrow := h.rows 2 0 (by decide) (by decide) (by decide)
  revert hrow
  decide

end Sbunix
