import Sbunix.Sys.Timer

/-!
# The time of day (`sys/timer.c`)

The clock over a run of ticks.  `time` counts the seconds that were displayed, and the minutes and the
seconds are taken from it; the hour stays at 0.
-/

namespace Sbunix

namespace Timer

/-- The timer as it is linked. -/
def boot : Timer := ⟨0, 0, 0, 0, 0, 0⟩

/-- The timer behind a tick that finds `current->sleep` and a screen. -/
def tick (t : Timer) (e : Nat × Console) : Timer := (timeFunc t e.1 e.2).1

abbrev run (t : Timer) (es : List (Nat × Console)) : Timer := es.foldl tick t

/-- Hour, minute and second are those of `n` seconds since midnight. -/
def TellsTime (t : Timer) (n : Nat) : Prop :=
  t.sec < 60 ∧ t.min < 60 ∧ (3600 * t.hour + 60 * t.min + t.sec) % 86400 = n % 86400

end Timer

/-- How often `k` ticks display the time.  The counter wraps, and displays the time where it does. -/
def displayed (k : Nat) : Nat := k / 2 ^ 64 * ((2 ^ 64 - 1) / 90 + 1) + k % 2 ^ 64 / 90

/-- The displayed seconds of an hour are the elapsed seconds of a day. -/
def InFirstHour (k : Nat) : Prop := displayed k % 2 ^ 64 % 3600 = k / 90 % 86400

variable {t : Timer} {es : List (Nat × Console)} {e : Nat × Console} {k : Nat}

/-! ## Ticks -/

theorem displayed_succ (h : (k + 1) % 2 ^ 64 % 90 = 0) : displayed (k + 1) = displayed k + 1 := by
  unfold displayed
  omega

theorem displayed_succ_of_not (h : ¬ (k + 1) % 2 ^ 64 % 90 = 0) :
    displayed (k + 1) = displayed k := by
  unfold displayed
  omega

theorem displayed_of_lt (h : k < 2 ^ 64) : displayed k = k / 90 := by
  unfold displayed
  omega

theorem inFirstHour_iff (h : k < 2 ^ 64) : InFirstHour k ↔ k / 90 % 86400 < 3600 := by
  rw [InFirstHour, displayed_of_lt h]
  omega

namespace Timer

theorem tick_of_prints (h : t.Prints) :
    t.tick e = { t with count := (t.count + 1) % 2 ^ 64 }.advance := by
  unfold tick timeFunc
  rw [Prints] at h
  dsimp only
  rw [if_pos h]

theorem tick_of_not_prints (h : ¬ t.Prints) :
    t.tick e = { t with count := (t.count + 1) % 2 ^ 64 } := by
  unfold tick timeFunc
  rw [Prints] at h
  dsimp only
  rw [if_neg h]

theorem run_concat : t.run (es ++ [e]) = (t.run es).tick e := List.foldl_concat tick t e es

/-- What `k` ticks leave in the counters. -/
structure Counts (t : Timer) (k : Nat) : Prop where
  count : t.count = k % 2 ^ 64
  time : t.time = displayed k % 2 ^ 64
  hour : t.hour = 0

theorem Counts.prints_iff (h : t.Counts k) : t.Prints ↔ (k + 1) % 2 ^ 64 % 90 = 0 := by
  rw [Prints, h.count, Nat.mod_add_mod]

theorem Counts.tick (h : t.Counts k) : (t.tick e).Counts (k + 1) := by
  have hcount : (t.count + 1) % 2 ^ 64 = (k + 1) % 2 ^ 64 := by rw [h.count, Nat.mod_add_mod]
  by_cases hp : t.Prints
  · -- a displayed second; the hour stays what it is
    rw [tick_of_prints hp]
    have htime : (t.time + 1) % 2 ^ 64 = displayed (k + 1) % 2 ^ 64 := by
      rw [displayed_succ (h.prints_iff.mp hp), h.time, Nat.mod_add_mod]
    exact ⟨hcount, htime, by rw [advance, h.hour]⟩
  · rw [tick_of_not_prints hp]
    refine ⟨hcount, ?_, h.hour⟩
    rw [displayed_succ_of_not (mt h.prints_iff.mpr hp)]
    exact h.time

theorem counts_boot : boot.Counts 0 where
  count := (Nat.zero_mod _).symm
  time := by decide
  hour := rfl

/-- The counters over a run. -/
theorem Counts.run (h : t.Counts k) : (t.run es).Counts (k + es.length) := by
  induction es generalizing t k with
  | nil => exact h
  | cons e es ih =>
      rw [List.length_cons, ← Nat.add_assoc, Nat.add_right_comm]
      exact ih h.tick

theorem run_counts : (boot.run es).Counts es.length := Nat.zero_add es.length ▸ counts_boot.run

/-- Minutes and seconds are those of the displayed seconds. -/
theorem Counts.tick_tellsTime (h : t.Counts k) (hp : t.Prints) :
    (t.tick e).TellsTime ((k + 1) / 90) ↔ InFirstHour (k + 1) := by
  have hnext := h.tick (e := e)
  have hsec : (t.tick e).sec = (t.tick e).time % 60 := by rw [tick_of_prints hp]; rfl
  have hmin : (t.tick e).min = (t.tick e).time / 60 % 60 := by rw [tick_of_prints hp]; rfl
  rw [TellsTime, InFirstHour, hsec, hmin, hnext.hour, hnext.time]
  omega

/-- In every run, and after every tick that displays the time, what is displayed is the number of
90-tick periods exactly in the first hour of a day, as long as the counter has not wrapped. -/
theorem tellsTime_iff (es : List (Nat × Console)) (e : Nat × Console) (hp : (boot.run es).Prints) :
    let k := es.length + 1
    ((boot.run (es ++ [e])).TellsTime (k / 90) ↔ InFirstHour k) ∧
      (k < 2 ^ 64 → (InFirstHour k ↔ k / 90 % 86400 < 3600)) := by
  intro k
  rw [run_concat]
  exact ⟨run_counts.tick_tellsTime hp, inFirstHour_iff⟩

/-- A screen that is not looked at. -/
def noScreen : Console := ⟨fun _ ↦ 0, 0, 0, 0⟩

theorem prints_replicate {n : Nat} (h : (n + 1) % 2 ^ 64 % 90 = 0) :
    (boot.run (List.replicate n (0, noScreen))).Prints := by
  rw [run_counts.prints_iff, List.length_replicate]
  exact h

theorem tellsTime_first : let es := List.replicate 89 (0, noScreen)
    let k := es.length + 1
    ((boot.run (es ++ [(0, noScreen)])).TellsTime (k / 90) ↔ InFirstHour k) ∧
      (k < 2 ^ 64 → (InFirstHour k ↔ k / 90 % 86400 < 3600)) :=
  tellsTime_iff _ _ (prints_replicate (by decide))

/-- After an hour it is midnight again. -/
theorem not_tellsTime_hour : ∃ es e, (boot.run es).Prints ∧
    ¬ (boot.run (es ++ [e])).TellsTime ((es.length + 1) / 90) := by
  -- 3600 periods of 90 ticks
  have hprints : (boot.run (List.replicate 323999 (0, noScreen))).Prints :=
    prints_replicate (by decide)
  refine ⟨List.replicate 323999 (0, noScreen), (0, noScreen), hprints, ?_⟩
  rw [run_concat, run_counts.tick_tellsTime hprints, List.length_replicate,
    inFirstHour_iff (by decide)]
  decide

end Timer

end Sbunix
