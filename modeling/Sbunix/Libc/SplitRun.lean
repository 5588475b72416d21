import Sbunix.Libc.Split

/-!
# What `split` returns

The string that the loop runs over is a list of segments with a separator behind each.  The loop
copies as many bytes of a segment as it has that are not `'0'`, from where the other index is.
-/

namespace Sbunix

open Reasoning

variable {argv1 t left : CString} {sep : UInt8} {st : SplitState} {segs pre post : List CString}
  {rows : Rows} {d1 j k n : Nat} {w : CString}

/-- How many bytes of a segment are copied. -/
def kept (t : CString) : Nat := t.countP (· ≠ chr '0')

/-- What is copied for the segments, with the other index at `d1`. -/
def heard (argv1 : CString) : Nat → List CString → List CString
  | _, [] => []
  | d1, t :: segs => (argv1.drop d1).take (kept t) :: heard argv1 (d1 + kept t + 1) segs

/-- Segments with a separator behind each. -/
def spell (sep : UInt8) (segs : List CString) : CString := segs.flatMap (· ++ [sep])

theorem kept_le (t : CString) : kept t ≤ t.length := List.countP_le_length

theorem kept_eq (h : chr '0' ∉ t) : kept t = t.length := by
  rw [kept, List.countP_eq_length]
  exact fun c hc ↦ decide_eq_true fun he ↦ h (he ▸ hc)

theorem kept_lt (h : chr '0' ∈ t) : kept t < t.length := by
  refine Nat.lt_of_le_of_ne (kept_le t) fun he ↦ ?_
  rw [kept, List.countP_eq_length] at he
  exact of_decide_eq_true (he _ h) rfl

theorem spell_cons : spell sep (t :: segs) = t ++ sep :: spell sep segs := by
  rw [spell, List.flatMap_cons, List.append_assoc]
  rfl

theorem spell_append : spell sep (pre ++ post) = spell sep pre ++ spell sep post :=
  List.flatMap_append

/-! ## One segment -/

namespace SplitState

/-- The state behind bytes that were copied. -/
def wrote (st : SplitState) (w : CString) : SplitState :=
  { st with
    rows := Function.update st.rows st.ss ((st.rows st.ss).putBytes st.d w)
    d := st.d + w.length
    d1 := st.d1 + w.length }

/-- The row behind a segment that was copied to it. -/
def closeRow (row : Memory) (w : CString) : Memory :=
  Function.update (row.putBytes 0 w) w.length 0

/-- The state behind a segment and its separator. -/
def closed (st : SplitState) (w : CString) : SplitState where
  rows := Function.update st.rows st.ss (closeRow (st.rows st.ss) w)
  ss := st.ss + 1
  d1 := st.d1 + w.length + 1
  fflag := true

theorem wrote_nil : st.wrote [] = st := by
  rw [wrote, Memory.putBytes_nil, Function.update_eq_self]
  rfl

theorem put_eq {c : UInt8} (hss : st.ss < 10) (hd : st.d < 20) : st.put c =
    some { st with rows := Function.update st.rows st.ss (Function.update (st.rows st.ss) st.d c) } :=
  if_pos ⟨hss, hd⟩

theorem wrote_cons {c : UInt8} : (st.wrote [c]).wrote w = st.wrote (c :: w) := by
  have hrow : (st.rows st.ss).putBytes st.d [c] = Function.update (st.rows st.ss) st.d c := by
    rw [Memory.putBytes_cons, Memory.putBytes_nil]
  unfold wrote
  dsimp only
  rw [Function.update_self, Function.update_idem, hrow, Memory.putBytes_cons, List.length_singleton,
    List.length_cons, Nat.add_assoc, Nat.add_assoc, Nat.add_comm 1 w.length]

theorem put_wrote {c : UInt8} (hss : st.ss < 10) (hd : st.d < 20) :
    ((st.put c).map fun st ↦ { st with d := st.d + 1, d1 := st.d1 + 1 }) = some (st.wrote [c]) := by
  rw [put_eq hss hd, wrote, Memory.putBytes_cons, Memory.putBytes_nil]
  rfl

theorem put_closed (hss : st.ss < 10) (hd : st.d = 0) (hw : w.length < 20) :
    (((st.wrote w).put 0).map fun st ↦
      { st with ss := st.ss + 1, d := 0, fflag := true, d1 := st.d1 + 1 }) = some (st.closed w) := by
  have hlen : (st.wrote w).d < 20 := by
    show st.d + w.length < 20
    omega
  rw [@put_eq (st.wrote w) 0 hss hlen, wrote, closed, closeRow]
  dsimp only [Option.map_some]
  rw [Function.update_self, Function.update_idem, hd, Nat.zero_add]

theorem cstring_closeRow {row : Memory} (hzero : 0 ∉ w) (hlen : w.length < 20) :
    (closeRow row w).cstring 20 0 = some w := by
  refine Memory.cstring_eq_some (fun i hi ↦ ?_) ?_ hzero hlen
  · rw [closeRow, Nat.zero_add, Function.update_of_ne (Nat.ne_of_lt hi)]
    have hput := Memory.putBytes_apply_of_mem (m := row) (a := 0) hi
    rwa [Nat.zero_add] at hput
  · rw [closeRow, Nat.zero_add, Function.update_self]

end SplitState

/-- The bytes of a segment go to the row, from the other index on. -/
theorem splitLoop_copy (hsep : sep ∉ t) (hzero : 0 ∉ t) (hss : st.ss < 10)
    (hd : st.d + t.length ≤ 20) (hd1 : st.d1 + t.length ≤ argv1.length) :
    splitLoop argv1 sep (t ++ left) st =
      splitLoop argv1 sep left (st.wrote ((argv1.drop st.d1).take (kept t))) := by
  induction t generalizing st with
  | nil =>
      have hkept : kept [] = 0 := rfl
      rw [hkept, List.take_zero, SplitState.wrote_nil]
      rfl
  | cons c t ih =>
      rw [List.mem_cons, not_or] at hsep hzero
      rw [List.length_cons] at hd hd1
      rw [List.cons_append, splitLoop, if_neg (Ne.symm hsep.1)]
      by_cases hc : c = chr '0'
      · -- neither index moves on
        have hkept : kept (c :: t) = kept t := List.countP_cons_of_neg (by simp [hc])
        rw [if_pos (.inr hc), ih hsep.2 hzero.2 hss (by omega) (by omega), hkept]
      · -- what is copied is the byte at the other index
        have hkept : kept (c :: t) = kept t + 1 := List.countP_cons_of_pos (decide_eq_true hc)
        have htake : (argv1.drop st.d1).take (kept t + 1) =
            argv1.getD st.d1 0 :: (argv1.drop (st.d1 + 1)).take (kept t) := by
          rw [List.drop_eq_getElem_cons (by omega), List.take_succ_cons, List.getD_eq_getElem]
        obtain ⟨st', hput, hst'⟩ := Option.map_eq_some_iff.mp
          (SplitState.put_wrote (c := argv1.getD st.d1 0) hss (show st.d < 20 by omega))
        rw [if_neg (not_or.mpr ⟨Ne.symm hzero.1, hc⟩), hput, Option.bind_some, hst', hkept, htake,
          ← SplitState.wrote_cons (w := (argv1.drop (st.d1 + 1)).take (kept t))]
        exact @ih (st.wrote [argv1.getD st.d1 0]) hsep.2 hzero.2 hss
          (show st.d + 1 + t.length ≤ 20 by omega) (show st.d1 + 1 + t.length ≤ argv1.length by omega)

/-- Behind the tenth row a separator stops the call. -/
theorem splitLoop_full (hss : 10 ≤ st.ss) (hsep : sep ∈ t) : splitLoop argv1 sep t st = none := by
  have hput (c : UInt8) : st.put c = none := if_neg fun h ↦ absurd h.1 (Nat.not_lt_of_le hss)
  induction t with
  | nil => cases hsep
  | cons c t ih =>
      rw [splitLoop]
      by_cases hc : c = sep
      · rw [if_pos hc, hput, Option.bind_none]
      · rw [if_neg hc]
        split
        · exact ih ((List.mem_cons.mp hsep).resolve_left (Ne.symm hc))
        · rw [hput, Option.bind_none]

theorem length_take_kept (hd1 : d1 + t.length ≤ argv1.length) :
    ((argv1.drop d1).take (kept t)).length = kept t := by
  have hkept := kept_le t
  rw [List.length_take, List.length_drop]
  omega

/-- Where the other index stands behind a segment. -/
theorem SplitState.d1_closed (hd1 : st.d1 + t.length ≤ argv1.length) :
    (st.closed ((argv1.drop st.d1).take (kept t))).d1 = st.d1 + kept t + 1 :=
  congrArg (st.d1 + · + 1) (length_take_kept hd1)

theorem splitLoop_segment (hd : st.d = 0) (hsep : sep ∉ t) (hzero : 0 ∉ t) (hss : st.ss < 10)
    (hlen : t.length < 20) (hd1 : st.d1 + t.length ≤ argv1.length) :
    splitLoop argv1 sep (t ++ sep :: left) st =
      splitLoop argv1 sep left (st.closed ((argv1.drop st.d1).take (kept t))) := by
  have hkept := kept_le t
  have htake := length_take_kept hd1
  obtain ⟨st', hput, hst'⟩ := Option.map_eq_some_iff.mp
    (SplitState.put_closed (w := (argv1.drop st.d1).take (kept t)) hss hd (by omega))
  rw [splitLoop_copy hsep hzero hss (by omega) hd1, splitLoop, if_pos rfl, hput, Option.bind_some,
    hst']

/-! ## All segments -/

/-- Segments that rows have room for. -/
def Segments (sep : UInt8) (segs : List CString) : Prop :=
  ∀ t ∈ segs, t.length < 20 ∧ sep ∉ t ∧ 0 ∉ t

/-- Each segment fills one row. -/
theorem splitLoop_spell (hs : Segments sep segs) (hd : st.d = 0) (hzero : 0 ∉ argv1)
    (hd1 : st.d1 + (spell sep segs).length ≤ argv1.length) (hss : st.ss + segs.length ≤ 10) :
    ∃ st', splitLoop argv1 sep (spell sep segs) st = some st' ∧ st'.ss = st.ss + segs.length ∧
      st'.fflag = (st.fflag || !segs.isEmpty) ∧ (∀ i < st.ss, st'.rows i = st.rows i) ∧
      ∀ j w, (heard argv1 st.d1 segs)[j]? = some w →
        (st'.rows (st.ss + j)).cstring 20 0 = some w := by
  induction segs generalizing st with
  | nil => exact ⟨st, rfl, rfl, (Bool.or_false _).symm, fun _ _ ↦ rfl, fun j w hj ↦ by cases hj⟩
  | cons t segs ih =>
      obtain ⟨hlen, hsep, hz⟩ := hs t List.mem_cons_self
      rw [spell_cons, List.length_append, List.length_cons] at hd1
      rw [List.length_cons] at hss
      have hkept := kept_le t
      have htake : ((argv1.drop st.d1).take (kept t)).length = kept t := length_take_kept (by omega)
      have hd1' := @SplitState.d1_closed argv1 t st (by omega)
      obtain ⟨st', hloop, hss', hfflag, hold, hrows⟩ :=
        @ih (st.closed ((argv1.drop st.d1).take (kept t)))
          (fun x hx ↦ hs x (List.mem_cons_of_mem t hx)) rfl (by omega)
          (show st.ss + 1 + segs.length ≤ 10 by omega)
      refine ⟨st', ?_, ?_, ?_, fun i hi ↦ ?_, fun j w hj ↦ ?_⟩
      · rw [spell_cons, splitLoop_segment hd hsep hz (by omega) hlen (by omega), hloop]
      · rw [hss', List.length_cons]
        exact Nat.add_right_comm _ _ _
      · rw [hfflag, List.isEmpty_cons, Bool.not_false, Bool.or_true]
        rfl
      · rw [hold i (Nat.lt_succ_of_lt hi)]
        exact Function.update_of_ne (Nat.ne_of_lt hi) _ _
      · cases j with
        | zero =>
            -- the segments behind do not touch the row
            obtain rfl := Option.some.inj hj
            rw [Nat.add_zero, hold st.ss (Nat.lt_succ_self _)]
            show (Function.update st.rows st.ss _ st.ss).cstring 20 0 = _
            rw [Function.update_self]
            refine SplitState.cstring_closeRow (fun h ↦ ?_) (by omega)
            exact hzero (List.mem_of_mem_drop (List.mem_of_mem_take h))
        | succ j =>
            have hrest := hrows j w (by rw [hd1']; exact hj)
            rwa [show (st.closed ((argv1.drop st.d1).take (kept t))).ss + j = st.ss + (j + 1) from
              Nat.add_right_comm _ _ _] at hrest

/-- There are too many segments for the rows. -/
theorem splitLoop_many (hs : Segments sep segs) (hd : st.d = 0)
    (hd1 : st.d1 + (spell sep segs).length ≤ argv1.length) (hss : st.ss ≤ 10)
    (hmany : 10 < st.ss + segs.length) : splitLoop argv1 sep (spell sep segs) st = none := by
  induction segs generalizing st with
  | nil => exact absurd hmany (Nat.not_lt_of_le hss)
  | cons t segs ih =>
      obtain ⟨hlen, hsep, hz⟩ := hs t List.mem_cons_self
      rw [spell_cons, List.length_append, List.length_cons] at hd1
      rw [List.length_cons] at hmany
      rw [spell_cons]
      rcases Nat.lt_or_eq_of_le hss with hlt | heq
      · have hkept := kept_le t
        have hd1' := @SplitState.d1_closed argv1 t st (by omega)
        rw [splitLoop_segment hd hsep hz hlt hlen (by omega)]
        exact @ih (st.closed ((argv1.drop st.d1).take (kept t)))
          (fun x hx ↦ hs x (List.mem_cons_of_mem t hx)) rfl (by omega) (show st.ss + 1 ≤ 10 from hlt)
          (show 10 < st.ss + 1 + segs.length by omega)
      · exact splitLoop_full heq.ge (List.mem_append_right t List.mem_cons_self)

/-! ## A call -/

theorem strcmpFrom_empty (a : CString) : strcmpFrom a [] 1 = -1 := by
  refine if_neg ?_
  rintro ⟨hlen, hstop⟩
  rw [hlen, List.length_nil] at hstop
  omega

theorem length_heard : (heard argv1 d1 segs).length = segs.length := by
  induction segs generalizing d1 with
  | nil => rfl
  | cons t segs ih => rw [heard, List.length_cons, ih, List.length_cons]

theorem zero_notMem_spell (hs : Segments sep segs) (hsep : sep ≠ 0) : 0 ∉ spell sep segs := by
  intro h
  obtain ⟨t, ht, hz⟩ := List.mem_flatMap.mp h
  rcases List.mem_append.mp hz with hz | hz
  · exact (hs t ht).2.2 hz
  · exact hsep (List.mem_singleton.mp hz).symm

/-- The tokens that `split` has for the segments: those of its last row and behind are emptied. -/
def returned (sep : UInt8) (segs : List CString) : List CString :=
  (heard (spell sep segs) 0 segs).take (max segs.length 2 - 1)

/-- The row of a token, once the rows from the last one on are emptied. -/
theorem row_returned {i : Nat} {rows : Rows} (hpos : 0 < segs.length) (hi : i < 10)
    (hrows : ∀ j w, (heard (spell sep segs) 0 segs)[j]? = some w →
      (rows j).cstring 20 0 = some w) :
    Memory.cstring (if max segs.length 2 - 1 ≤ i ∧ i < 10 then Function.update (rows i) 0 0
      else rows i) 20 0 = some ((returned sep segs).getD i []) := by
  rw [returned, List.getD_eq_getElem?_getD]
  by_cases hkeep : i < max segs.length 2 - 1
  · have hlt : i < (heard (spell sep segs) 0 segs).length := by
      rw [length_heard]
      omega
    rw [if_neg (by omega), hrows i _ (List.getElem?_eq_getElem hlt),
      List.getElem?_take_of_lt hkeep, List.getElem?_eq_getElem hlt, Option.getD_some]
  · have hout : (List.take (max segs.length 2 - 1) (heard (spell sep segs) 0 segs))[i]? = none := by
      rw [List.getElem?_eq_none_iff, List.length_take]
      omega
    rw [if_pos ⟨Nat.le_of_not_lt hkeep, hi⟩, hout, Option.getD_none, Memory.cstring,
      Function.update_self, if_pos rfl]

/-- What `split` returns for the segments of its string. -/
theorem split_eq (h : skipSeparator (withSeparator argv1 sep) sep = spell sep segs)
    (hs : Segments sep segs) (hsep : sep ≠ 0) (hk : 1 ≤ k) (hk' : k ≤ 10) (hlen : segs.length ≤ 10) :
    split rows k argv1 sep =
      some (some ((returned sep segs).getD (k - 1) []), withSeparator argv1 sep) := by
  obtain ⟨st, hloop, hss, hfflag, -, hrows⟩ := @splitLoop_spell (spell sep segs) sep
    { rows := rows } segs hs rfl (zero_notMem_spell hs hsep) (Nat.le_of_eq (Nat.zero_add _))
    (show 0 + segs.length ≤ 10 by omega)
  dsimp only at hss hrows hfflag
  rw [Nat.zero_add] at hss
  rw [split, h]
  dsimp only
  rw [hloop, Option.bind_some]
  cases hsegs : segs with
  | nil =>
      -- without a separator the string itself comes back
      rw [hsegs] at hfflag
      have hnone : st.fflag = false := hfflag
      rw [if_pos hnone, returned]
      rfl
  | cons t rest =>
      have hpos : 0 < segs.length := by
        rw [hsegs]
        exact Nat.succ_pos _
      rw [← hsegs]
      rw [hsegs, List.isEmpty_cons, Bool.not_false, Bool.or_true] at hfflag
      have hmax : (if st.ss = 1 ∨ st.ss = 0 then 2 else st.ss) = max segs.length 2 := by
        split
        · omega
        · omega
      rw [if_neg (by rw [hfflag]; exact Bool.noConfusion), hmax, if_neg (by omega)]
      have hrow := @row_returned sep segs (k - 1) st.rows hpos (by omega) fun j w hj ↦ by
        have hread := hrows j w hj
        rwa [Nat.zero_add] at hread
      rw [hrow, Option.map_some, strcmpFrom_empty, if_pos (by decide)]

/-- Too many segments run over the rows. -/
theorem split_many (h : skipSeparator (withSeparator argv1 sep) sep = spell sep segs)
    (hs : Segments sep segs) (hlen : 10 < segs.length) : split rows k argv1 sep = none := by
  have hnone := @splitLoop_many (spell sep segs) sep { rows := rows } segs hs rfl
    (Nat.le_of_eq (Nat.zero_add _)) (Nat.zero_le 10) (show 10 < 0 + segs.length by omega)
  rw [split, h]
  dsimp only
  rw [hnone, Option.bind_none]

/-! ## The tokens -/

/-- Up to the first `'0'` the segments are copied as they are. -/
theorem heard_append (hpre : ∀ t ∈ pre, chr '0' ∉ t) (h : argv1.drop d1 = spell sep (pre ++ post)) :
    heard argv1 d1 (pre ++ post) = pre ++ heard argv1 (d1 + (spell sep pre).length) post := by
  induction pre generalizing d1 with
  | nil => rfl
  | cons t pre ih =>
      rw [List.cons_append, spell_cons] at h
      have hkept := kept_eq (hpre t List.mem_cons_self)
      have hnext : argv1.drop (d1 + t.length + 1) = spell sep (pre ++ post) := by
        rw [Nat.add_assoc, ← List.drop_drop, h, ← List.drop_drop, List.drop_left, List.drop_one,
          List.tail_cons]
      rw [List.cons_append, heard, hkept, h, List.take_left, ih
        (fun x hx ↦ hpre x (List.mem_cons_of_mem t hx)) hnext, spell_cons, List.length_append,
        List.length_cons, List.cons_append]
      congr 3
      omega

end Sbunix
