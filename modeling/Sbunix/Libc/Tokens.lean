import Sbunix.Libc.SplitRun

/-!
# The tokens of a string

A string with separators around its tokens and one between two of them is split into the tokens and
empty segments.  Each call leaves one more empty segment behind.
-/

namespace Sbunix

open Reasoning

variable {sep : UInt8} {ts segs : List CString} {lead trail j k : Nat} {rows : Rows} {t : CString}
  {calls : List (Rows × Nat)} {argv1 : CString}

/-- Separators, the tokens with one separator between two of them, separators. -/
def delimited (sep : UInt8) (lead : Nat) (ts : List CString) (trail : Nat) : CString :=
  List.replicate lead sep ++ [sep].intercalate ts ++ List.replicate trail sep

/-- Each token fits into a row. -/
def Fit (sep : UInt8) (ts : List CString) : Prop :=
  ∀ t ∈ ts, t ≠ [] ∧ t.length ≤ 19 ∧ sep ∉ t ∧ 0 ∉ t

structure Tokens (sep : UInt8) (ts : List CString) : Prop where
  few : ts.length ≤ 8
  fit : Fit sep ts

/-- The segments that the loop sees. -/
def segments (lead : Nat) : List CString → Nat → List CString
  | [], trail => List.replicate (lead + trail) []
  | t :: ts, trail => List.replicate (lead - 1) [] ++ (t :: ts ++ List.replicate trail [])

theorem length_segments_cons :
    (segments lead (t :: ts) trail).length = lead - 1 + ((t :: ts).length + trail) := by
  rw [segments, List.length_append, List.length_append, List.length_replicate, List.length_replicate]

theorem length_segments_succ :
    (segments lead ts (trail + 1)).length = (segments lead ts trail).length + 1 := by
  cases ts with
  | nil =>
      rw [segments, segments, List.length_replicate, List.length_replicate]
      rfl
  | cons t ts =>
      rw [length_segments_cons, length_segments_cons]
      omega

theorem length_segments_le (n : Nat) :
    (segments lead ts trail).length ≤ (segments lead ts (trail + n)).length := by
  induction n with
  | zero => exact Nat.le_refl _
  | succ n ih =>
      rw [← Nat.add_assoc, length_segments_succ]
      exact Nat.le_succ_of_le ih

theorem spell_replicate : spell sep (List.replicate j []) = List.replicate j sep := by
  induction j with
  | zero => rfl
  | succ j ih =>
      rw [List.replicate_succ, spell_cons, ih, List.replicate_succ]
      rfl

/-- A separator behind the tokens closes the last one. -/
theorem intercalate_concat : [sep].intercalate (t :: ts) ++ [sep] = spell sep (t :: ts) := by
  induction ts generalizing t with
  | nil =>
      rw [List.intercalate_singleton, spell_cons]
      rfl
  | cons u ts ih =>
      rw [List.intercalate_cons_cons, List.append_assoc, ih, spell_cons (t := t), List.append_assoc]
      rfl

theorem withSeparator_delimited (hsep : sep ≠ 0) :
    withSeparator (delimited sep lead ts trail) sep = delimited sep lead ts (trail + 1) := by
  rw [withSeparator, if_neg hsep, delimited, delimited, List.append_assoc _ _ [sep],
    ← List.replicate_succ']

theorem delimited_nil : delimited sep lead [] trail = List.replicate (lead + trail) sep := by
  rw [delimited, List.intercalate_nil, List.append_nil, List.replicate_append_replicate]

theorem delimited_cons : delimited sep lead (t :: ts) (trail + 1) =
    List.replicate lead sep ++ (spell sep (t :: ts) ++ List.replicate trail sep) := by
  rw [delimited, List.replicate_succ, List.append_assoc, List.append_cons, intercalate_concat]

theorem skipSeparator_cons : skipSeparator (sep :: argv1) sep = argv1 := if_pos rfl

theorem skipSeparator_spell (ht : t ≠ []) (hsep : sep ∉ t) :
    skipSeparator (spell sep (t :: ts) ++ argv1) sep = spell sep (t :: ts) ++ argv1 := by
  obtain ⟨c, t, rfl⟩ := List.exists_cons_of_ne_nil ht
  rw [spell_cons]
  refine if_neg fun h ↦ hsep ?_
  obtain rfl := Option.some.inj h
  exact List.mem_cons_self

theorem skip_delimited (hs : Fit sep ts) (hsep : sep ≠ 0) :
    skipSeparator (withSeparator (delimited sep lead ts trail) sep) sep =
      spell sep (segments lead ts trail) := by
  rw [withSeparator_delimited hsep]
  cases ts with
  | nil =>
      rw [delimited_nil, ← Nat.add_assoc, List.replicate_succ, skipSeparator_cons, segments,
        spell_replicate]
  | cons t ts =>
      have hspell : spell sep (segments lead (t :: ts) trail) = List.replicate (lead - 1) sep ++
          (spell sep (t :: ts) ++ List.replicate trail sep) := by
        rw [segments, spell_append, spell_append, spell_replicate, spell_replicate]
      rw [hspell, delimited_cons]
      cases lead with
      | zero =>
          obtain ⟨ht, -, hmem, -⟩ := hs t List.mem_cons_self
          exact skipSeparator_spell ht hmem
      | succ lead =>
          rw [List.replicate_succ, List.cons_append, skipSeparator_cons]
          rfl

theorem segments_fit (hs : Fit sep ts) : Segments sep (segments lead ts trail) := by
  have hempty : ∀ {n : Nat} {x : CString}, x ∈ List.replicate n [] →
      x.length < 20 ∧ sep ∉ x ∧ 0 ∉ x := fun hx ↦ by
    obtain rfl := List.eq_of_mem_replicate hx
    exact ⟨by decide, List.not_mem_nil, List.not_mem_nil⟩
  intro x hx
  cases ts with
  | nil => exact hempty hx
  | cons t ts =>
      rcases List.mem_append.mp hx with hx | hx
      · exact hempty hx
      rcases List.mem_append.mp hx with hx | hx
      · obtain ⟨-, hlen, hrest⟩ := hs x hx
        exact ⟨Nat.lt_succ_of_le hlen, hrest⟩
      · exact hempty hx

/-! ## Calls in a row -/

/-- A call behind other calls with the same buffer, each of them with a table of its own. -/
def splitAfter (rows : Rows) (toknum : Nat) (argv1 : CString) (separator : UInt8) :
    List (Rows × Nat) → Option (Option CString × CString)
  | [] => split rows toknum argv1 separator
  | call :: calls => (split call.1 call.2 argv1 separator).bind fun r ↦
      splitAfter rows toknum r.2 separator calls

/-- Earlier calls leave more separators behind the tokens. -/
theorem splitAfter_delimited (hs : Fit sep ts) (hsep : sep ≠ 0)
    (hcalls : ∀ c ∈ calls, 1 ≤ c.2 ∧ c.2 ≤ 10) :
    splitAfter rows k (delimited sep lead ts trail) sep calls =
      split rows k (delimited sep lead ts (trail + calls.length)) sep := by
  induction calls generalizing trail with
  | nil => rfl
  | cons c calls ih =>
      obtain ⟨hc, hc'⟩ := hcalls c List.mem_cons_self
      rw [splitAfter]
      rcases Nat.lt_or_ge 10 (segments lead ts trail).length with hmany | hfew
      · -- once there are too many segments, there are too many for all later calls
        have hgrow := hmany.trans_le (length_segments_le (c :: calls).length)
        rw [split_many (skip_delimited hs hsep) (segments_fit hs) hmany,
          split_many (skip_delimited hs hsep) (segments_fit hs) hgrow]
        rfl
      · rw [split_eq (skip_delimited hs hsep) (segments_fit hs) hsep hc hc' hfew, Option.bind_some,
          withSeparator_delimited hsep, ih fun c hc ↦ hcalls c (List.mem_cons_of_mem _ hc),
          List.length_cons, Nat.add_right_comm, Nat.add_assoc]

/-! ## The law -/

/-- A call behind the calls `calls` returns the token that it is asked for, or the empty string. -/
def TokenLaw (sep : UInt8) (lead : Nat) (ts : List CString) (trail : Nat)
    (calls : List (Rows × Nat)) : Prop :=
  ∀ rows k, 1 ≤ k → k ≤ 10 → ∃ argv1,
    splitAfter rows k (delimited sep lead ts trail) sep calls =
      some (some (ts.getD (k - 1) []), argv1)

/-- Where behind `n` calls the next one keeps to the law.  The last segment is lost, and a `'0'`
everywhere; there are ten rows. -/
def SplitsRight (sep : UInt8) (lead : Nat) (ts : List CString) (trail n : Nat) : Prop :=
  if sep = 0 then ts = []
  else if ts = [] then lead + trail + n ≤ 10
  else lead ≤ 1 ∧ ts.length + trail + n ≤ 10 ∧ (ts.length = 1 ∨ 0 < trail + n) ∧
    ∀ t ∈ ts, chr '0' ∉ t

theorem heard_getElem_length (h : j < segs.length) {w : CString} {d1 : Nat}
    (hw : (heard argv1 d1 segs)[j]? = some w) : w.length ≤ kept segs[j] := by
  induction segs generalizing d1 j with
  | nil => exact absurd h (Nat.not_lt_zero j)
  | cons t segs ih =>
      cases j with
      | zero =>
          obtain rfl := Option.some.inj hw
          exact List.length_take_le _ _
      | succ j => exact ih (Nat.lt_of_succ_lt_succ h) hw

theorem heard_replicate {d1 : Nat} :
    heard argv1 d1 (List.replicate j []) = List.replicate j [] := by
  induction j generalizing d1 with
  | zero => rfl
  | succ j ih =>
      rw [List.replicate_succ, heard, ih]
      rfl

theorem getD_append_replicate (ts : List CString) (i j : Nat) :
    (ts ++ List.replicate j []).getD i [] = ts.getD i [] := by
  rcases Nat.lt_or_ge i ts.length with hlt | hge
  · rw [List.getD_append _ _ _ _ hlt]
  · rw [List.getD_append_right _ _ _ _ hge, List.getD_eq_default _ _ hge]
    rcases Nat.lt_or_ge (i - ts.length) j with hlt | hge
    · rw [List.getD_replicate _ hlt]
    · exact List.getD_eq_default _ _ (by rwa [List.length_replicate])

theorem getD_take {l : List CString} {i n : Nat} (h : i < n ∨ l.getD i [] = []) :
    (l.take n).getD i [] = l.getD i [] := by
  rcases Nat.lt_or_ge i n with hlt | hge
  · rw [List.getD_eq_getElem?_getD, List.getElem?_take_of_lt hlt, List.getD_eq_getElem?_getD]
  · rw [h.resolve_left (Nat.not_lt_of_le hge)]
    refine List.getD_eq_default _ _ ?_
    exact (List.length_take_le n l).trans hge

theorem returned_replicate {i n : Nat} :
    (returned sep (List.replicate n [])).getD i [] = [] := by
  have hempty : (List.replicate n ([] : CString)).getD i [] = [] := getD_append_replicate [] i n
  rw [returned, heard_replicate, getD_take (.inr hempty), hempty]

/-- What comes back is no longer than the bytes that are kept of the segment. -/
theorem length_returned_le {i : Nat} :
    ((returned sep segs).getD i []).length ≤ kept (segs.getD i []) := by
  rw [returned, List.getD_eq_getElem?_getD]
  rcases Nat.lt_or_ge i (max segs.length 2 - 1) with hlt | hge
  · rw [List.getElem?_take_of_lt hlt]
    rcases Nat.lt_or_ge i segs.length with hi | hi
    · have hi' : i < (heard (spell sep segs) 0 segs).length := by rwa [length_heard]
      have hw := List.getElem?_eq_getElem hi'
      rw [hw, Option.getD_some, List.getD_eq_getElem _ _ hi]
      exact heard_getElem_length hi hw
    · rw [List.getElem?_eq_none (by rwa [length_heard])]
      exact Nat.zero_le _
  · rw [List.getElem?_eq_none ((List.length_take_le _ _).trans hge)]
    exact Nat.zero_le _

/-- A token comes back when no token up to it has a `'0'` and it is not in the last row of several. -/
theorem returned_getD {i n : Nat} (hzero : ∀ t ∈ ts.take (i + 1), chr '0' ∉ t)
    (hlast : i < max (ts.length + n) 2 - 1 ∨ ts.length ≤ i) :
    (returned sep (ts ++ List.replicate n [])).getD i [] = ts.getD i [] := by
  rcases Nat.lt_or_ge i ts.length with hlt | hge
  · have hsplit : ts ++ List.replicate n [] =
        ts.take (i + 1) ++ (ts.drop (i + 1) ++ List.replicate n []) := by
      rw [← List.append_assoc, List.take_append_drop]
    have hlen : (ts ++ List.replicate n ([] : CString)).length = ts.length + n := by
      rw [List.length_append, List.length_replicate]
    have htake : i < (ts.take (i + 1)).length := by
      rw [List.length_take]
      omega
    rw [returned, hlen, getD_take (.inl (hlast.resolve_right (Nat.not_le_of_lt hlt))), hsplit,
      heard_append hzero rfl, List.getD_append _ _ _ _ htake, List.getD_eq_getElem _ _ htake,
      List.getElem_take, List.getD_eq_getElem _ _ hlt]
  · have hshort := @length_returned_le sep (ts ++ List.replicate n []) i
    rw [getD_append_replicate, List.getD_eq_default _ _ hge] at hshort
    rw [List.getD_eq_default _ _ hge]
    exact List.eq_nil_of_length_eq_zero (Nat.le_zero.mp hshort)

/-- What is behind the last row that is kept is empty. -/
theorem returned_last {n : Nat} (hlen : segs.length = n + 1) (hn : 1 ≤ n) :
    (returned sep segs).getD n [] = [] := by
  refine List.getD_eq_default _ _ ((List.length_take_le _ _).trans ?_)
  omega

/-- For one buffer the law speaks of what is returned for its segments. -/
theorem tokenLaw_returned (hs : Fit sep ts) (hsep : sep ≠ 0)
    (hcalls : ∀ c ∈ calls, 1 ≤ c.2 ∧ c.2 ≤ 10) : TokenLaw sep lead ts trail calls ↔
      (segments lead ts (trail + calls.length)).length ≤ 10 ∧ ∀ i < 10,
        (returned sep (segments lead ts (trail + calls.length))).getD i [] = ts.getD i [] := by
  have hskip := @skip_delimited sep ts lead (trail + calls.length) hs hsep
  have hfit := @segments_fit sep ts lead (trail + calls.length) hs
  constructor
  · intro h
    have hfew : (segments lead ts (trail + calls.length)).length ≤ 10 := by
      by_contra hmany
      obtain ⟨argv1, hlaw⟩ := h (fun _ _ ↦ 0) 1 (Nat.le_refl 1) (by decide)
      rw [splitAfter_delimited hs hsep hcalls, split_many hskip hfit (Nat.lt_of_not_le hmany)] at hlaw
      cases hlaw
    refine ⟨hfew, fun i hi ↦ ?_⟩
    obtain ⟨argv1, hlaw⟩ := h (fun _ _ ↦ 0) (i + 1) (Nat.le_add_left 1 i) hi
    rw [splitAfter_delimited hs hsep hcalls,
      split_eq hskip hfit hsep (Nat.le_add_left 1 i) hi hfew] at hlaw
    exact Option.some.inj (Prod.mk.inj (Option.some.inj hlaw)).1
  · rintro ⟨hfew, htok⟩ rows k hk hk'
    refine ⟨withSeparator (delimited sep lead ts (trail + calls.length)) sep, ?_⟩
    rw [splitAfter_delimited hs hsep hcalls, split_eq hskip hfit hsep hk hk' hfew,
      htok (k - 1) (by omega)]

/-- One separator in front is skipped. -/
theorem segments_of_lead {n : Nat} (hlead : lead ≤ 1) :
    segments lead (t :: ts) n = t :: ts ++ List.replicate n [] := by
  rw [segments, Nat.sub_eq_zero_of_le hlead]
  rfl

/-- With tokens in the string, all that the condition names is needed. -/
theorem returned_segments_iff {n : Nat} (hs : Fit sep (t :: ts))
    (hfew : (segments lead (t :: ts) n).length ≤ 10) :
    (∀ i < 10, (returned sep (segments lead (t :: ts) n)).getD i [] = (t :: ts).getD i []) ↔
      lead ≤ 1 ∧ ((t :: ts).length = 1 ∨ 0 < n) ∧ ∀ x ∈ t :: ts, chr '0' ∉ x := by
  have hne : ∀ x ∈ t :: ts, x ≠ [] := fun x hx ↦ (hs x hx).1
  constructor
  · intro h
    have hlead : lead ≤ 1 := by
      by_contra hlead
      obtain ⟨m, hm⟩ : ∃ m, lead - 1 = m + 1 := ⟨lead - 2, by omega⟩
      have hfirst := @length_returned_le sep (segments lead (t :: ts) n) 0
      rw [h 0 (by decide), segments, hm, List.replicate_succ] at hfirst
      exact hne t List.mem_cons_self (List.eq_nil_of_length_eq_zero (Nat.le_zero.mp hfirst))
    have hsegs : segments lead (t :: ts) n = t :: ts ++ List.replicate n [] :=
      segments_of_lead hlead
    have hlen : (segments lead (t :: ts) n).length = (t :: ts).length + n := by
      rw [hsegs, List.length_append, List.length_replicate]
    refine ⟨hlead, ?_, fun x hx hmem ↦ ?_⟩
    · -- the last token would be in the last row, which is emptied
      by_contra hlast
      obtain ⟨m, hm⟩ : ∃ m, (t :: ts).length = m + 1 := ⟨ts.length, rfl⟩
      have hgone : (returned sep (segments lead (t :: ts) n)).getD m [] = [] :=
        returned_last (by omega) (by omega)
      rw [h m (by omega), List.getD_eq_getElem _ _ (by omega)] at hgone
      exact hne _ (List.getElem_mem _) hgone
    · obtain ⟨i, hi, rfl⟩ := List.getElem_of_mem hx
      have hshort := @length_returned_le sep (segments lead (t :: ts) n) i
      rw [h i (by omega), hsegs, getD_append_replicate, List.getD_eq_getElem _ _ hi] at hshort
      exact absurd (kept_lt hmem) (Nat.not_lt_of_le hshort)
  · rintro ⟨hlead, hlast, hzero⟩ i -
    have hsegs : segments lead (t :: ts) n = t :: ts ++ List.replicate n [] :=
      segments_of_lead hlead
    rw [hsegs, returned_getD fun x hx ↦ hzero x (List.mem_of_mem_take hx)]
    rcases Nat.lt_or_ge i (t :: ts).length with hlt | hge
    · exact .inl (by omega)
    · exact .inr hge

/-! ### NUL as the separator -/

/-- A string has no NUL, so the whole of it comes back for every number. -/
theorem split_nul (hzero : 0 ∉ argv1) (hlen : argv1.length ≤ 19) :
    split rows k argv1 0 = some (some argv1, argv1) := by
  have hskip : skipSeparator argv1 0 = argv1 :=
    if_neg fun h ↦ hzero (List.mem_of_mem_head? h)
  have hloop := @splitLoop_copy argv1 argv1 [] 0 { rows := rows } hzero hzero
    (show 0 < 10 by decide) (show 0 + argv1.length ≤ 20 by omega) (Nat.le_of_eq (Nat.zero_add _))
  rw [List.append_nil] at hloop
  rw [split, withSeparator, if_pos rfl]
  dsimp only
  rw [hskip, hloop]
  rfl

theorem splitAfter_nul (hzero : 0 ∉ argv1) (hlen : argv1.length ≤ 19) :
    splitAfter rows k argv1 0 calls = some (some argv1, argv1) := by
  induction calls with
  | nil => exact split_nul hzero hlen
  | cons c calls ih => rw [splitAfter, split_nul hzero hlen, Option.bind_some, ih]

/-- With NUL as the separator there is no separator in the string. -/
theorem delimited_nul (hzero : 0 ∉ delimited 0 lead ts trail) :
    ts = [] ∧ delimited 0 lead ts trail = [] ∨ ∃ t, ts = [t] ∧ delimited 0 lead ts trail = t := by
  rw [delimited, List.mem_append, List.mem_append, not_or, not_or] at hzero
  obtain ⟨⟨hlead, hmid⟩, htrail⟩ := hzero
  have hnone : ∀ {n : Nat}, (0 : UInt8) ∉ List.replicate n 0 → n = 0 := fun h ↦ by
    by_contra hn
    exact h (List.mem_replicate.mpr ⟨hn, rfl⟩)
  obtain rfl := hnone hlead
  obtain rfl := hnone htrail
  rcases ts with _ | ⟨t, _ | ⟨u, ts⟩⟩
  · exact .inl ⟨rfl, rfl⟩
  · refine .inr ⟨t, rfl, ?_⟩
    rw [delimited, List.intercalate_singleton]
    exact List.append_nil t
  · rw [List.intercalate_cons_cons, List.append_assoc] at hmid
    exact absurd (List.mem_append_right t (List.mem_append_left _ List.mem_cons_self)) hmid

theorem tokenLaw_nul (hs : Fit 0 ts) (hzero : 0 ∉ delimited 0 lead ts trail) :
    TokenLaw 0 lead ts trail calls ↔ ts = [] := by
  rcases delimited_nul hzero with ⟨rfl, hstr⟩ | ⟨t, rfl, hstr⟩
  · refine ⟨fun _ ↦ rfl, fun _ rows k _ _ ↦ ⟨[], ?_⟩⟩
    rw [hstr, splitAfter_nul List.not_mem_nil (by decide)]
    rfl
  · obtain ⟨hne, hlen, -, ht⟩ := hs t List.mem_cons_self
    refine ⟨fun h ↦ ?_, fun h ↦ by cases h⟩
    obtain ⟨argv1, hlaw⟩ := h (fun _ _ ↦ 0) 2 (by decide) (by decide)
    rw [hstr, splitAfter_nul ht hlen] at hlaw
    exact absurd (Option.some.inj (Prod.mk.inj (Option.some.inj hlaw)).1) hne

/-! ### The condition -/

/-- A call keeps to the law just where the condition holds of the calls before it. -/
theorem tokenLaw_iff (hs : Tokens sep ts) (hstr : 0 ∉ delimited sep lead ts trail)
    (hcalls : ∀ c ∈ calls, 1 ≤ c.2 ∧ c.2 ≤ 10) :
    TokenLaw sep lead ts trail calls ↔ SplitsRight sep lead ts trail calls.length := by
  rw [SplitsRight]
  by_cases hsep : sep = 0
  · subst hsep
    rw [if_pos rfl, tokenLaw_nul hs.fit hstr]
  rw [if_neg hsep, tokenLaw_returned hs.fit hsep hcalls]
  cases ts with
  | nil =>
      rw [if_pos rfl, segments, List.length_replicate, ← Nat.add_assoc]
      exact and_iff_left fun i _ ↦ returned_replicate
  | cons t ts =>
      rw [if_neg (List.cons_ne_nil t ts), Nat.add_assoc]
      constructor
      · rintro ⟨hfew, h⟩
        obtain ⟨hlead, hlast, hzero⟩ := (returned_segments_iff hs.fit hfew).mp h
        rw [length_segments_cons] at hfew
        exact ⟨hlead, by omega, hlast, hzero⟩
      · rintro ⟨hlead, hlen, hlast, hzero⟩
        have hfew : (segments lead (t :: ts) (trail + calls.length)).length ≤ 10 := by
          rw [length_segments_cons]
          omega
        exact ⟨hfew, (returned_segments_iff hs.fit hfew).mpr ⟨hlead, hlast, hzero⟩⟩

/-- The second call for `ls -l`. -/
theorem tokenLaw_ls : TokenLaw (chr ' ') 0 [[108, 115], [45, 108]] 0 [(fun _ _ ↦ 0, 1)] :=
  (tokenLaw_iff ⟨by decide, by rw [Fit]; decide⟩ (by decide) (by decide)).mpr
    (by rw [SplitsRight]; decide)

/-- The first call loses the last of two tokens. -/
theorem not_tokenLaw_first : ¬ TokenLaw (chr ' ') 0 [[108, 115], [45, 108]] 0 [] := by
  intro h
  obtain ⟨argv1, hlaw⟩ := h (fun _ _ ↦ 0) 2 (by decide) (by decide)
  have hnone : (split (fun _ _ ↦ 0) 2 [108, 115, 32, 45, 108] (chr ' ')).map (·.1) =
      some (some []) := by decide
  have hsome : some (some []) = some (some ([45, 108] : CString)) :=
    hnone.symm.trans (congrArg (Option.map Prod.fst) hlaw)
  exact absurd hsome (by decide)

end Sbunix
