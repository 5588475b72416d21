import Sbunix.Libc.Cd
import Sbunix.Libc.Tokens
import Sbunix.Reasoning.Paths

/-!
# Where `cd` leads to

The first call of `split` leaves one slash behind the path and the second one another, so the loop is
left behind the second token that was asked for, or the third where the second is a dot.
-/

namespace Sbunix

open Reasoning

variable {rows : Nat → Rows} {st : CdState} {cs ts ws us : List CString} {t w token buf path : CString}
  {fuel : Nat} {R : List CString}

/-- The text of an absolute path. -/
def pathText (cs : List CString) : CString := prefixed slash (rooted cs)

theorem strcmpFrom_zero {a b : CString} : strcmpFrom a b 0 = 0 ↔ a = b := by
  rw [← strcmp_eq_zero_iff, strcmpFrom, strcmp, List.drop_zero, List.drop_zero, Nat.zero_add]

/-! ## The edits of `tempbuf` -/

theorem length_prefixed_concat :
    (prefixed slash (ws ++ [w])).length = (prefixed slash ws).length + 1 + w.length := by
  rw [prefixed_concat, List.length_append, List.length_cons, Nat.add_right_comm]
  rfl

theorem parentDir_prefixed (hw : slash ∉ w) :
    parentDir (prefixed slash (ws ++ [w])) = some (prefixed slash (rooted ws)) := by
  have hall : ∀ c ∈ w.reverse, decide (c ≠ slash) = true := fun c hc ↦
    decide_eq_true fun he ↦ hw (he ▸ List.mem_reverse.mp hc)
  have hdrop : (prefixed slash (ws ++ [w])).reverse.dropWhile (· ≠ slash) =
      slash :: (prefixed slash ws).reverse := by
    rw [prefixed_concat, List.reverse_append, List.reverse_cons, List.append_assoc,
      List.dropWhile_append_of_pos hall]
    exact List.dropWhile_cons_of_neg (by simp)
  rw [parentDir, hdrop]
  cases ws with
  | nil => rfl
  | cons v ws =>
      have hne : (prefixed slash (v :: ws)).reverse ≠ [] := by
        rw [prefixed_cons, List.reverse_cons]
        exact List.append_ne_nil_of_right_ne_nil _ (List.cons_ne_nil _ _)
      dsimp only
      rw [if_neg hne, List.reverse_reverse, rooted_of_ne_nil (List.cons_ne_nil v ws)]

theorem appendToken_prefixed (h : (prefixed slash ws).length + 1 + token.length < 160) :
    appendToken (prefixed slash ws) token = some (prefixed slash (ws ++ [token])) := by
  rw [appendToken, if_pos h, prefixed_concat]

/-- What a token that is no dot makes of the words. -/
def touch (ws : List CString) (t : CString) : List CString :=
  if t = dotdot then rooted ws.dropLast else ws ++ [t]

theorem mem_touch (h : w ∈ touch ws t) : w ∈ ws ∨ w = t ∨ w = [] := by
  rw [touch] at h
  split at h
  · rw [rooted] at h
    split at h
    · exact .inr (.inr (List.mem_singleton.mp h))
    · exact .inl (List.dropLast_subset ws h)
  · exact (List.mem_append.mp h).imp_right fun h ↦ .inl (List.mem_singleton.mp h)

theorem touch_ne_nil : touch ws t ≠ [] := by
  rw [touch]
  split
  · exact rooted_ne_nil
  · exact List.append_ne_nil_of_right_ne_nil _ (List.cons_ne_nil _ _)

theorem length_touch_le (hws : ws ≠ []) :
    (prefixed slash (touch ws t)).length ≤ (prefixed slash ws).length + 1 + t.length := by
  obtain ⟨vs, v, rfl⟩ := (List.eq_nil_or_concat' ws).resolve_left hws
  rw [touch]
  split
  · rw [List.dropLast_concat, length_prefixed_concat, rooted]
    split
    · show 1 ≤ _
      omega
    · omega
  · exact Nat.le_of_eq length_prefixed_concat

/-- A token that is no dot is worked off in one go. -/
theorem CdState.step_eq (hdot : token ≠ dot) (htemp : st.tempbuf = prefixed slash ws) (hws : ws ≠ [])
    (hslash : ∀ w ∈ ws, slash ∉ w) (hpath : st.path.head? ≠ some slash)
    (hroom : (prefixed slash ws).length + 1 + token.length < 160) :
    st.step rows token = some ({ st with tempbuf := prefixed slash (touch ws token) }, false) := by
  rw [step, touch]
  by_cases hdd : token = dotdot
  · obtain ⟨vs, v, rfl⟩ := (List.eq_nil_or_concat' ws).resolve_left hws
    rw [if_pos (strcmpFrom_zero.mpr hdd), if_pos hdd, htemp,
      parentDir_prefixed (hslash v (List.mem_append_right _ (List.mem_singleton_self v))),
      List.dropLast_concat]
    rfl
  · rw [if_neg fun h ↦ hdd (strcmpFrom_zero.mp h), if_neg hdd, if_neg hpath,
      if_neg fun h ↦ hdot (strcmpFrom_zero.mp h), htemp, appendToken_prefixed hroom]
    rfl

/-! ## The path and its slashes -/

/-- The path is not taken for an absolute one. -/
theorem head_delimited {n : Nat} (hs : Fit slash ts) (hne : ts ≠ []) (hn : 0 < n) :
    (delimited slash 0 ts n).head? ≠ some slash := by
  obtain ⟨t, us, rfl⟩ := List.exists_cons_of_ne_nil hne
  obtain ⟨n, rfl⟩ := Nat.exists_eq_add_one.mpr hn
  obtain ⟨ht, -, hslash, -⟩ := hs t List.mem_cons_self
  obtain ⟨c, t, rfl⟩ := List.exists_cons_of_ne_nil ht
  rw [delimited_cons, spell_cons]
  exact fun h ↦ hslash (Option.some.inj h ▸ List.mem_cons_self)

/-- The path ends with two slashes behind the second call. -/
theorem twoSlashes_delimited {n : Nat} (hs : Fit slash ts) (hne : ts ≠ []) :
    twoSlashes (delimited slash 0 ts (n + 1)) = true ↔ 0 < n := by
  obtain ⟨us, t, rfl⟩ := (List.eq_nil_or_concat' ts).resolve_left hne
  obtain ⟨ht, -, hslash, -⟩ := hs t (List.mem_append_right us (List.mem_singleton_self t))
  obtain ⟨t, c, rfl⟩ := (List.eq_nil_or_concat' t).resolve_left ht
  have hc : c ≠ slash := fun he ↦ hslash (he ▸ List.mem_append_right t (List.mem_singleton_self c))
  obtain ⟨v, vs, hvs⟩ := List.exists_cons_of_ne_nil hne
  have htext : delimited slash 0 (us ++ [t ++ [c]]) (n + 1) =
      (spell slash us ++ t) ++ (c :: List.replicate (n + 1) slash) := by
    rw [hvs, delimited_cons, ← hvs, spell_append, spell_cons, List.replicate_succ]
    simp [spell]
  rw [twoSlashes, List.isSuffixOf_iff_suffix, htext]
  cases n with
  | zero =>
      refine iff_of_false (fun h ↦ ?_) (Nat.lt_irrefl 0)
      obtain ⟨pre, hpre⟩ := h
      exact hc (List.cons.inj (List.append_inj' hpre rfl).2).1.symm
  | succ n =>
      refine iff_of_true ⟨spell slash us ++ t ++ c :: List.replicate n slash, ?_⟩ n.succ_pos
      rw [List.replicate_succ', List.replicate_succ', List.append_assoc (List.replicate n slash)]
      exact List.append_assoc _ (c :: List.replicate n slash) [slash, slash]

theorem CdState.nextToken_eq (hs : Fit slash ts) (hne : ts ≠ [])
    (hpath : st.path = delimited slash 0 ts st.j) (hzero : ∀ t ∈ ts.take (st.j + 1), chr '0' ∉ t)
    (hj : st.j < 10) : st.nextToken rows =
      if ts.length + st.j ≤ 10 then some (some (ts.getD st.j []),
        { st with path := delimited slash 0 ts (st.j + 1), j := st.j + 1 })
      else none := by
  obtain ⟨t, ts, rfl⟩ := List.exists_cons_of_ne_nil hne
  have hskip := @skip_delimited slash (t :: ts) 0 st.j hs (by decide)
  have hfit := @segments_fit slash (t :: ts) 0 st.j hs
  have hlen : (segments 0 (t :: ts) st.j).length = (t :: ts).length + st.j := by
    rw [length_segments_cons, Nat.zero_sub, Nat.zero_add]
  have hsegs : segments 0 (t :: ts) st.j = t :: ts ++ List.replicate st.j [] := rfl
  rw [nextToken, hpath]
  split
  · rw [split_eq hskip hfit (by decide) (Nat.le_add_left 1 _) hj (by omega), Nat.add_sub_cancel,
      hsegs, returned_getD hzero (by rw [List.length_cons]; omega),
      withSeparator_delimited (by decide)]
    rfl
  · rw [split_many hskip hfit (by omega)]
    rfl

/-! ## The loop -/

/-- A token that is no dot: the loop is left behind the second call of `split`. -/
theorem CdState.loop_touch (hs : Fit slash ts) (hne : ts ≠ []) (hj : 0 < st.j)
    (hpath : st.path = delimited slash 0 ts st.j) (hdot : token ≠ dot)
    (htemp : st.tempbuf = prefixed slash ws) (hws : ws ≠ []) (hslash : ∀ w ∈ ws, slash ∉ w)
    (hroom : (prefixed slash ws).length + 1 + token.length < 160) :
    CdState.loop rows (fuel + 1) (some token) st =
      if 1 < st.j then some { st with tempbuf := prefixed slash (touch ws token) }
      else (CdState.nextToken rows { st with tempbuf := prefixed slash (touch ws token) }).bind
        fun r ↦ CdState.loop rows fuel r.1 r.2 := by
  have hhead : st.path.head? ≠ some slash := hpath ▸ head_delimited hs hne hj
  have hstop : twoSlashes st.path = true ↔ 1 < st.j := by
    obtain ⟨n, hn⟩ := Nat.exists_eq_add_one.mpr hj
    rw [hpath, hn, twoSlashes_delimited hs hne]
    omega
  rw [loop, step_eq hdot htemp hws hslash hhead hroom, Option.bind_some]
  dsimp only
  simp only [Bool.false_eq_true, false_or, hstop]

/-- Behind a dot the next token is appended, and the loop is left. -/
theorem CdState.loop_dot (hs : Fit slash ts) (hne : ts ≠ []) (hj : 0 < st.j) (hj' : st.j < 10)
    (hpath : st.path = delimited slash 0 ts st.j) (hzero : ∀ t ∈ ts.take (st.j + 1), chr '0' ∉ t)
    (htemp : st.tempbuf = prefixed slash ws)
    (hroom : (prefixed slash ws).length + 1 + (ts.getD st.j []).length < 160) :
    CdState.loop rows (fuel + 1) (some dot) st = if ts.length + st.j ≤ 10 then
        some ⟨prefixed slash (ws ++ [ts.getD st.j []]), delimited slash 0 ts (st.j + 1), st.j + 1⟩
      else none := by
  have hhead : st.path.head? ≠ some slash := hpath ▸ head_delimited hs hne hj
  -- the call for the next token leaves a second slash
  have hstop : twoSlashes (delimited slash 0 ts (st.j + 1)) = true :=
    (twoSlashes_delimited hs hne).mpr hj
  have hdd : strcmpFrom dot dotdot 0 ≠ 0 := by decide
  have hdot : strcmpFrom dot dot 0 = 0 := by decide
  rw [loop, step, if_neg hdd, if_neg hhead, if_pos hdot, nextToken_eq hs hne hpath hzero hj']
  split
  · dsimp only [Option.bind_some]
    rw [htemp, appendToken_prefixed hroom, Option.map_some, Option.bind_some]
    exact if_pos (.inr hstop)
  · rfl

/-! ## The call -/

/-- How many tokens are asked for. -/
def asked (ts : List CString) : Nat := if ts.getD 0 [] ≠ dot ∧ ts.getD 1 [] = dot then 3 else 2

/-- The words that the call leaves. -/
def walked (ws ts : List CString) : List CString :=
  if ts = [] then [[]]
  else if ts.getD 0 [] = dot then ws ++ [ts.getD 1 []]
  else if ts.getD 1 [] = dot then touch ws (ts.getD 0 []) ++ [ts.getD 2 []]
  else touch (touch ws (ts.getD 0 [])) (ts.getD 1 [])

/-- The strings of a call: the current path is absolute, with or without a slash at its end, and the
buffers have room. -/
structure CdInput (buf path : CString) (cs ts : List CString) : Prop where
  buf_eq : buf = pathText cs ∨ buf = pathText cs ++ [slash]
  path_eq : path = [slash].intercalate ts
  dirs : ∀ c ∈ cs, c ≠ [] ∧ slash ∉ c
  fit : Fit slash ts
  room : (pathText cs).length + (spell slash (ts.take 3)).length < 159

namespace CdInput

variable (h : CdInput buf path cs ts)

include h

theorem slash_notMem : ∀ w ∈ rooted cs, slash ∉ w := notMem_rooted fun c hc ↦ (h.dirs c hc).2

/-- `cd` starts from the path without a slash at its end. -/
theorem cdStart_eq : cdStart buf = some (pathText cs) := by
  have hhead : (pathText cs).head? = some slash := by
    obtain ⟨w, ws, hws⟩ := List.exists_cons_of_ne_nil (@rooted_ne_nil UInt8 cs)
    rw [pathText, hws]
    rfl
  have hdouble : pathText cs ≠ [slash, slash] := fun he ↦ by
    have hwords : rooted cs = [[], []] :=
      (prefixed_inj h.slash_notMem (by simp)).mp (he.trans rfl)
    rw [rooted] at hwords
    split at hwords
    · cases hwords
    · exact (h.dirs [] (hwords ▸ List.mem_cons_self)).1 rfl
  have hkeep : (if strcmpFrom (pathText cs) [slash, slash] 0 = 0 then [slash] else pathText cs) =
      pathText cs := if_neg fun he ↦ hdouble (strcmpFrom_zero.mp he)
  rcases h.buf_eq with hbuf | hbuf
  · by_cases hnil : cs = []
    · -- the root loses its slash and gets it back
      rw [hbuf, hnil]
      rfl
    · obtain ⟨us, t, rfl⟩ := (List.eq_nil_or_concat' cs).resolve_left hnil
      obtain ⟨ht, hslash⟩ := h.dirs t (List.mem_append_right us (List.mem_singleton_self t))
      obtain ⟨t, c, rfl⟩ := (List.eq_nil_or_concat' t).resolve_left ht
      have hlast : (pathText (us ++ [t ++ [c]])).getLast? ≠ some slash := by
        rw [pathText, rooted_of_ne_nil hnil, prefixed_concat, ← List.cons_append,
          ← List.append_assoc, List.getLast?_concat]
        exact fun he ↦ hslash (Option.some.inj he ▸ List.mem_append_right t
          (List.mem_singleton_self c))
      rw [cdStart, hbuf, if_neg fun he ↦ by rw [he] at hhead; cases hhead]
      dsimp only
      rw [if_neg hlast, if_pos hhead, Option.map_some, hkeep]
  · rw [cdStart, hbuf, if_neg (List.append_ne_nil_of_right_ne_nil _ (List.cons_ne_nil _ _))]
    dsimp only
    rw [if_pos List.getLast?_concat, List.dropLast_concat, if_pos hhead, Option.map_some, hkeep]

theorem slash_notMem_getD (i : Nat) : slash ∉ ts.getD i [] := by
  rcases Nat.lt_or_ge i ts.length with hlt | hge
  · rw [List.getD_eq_getElem _ _ hlt]
    exact (h.fit _ (List.getElem_mem hlt)).2.2.1
  · rw [List.getD_eq_default _ _ hge]
    exact List.not_mem_nil

/-- There is room for the first token and one behind it. -/
theorem room_lt (hne : ts ≠ []) {i : Nat} (hi : i = 1 ∨ i = 2) :
    (prefixed slash (rooted cs)).length + 1 + (ts.getD 0 []).length + 1 + (ts.getD i []).length <
      160 := by
  have hroom : (prefixed slash (rooted cs)).length + (spell slash (ts.take 3)).length < 159 := h.room
  have hspell : (ts.getD 0 []).length + 1 + (ts.getD i []).length ≤
      (spell slash (ts.take 3)).length := by
    rcases ts with _ | ⟨t₁, _ | ⟨t₂, _ | ⟨t₃, ts⟩⟩⟩
    · exact absurd rfl hne
    all_goals
      rcases hi with rfl | rfl
      all_goals
        simp [spell]
        try omega
  omega

theorem slash_notMem_touch {i : Nat} : ∀ w ∈ touch (rooted cs) (ts.getD i []), slash ∉ w := by
  intro w hw
  rcases mem_touch hw with hw | rfl | rfl
  · exact h.slash_notMem w hw
  · exact h.slash_notMem_getD i
  · exact List.not_mem_nil

/-- The loop from its second token on, where the first one is no dot. -/
theorem loop_second (hne : ts ≠ []) (hzero : ∀ t ∈ ts.take (asked ts), chr '0' ∉ t)
    (hdot : ts.getD 0 [] ≠ dot) (hrows : ts.length + 1 ≤ 10) :
    CdState.loop rows (fuel + 1) (some (ts.getD 1 []))
        ⟨prefixed slash (touch (rooted cs) (ts.getD 0 [])), delimited slash 0 ts 2, 2⟩ =
      if ts.length + asked ts ≤ 11 then
        some ⟨prefixed slash (walked (rooted cs) ts), delimited slash 0 ts (asked ts), asked ts⟩
      else none := by
  have hlong := @length_touch_le (rooted cs) (ts.getD 0 []) rooted_ne_nil
  rw [walked, if_neg hne, if_neg hdot]
  by_cases hnext : ts.getD 1 [] = dot
  · have hask : asked ts = 3 := if_pos ⟨hdot, hnext⟩
    have hroom := h.room_lt hne (.inr rfl)
    rw [hask] at hzero
    rw [hnext, if_pos rfl, CdState.loop_dot h.fit hne Nat.two_pos (show 2 < 10 by decide) rfl hzero
      rfl (show _ + 1 + (ts.getD 2 []).length < 160 by omega), hask]
    refine if_congr ?_ rfl rfl
    show ts.length + 2 ≤ 10 ↔ ts.length + 3 ≤ 11
    omega
  · have hask : asked ts = 2 := if_neg fun hand ↦ hnext hand.2
    have hroom := h.room_lt hne (.inl rfl)
    rw [if_neg hnext, CdState.loop_touch h.fit hne Nat.two_pos rfl hnext rfl touch_ne_nil
      h.slash_notMem_touch (by omega), if_pos (show 1 < 2 by decide), hask, if_pos (by omega)]

/-- What a call leaves when no token that it asks for has a `'0'`. -/
theorem cd_eq (hne : ts ≠ []) (hzero : ∀ t ∈ ts.take (asked ts), chr '0' ∉ t) :
    cd rows (fuel + 2) buf path = if ts.length + asked ts ≤ 11 then
        some ⟨prefixed slash (walked (rooted cs) ts), pathText cs, delimited slash 0 ts (asked ts)⟩
      else none := by
  have hfirst : path = delimited slash 0 ts 0 := by
    rw [h.path_eq, delimited]
    exact (List.append_nil _).symm
  have hlen : (pathText cs).length < 160 := by
    have hroom := h.room
    omega
  have hasked : 2 ≤ asked ts := by
    rw [asked]
    split <;> decide
  have htake : ∀ {i : Nat}, i ≤ asked ts → ∀ t ∈ ts.take i, chr '0' ∉ t := fun hi t ht ↦
    hzero t (List.take_subset_take_left ts hi ht)
  have hroom := h.room_lt hne (.inl rfl)
  have hcall : CdState.nextToken rows { tempbuf := pathText cs, path := path } =
      if ts.length ≤ 10 then
        some (some (ts.getD 0 []), ⟨pathText cs, delimited slash 0 ts 1, 1⟩)
      else none :=
    CdState.nextToken_eq h.fit hne hfirst (htake (Nat.le_of_succ_le hasked)) (show 0 < 10 by decide)
  rw [cd, h.cdStart_eq, Option.bind_some, if_pos hlen, hcall]
  by_cases hfew : ts.length ≤ 10
  swap
  · -- the first call runs over the rows
    rw [if_neg hfew, if_neg (by omega)]
    rfl
  rw [if_pos hfew, Option.bind_some, walked, if_neg hne]
  by_cases hdot : ts.getD 0 [] = dot
  · -- the second token is asked for in the first round
    have hask : asked ts = 2 := if_neg fun hand ↦ hand.1 hdot
    have hloop := @CdState.loop_dot rows ⟨pathText cs, delimited slash 0 ts 1, 1⟩ ts (rooted cs)
      (fuel + 1) h.fit hne Nat.one_pos (show 1 < 10 by decide) rfl (htake hasked) rfl
      (show _ + 1 + (ts.getD 1 []).length < 160 by omega)
    rw [hdot, hloop, if_pos rfl, hask]
    dsimp only
    by_cases hrows : ts.length + 1 ≤ 10
    · rw [if_pos hrows, if_pos (by omega)]
      rfl
    · rw [if_neg hrows, if_neg (by omega)]
      rfl
  have hlong : (prefixed slash (rooted cs)).length + 1 + (ts.getD 0 []).length < 160 := by omega
  rw [if_neg hdot, CdState.loop_touch h.fit hne Nat.one_pos rfl hdot rfl rooted_ne_nil
      h.slash_notMem hlong, if_neg (show ¬ 1 < 1 by decide),
    CdState.nextToken_eq h.fit hne rfl (htake hasked) (show 1 < 10 by decide)]
  dsimp only
  by_cases hrows : ts.length + 1 ≤ 10
  · have hsecond := @loop_second rows cs ts buf path fuel h hne hzero hdot hrows
    rw [walked, if_neg hne, if_neg hdot] at hsecond
    rw [if_pos hrows, Option.bind_some]
    dsimp only
    rw [hsecond]
    split
    · rfl
    · rfl
  · rw [if_neg hrows, if_neg (by omega)]
    rfl

end CdInput

end Sbunix
