import Sbunix.Libc.CdRun

/-!
# `cd` against resolution

Resolution works off all components of the path.  `cd` works off two of them, or three, appends
whatever is behind a dot, and has two slashes in front of a name at the root.
-/

namespace Sbunix

open Reasoning

variable {rows : Nat → Rows} {cs ts us R : List CString} {t x buf path : CString} {fuel : Nat}

/-- A component, or none, that is appended as it is meant to be. -/
def AppendsName (cs : List CString) (x : CString) : Prop := x = [] ∨ x ≠ dot ∧ x ≠ dotdot ∧ cs ≠ []

/-- The components that the call works off are resolved: the one behind a dot is a name, and no name
is appended to the root that is not taken away at once. -/
def PlainSteps (cs : List CString) : List CString → Prop
  | [] => cs = []
  | t :: ts =>
      if t = dot then AppendsName cs (ts.getD 0 [])
      else if ts.getD 0 [] = dotdot then True
      else (t = dotdot ∨ cs ≠ []) ∧ AppendsName (resolve dot dotdot cs [t])
        (if ts.getD 0 [] = dot then ts.getD 1 [] else ts.getD 0 [])

/-- The first components of the path are resolved, the components behind them change nothing, and the
rows of `split` are enough. -/
def Resolves (cs ts : List CString) : Prop :=
  resolve dot dotdot cs ts = resolve dot dotdot cs (ts.take (asked ts)) ∧
    ts.length + asked ts ≤ 11 ∧ PlainSteps cs ts

theorem rooted_concat (h : cs ≠ []) : rooted cs ++ [x] = rooted (cs ++ [x]) := by
  rw [rooted_of_ne_nil h, rooted_of_ne_nil (List.append_ne_nil_of_left_ne_nil h [x])]

/-- A component that is appended, or an empty token behind the last one. -/
theorem append_iff (hcs : [] ∉ cs) (hus : [] ∉ us) (hR : [] ∉ R)
    (hname : ∀ x, R = cs ++ [x] → x ≠ dot ∧ x ≠ dotdot) :
    UpToDelimiter (rooted cs ++ [us.getD 0 []]) R ↔
      R = resolve dot dotdot cs (us.take 1) ∧ AppendsName cs (us.getD 0 []) := by
  cases us with
  | nil => exact (upToDelimiter_rooted_concat hcs hR).trans (and_iff_left (.inl rfl)).symm
  | cons x us =>
      have hx : x ≠ [] := fun he ↦ hus (he ▸ List.mem_cons_self)
      show UpToDelimiter (rooted cs ++ [x]) R ↔ R = resolveStep dot dotdot cs x ∧ AppendsName cs x
      by_cases hnil : cs = []
      · subst hnil
        exact iff_of_false (not_upToDelimiter_double hR hx)
          fun h ↦ h.2.elim hx fun hand ↦ hand.2.2 rfl
      have hmem : [] ∉ cs ++ [x] := fun h ↦
        (List.mem_append.mp h).elim hcs fun h ↦ hx (List.mem_singleton.mp h).symm
      rw [rooted_concat hnil, upToDelimiter_rooted hmem hR]
      constructor
      · intro h
        obtain ⟨hdot, hdd⟩ := hname x h
        rw [resolveStep, if_neg hdot, if_neg hdd]
        exact ⟨h, .inr ⟨hdot, hdd, hnil⟩⟩
      · rintro ⟨h, happ⟩
        obtain ⟨hdot, hdd, -⟩ := happ.resolve_left hx
        rwa [resolveStep, if_neg hdot, if_neg hdd] at h

/-- A component that is no dot, other than a name at the root, is resolved. -/
theorem touch_rooted (hdot : t ≠ dot) (h : t = dotdot ∨ cs ≠ []) :
    touch (rooted cs) t = rooted (resolve dot dotdot cs [t]) := by
  show touch (rooted cs) t = rooted (resolveStep dot dotdot cs t)
  rw [touch, resolveStep, if_neg hdot]
  by_cases hdd : t = dotdot
  · rw [if_pos hdd, if_pos hdd]
    by_cases hnil : cs = []
    · rw [hnil]
      rfl
    · rw [rooted_of_ne_nil hnil]
  · rw [if_neg hdd, if_neg hdd, rooted_concat (h.resolve_left hdd)]

theorem resolve_nil_notMem (hcs : [] ∉ cs) (hts : [] ∉ ts) : [] ∉ resolve dot dotdot cs ts :=
  fun h ↦ (mem_resolve h).elim hcs hts

/-- One more component behind one that is no dot. -/
theorem touch_append_iff (hcs : [] ∉ cs) (ht : t ≠ []) (hus : [] ∉ us) (hdot : t ≠ dot) :
    let cs' := resolve dot dotdot cs [t]
    UpToDelimiter (touch (rooted cs) t ++ [us.getD 0 []]) (resolve dot dotdot cs' us) ↔
      resolve dot dotdot cs' us = resolve dot dotdot cs' (us.take 1) ∧
        (t = dotdot ∨ cs ≠ []) ∧ AppendsName cs' (us.getD 0 []) := by
  intro cs'
  have hcs' : [] ∉ cs' := resolve_nil_notMem hcs fun h ↦ ht (List.mem_singleton.mp h).symm
  have hR := resolve_nil_notMem hcs' hus
  by_cases hplain : t = dotdot ∨ cs ≠ []
  · rw [touch_rooted hdot hplain, and_iff_right hplain]
    exact append_iff hcs' hus hR fun x hx ↦ name_of_resolve_eq hx
  · obtain ⟨hdd, hnil⟩ := not_or.mp hplain
    rw [touch, if_neg hdd, not_not.mp hnil]
    exact iff_of_false (not_upToDelimiter_double hR ht) fun h ↦ h.2.1.elim hdd fun h ↦ h rfl

/-- The words that the call leaves are those of the resolved path where the first components are
resolved and those behind them change nothing. -/
theorem walked_iff (hcs : [] ∉ cs) (hts : [] ∉ t :: us) :
    UpToDelimiter (walked (rooted cs) (t :: us)) (resolve dot dotdot cs (t :: us)) ↔
      resolve dot dotdot cs (t :: us) = resolve dot dotdot cs ((t :: us).take (asked (t :: us))) ∧
        PlainSteps cs (t :: us) := by
  have ht : t ≠ [] := fun he ↦ hts (he ▸ List.mem_cons_self)
  have hus : [] ∉ us := fun h ↦ hts (List.mem_cons_of_mem t h)
  have hasked : asked (t :: us) = if t ≠ dot ∧ us.getD 0 [] = dot then 3 else 2 := rfl
  have hwalked : walked (rooted cs) (t :: us) =
      if t = dot then rooted cs ++ [us.getD 0 []]
      else if us.getD 0 [] = dot then touch (rooted cs) t ++ [us.getD 1 []]
      else touch (touch (rooted cs) t) (us.getD 0 []) := if_neg (List.cons_ne_nil t us)
  rw [hwalked, hasked, PlainSteps]
  by_cases hdot : t = dot
  · subst hdot
    rw [if_pos rfl, if_pos rfl, if_neg fun h ↦ h.1 rfl]
    exact append_iff hcs hus (resolve_nil_notMem hcs hts) fun x hx ↦ name_of_resolve_eq hx
  rw [if_neg hdot, if_neg hdot]
  by_cases hnext : us.getD 0 [] = dot
  · have hne : us ≠ [] := fun h ↦ by
      rw [h] at hnext
      cases hnext
    obtain ⟨u, vs, rfl⟩ := List.exists_cons_of_ne_nil hne
    have hu : u = dot := hnext
    subst hu
    rw [if_pos hnext, if_pos ⟨hdot, hnext⟩, if_neg (by rw [hnext]; decide), if_pos hnext]
    exact touch_append_iff hcs ht (fun h ↦ hus (List.mem_cons_of_mem _ h)) hdot
  rw [if_neg hnext, if_neg fun h ↦ hnext h.2, if_neg hnext]
  by_cases hdd : us.getD 0 [] = dotdot
  · have hne : us ≠ [] := fun h ↦ by
      rw [h] at hdd
      cases hdd
    obtain ⟨u, vs, rfl⟩ := List.exists_cons_of_ne_nil hne
    have hu : u = dotdot := hdd
    subst hu
    rw [if_pos hdd, and_true]
    -- a name at the root is taken away again
    have hback : touch (touch (rooted cs) t) dotdot =
        rooted (resolve dot dotdot cs [t, dotdot]) := by
      by_cases hplain : t = dotdot ∨ cs ≠ []
      · rw [touch_rooted hdot hplain, touch_rooted (by decide) (.inl rfl)]
        rfl
      · obtain ⟨ht', hnil⟩ := not_or.mp hplain
        obtain rfl := not_not.mp hnil
        show _ = rooted (resolveStep dot dotdot (resolveStep dot dotdot [] t) dotdot)
        rw [touch, touch, if_neg ht', if_pos rfl, resolveStep, resolveStep, if_neg hdot, if_neg ht']
        rfl
    show UpToDelimiter (touch (touch (rooted cs) t) dotdot) _ ↔ _
    rw [hback]
    refine upToDelimiter_rooted (resolve_nil_notMem hcs ?_) (resolve_nil_notMem hcs hts)
    exact fun h ↦ hts (List.take_subset 2 _ h)
  · rw [if_neg hdd]
    have happ : touch (touch (rooted cs) t) (us.getD 0 []) =
        touch (rooted cs) t ++ [us.getD 0 []] := if_neg hdd
    rw [happ]
    exact touch_append_iff hcs ht hus hdot

/-! ## Texts -/

/-- The call comes back with the text of the resolved path, up to a slash at its end. -/
def CdRight (rows : Nat → Rows) (buf path : CString) (cs ts : List CString) : Prop :=
  ∃ n, ∀ fuel ≥ n, ∃ reply, cd rows fuel buf path = some reply ∧
    (reply.newpath = pathText (resolve dot dotdot cs ts) ∨
      reply.newpath = pathText (resolve dot dotdot cs ts) ++ [slash])

/-- No token that the call asks for has a `'0'`. -/
def AsksNoZero (ts : List CString) : Prop := ∀ t ∈ ts.take (asked ts), chr '0' ∉ t

namespace CdInput

variable (h : CdInput buf path cs ts)

include h

theorem nil_notMem : [] ∉ cs ∧ [] ∉ ts :=
  ⟨fun hmem ↦ (h.dirs [] hmem).1 rfl, fun hmem ↦ (h.fit [] hmem).1 rfl⟩

theorem slash_notMem_walked : ∀ w ∈ walked (rooted cs) ts, slash ∉ w := by
  have hget (i : Nat) : ∀ w ∈ [ts.getD i []], slash ∉ w :=
    List.forall_mem_singleton.mpr (h.slash_notMem_getD i)
  rw [walked]
  split
  · exact List.forall_mem_singleton.mpr List.not_mem_nil
  split
  · exact List.forall_mem_append.mpr ⟨h.slash_notMem, hget 1⟩
  split
  · exact List.forall_mem_append.mpr ⟨h.slash_notMem_touch, hget 2⟩
  · intro w hw
    rcases mem_touch hw with hw | rfl | rfl
    · exact h.slash_notMem_touch w hw
    · exact h.slash_notMem_getD 1
    · exact List.not_mem_nil

theorem slash_notMem_resolve : ∀ w ∈ rooted (resolve dot dotdot cs ts), slash ∉ w := by
  refine notMem_rooted fun c hc ↦ ?_
  rcases mem_resolve hc with hc | hc
  · exact (h.dirs c hc).2
  · exact (h.fit c hc).2.2.1

/-- A path without a component is taken for the root. -/
theorem cd_nil (hnil : ts = []) :
    cd rows (fuel + 1) buf path = some ⟨[slash], pathText cs, [slash]⟩ := by
  have hpath : path = [] := by
    rw [h.path_eq, hnil, List.intercalate_nil]
  have hlen : (pathText cs).length < 160 := by
    have hroom := h.room
    omega
  have hcall : split (rows 1) 1 [] slash = some (some [], [slash]) :=
    @split_eq [] slash [] (rows 1) 1 rfl (by rintro _ ⟨⟩) (by decide) (Nat.le_refl 1) (by decide)
      (by decide)
  rw [cd, h.cdStart_eq, Option.bind_some, if_pos hlen, CdState.nextToken]
  show Option.bind (Option.map _ (split (rows 1) 1 path slash)) _ = _
  rw [hpath, hcall]
  rfl

/-- The result, whatever the path has of components. -/
theorem newpath_eq (hzero : AsksNoZero ts) : (cd rows (fuel + 2) buf path).map (·.newpath) =
    if ts.length + asked ts ≤ 11 then some (prefixed slash (walked (rooted cs) ts)) else none := by
  by_cases hnil : ts = []
  · rw [h.cd_nil hnil, hnil]
    rfl
  · rw [h.cd_eq hnil hzero]
    split
    · rfl
    · rfl

theorem upTo_iff : UpToDelimiter (walked (rooted cs) ts) (resolve dot dotdot cs ts) ↔
    resolve dot dotdot cs ts = resolve dot dotdot cs (ts.take (asked ts)) ∧ PlainSteps cs ts := by
  obtain ⟨hcs, hts⟩ := h.nil_notMem
  cases ts with
  | nil => exact (upToDelimiter_rooted List.not_mem_nil hcs).trans (and_iff_right rfl).symm
  | cons t us => exact walked_iff hcs hts

theorem text_iff : (prefixed slash (walked (rooted cs) ts) = pathText (resolve dot dotdot cs ts) ∨
    prefixed slash (walked (rooted cs) ts) = pathText (resolve dot dotdot cs ts) ++ [slash]) ↔
      UpToDelimiter (walked (rooted cs) ts) (resolve dot dotdot cs ts) := by
  have hwords := h.slash_notMem_walked
  have hpath := h.slash_notMem_resolve
  have hempty : ∀ w ∈ rooted (resolve dot dotdot cs ts) ++ [[]], slash ∉ w :=
    List.forall_mem_append.mpr ⟨hpath, List.forall_mem_singleton.mpr List.not_mem_nil⟩
  rw [UpToDelimiter, pathText, ← prefixed_inj hwords hpath, ← prefixed_inj hwords hempty,
    prefixed_concat]

end CdInput

/-- Where no token that is asked for has a `'0'`, the call resolves the path just where the condition
holds. -/
theorem cdRight_iff (h : CdInput buf path cs ts) :
    (AsksNoZero ts ∧ Resolves cs ts → CdRight rows buf path cs ts) ∧
      (AsksNoZero ts → CdRight rows buf path cs ts → Resolves cs ts) := by
  have hnew (hzero : AsksNoZero ts) (fuel : Nat) :=
    @CdInput.newpath_eq rows cs ts buf path fuel h hzero
  constructor
  · rintro ⟨hzero, hbehind, hrows, hplain⟩
    refine ⟨2, fun fuel hfuel ↦ ?_⟩
    obtain ⟨n, rfl⟩ := Nat.exists_eq_add_of_le' hfuel
    have hreply := hnew hzero n
    rw [if_pos hrows, Option.map_eq_some_iff] at hreply
    obtain ⟨reply, hcd, hpath⟩ := hreply
    refine ⟨reply, hcd, ?_⟩
    rw [hpath]
    exact h.text_iff.mpr (h.upTo_iff.mpr ⟨hbehind, hplain⟩)
  · rintro hzero ⟨n, hright⟩
    obtain ⟨reply, hcd, hpath⟩ := hright (n + 2) (Nat.le_add_right n 2)
    have hreply := hnew hzero n
    rw [hcd, Option.map_some] at hreply
    split at hreply
    · rename_i hrows
      rw [Option.some.inj hreply] at hpath
      obtain ⟨hbehind, hplain⟩ := h.upTo_iff.mp (h.text_iff.mp hpath)
      exact ⟨hbehind, hrows, hplain⟩
    · cases hreply

/-- `cd ../c` in `/a/b`. -/
theorem cdRight_up : CdRight (fun _ _ _ ↦ 0) [47, 97, 47, 98] [46, 46, 47, 99] [[97], [98]]
    [[46, 46], [99]] := by
  have hinput : CdInput [47, 97, 47, 98] [46, 46, 47, 99] [[97], [98]] [[46, 46], [99]] :=
    ⟨.inl rfl, rfl, by decide, by rw [Fit]; decide, by decide⟩
  have hplain : PlainSteps [[97], [98]] [[46, 46], [99]] :=
    ⟨.inl rfl, .inr ⟨by decide, by decide, by decide⟩⟩
  exact (cdRight_iff hinput).1 ⟨by rw [AsksNoZero]; decide, by decide, by decide, hplain⟩

/-- `cd b/c/d` in `/a` leads to `/a/b/c`. -/
theorem not_cdRight_deep : ¬ CdRight (fun _ _ _ ↦ 0) [47, 97] [98, 47, 99, 47, 100] [[97]]
    [[98], [99], [100]] := by
  rintro ⟨n, hright⟩
  obtain ⟨reply, hcd, hpath⟩ := hright (n + 2) (Nat.le_add_right n 2)
  have hinput : CdInput [47, 97] [98, 47, 99, 47, 100] [[97]] [[98], [99], [100]] :=
    ⟨.inl rfl, rfl, by decide, by rw [Fit]; decide, by decide⟩
  have hreply := @CdInput.newpath_eq (fun _ _ _ ↦ 0) _ _ _ _ n hinput (by rw [AsksNoZero]; decide)
  rw [hcd, Option.map_some, if_pos (by decide)] at hreply
  rw [Option.some.inj hreply] at hpath
  exact absurd hpath (by decide)

end Sbunix
