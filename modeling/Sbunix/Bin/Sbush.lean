import Sbunix.Libc.Strings
import Sbunix.Libc.Tokens

/-!
# The shell (`bin/sbush/sbush.c`)

For a command that is a program the shell asks `split` for one word of its line after the other, until
it gets an empty one, and hands the words to `execve`.  Each call lengthens the line by a blank, and the
line, like each word, is in a block of 30 bytes.
-/

namespace Sbunix

open Reasoning

/-- A blank. -/
def blank : UInt8 := chr ' '

/-- `split(toknum, input, ' ')`; `input` has 30 bytes, zeros behind the line, though nothing clears them. -/
def splitInput (rows : Rows) (toknum : Nat) (input : CString) : Option (Option CString × CString) :=
  (split rows toknum input blank).bind fun r ↦ if r.2.length < 30 then some r else none

/-- The loop over the words from `i` on, with `left` pointers in `ans` from there: the strings of `ans`,
and `input` behind it.  `rows i` is what `sb_malloc` leaves in the table of a call, and `stop i` is the
string of `ans[i]` where the loop ends. -/
def wordsLoop (rows : Nat → Rows) (stop : Nat → CString) :
    Nat → Nat → CString → Option (List CString × CString)
  | 0, _, _ => none
  | left + 1, i, input =>
      (splitInput (rows i) (i + 1) input).bind fun (nextToken, input) ↦
        match nextToken with
        | none => none
        | some nextToken =>
            if strcmpFrom nextToken [] 0 = 0 then some ([stop i], input)
            else if nextToken.length < 30 then
              (wordsLoop rows stop left (i + 1) input).map fun (ans, input) ↦ (nextToken :: ans, input)
            else none

/-- What a line comes to. -/
inductive ShellAction where
  | exec (file : CString) (ans : List CString)
  | pwd
  -- `cd`, a script, or nothing
  | other

/-- What `execve` reads of `ans`: the strings up to the first empty one. -/
def argvOf (ans : List CString) : Option (List CString) :=
  if [] ∈ ans then some (ans.takeWhile (· ≠ [])) else none

section
variable (rows : Nat → Rows) (fresh : Nat → CString) (binary input : CString)

/-- A program with all words of the line; `ans` has `size` pointers. -/
def wordsCommand (size : Nat) (stop : Nat → CString) (file : CString) : Option ShellAction :=
  (wordsLoop rows stop (size - 1) 1 input).map fun (ans, _) ↦ .exec file (binary :: ans)

/-- `ls`, which lists the working directory when no other is named. -/
def lsCommand (pwd : CString) : Option ShellAction :=
  (wordsLoop rows fresh 99 1 input).bind fun (ans, _) ↦
    if strcmpFrom (ans.headD []) [] 0 = 0 then
      -- `pwd` is copied to the block of `ans[1]`
      if pwd.length < 30 then some (.exec (cstr "bin/ls") [binary, pwd, []]) else none
    else some (.exec (cstr "bin/ls") (binary :: ans))

/-- The block where the loop ends is left as it is. -/
def catCommand : Option ShellAction := wordsCommand rows binary input 100 fresh (cstr "bin/cat")

/-- The empty string is copied to the block where the loop ends. -/
def echoCommand : Option ShellAction := wordsCommand rows binary input 50 (fun _ ↦ []) (cstr "bin/echo")

/-- `sleep` has one argument. -/
def sleepCommand : Option ShellAction :=
  (splitInput (rows 1) 2 input).bind fun (nextToken, _) ↦
    nextToken.bind fun nextToken ↦
      if nextToken.length < 30 then some (.exec (cstr "bin/sleep") [binary, nextToken, []]) else none

/-- A line of `main`. -/
def sbush (pwd : CString) : Option ShellAction :=
  (splitInput (rows 0) 1 input).bind fun (binary, input) ↦
    binary.bind fun binary ↦
      if strcmpFrom binary (cstr "ls") 0 = 0 then lsCommand rows fresh binary input pwd
      else if strcmpFrom input (cstr "pwd ") 0 = 0 then some .pwd
      else if strcmpFrom input (cstr "ps ") 0 = 0 then some (.exec (cstr "bin/ps") [cstr "ps", []])
      else if strcmpFrom binary (cstr "cat") 0 = 0 then catCommand rows fresh binary input
      else if strcmpFrom binary (cstr "sleep") 0 = 0 then sleepCommand rows binary input
      else if strcmpFrom binary (cstr "echo") 0 = 0 then echoCommand rows binary input
      else some .other

end

/-- What the program is run with. -/
def ShellAction.passed : ShellAction → Option (CString × List CString)
  | .exec file ans => (argvOf ans).map (file, ·)
  | _ => none

variable {rows : Nat → Rows} {fresh stop : Nat → CString} {ts us args ans : List CString}
  {t u name file binary input input' pwd : CString} {lead trail left i j n : Nat} {c : UInt8}
  {row : Rows} {a : ShellAction}

/-! ## One call -/

theorem length_delimited_succ :
    (delimited blank lead ts (n + 1)).length = (delimited blank lead ts n).length + 1 := by
  rw [← withSeparator_delimited (by decide), withSeparator, if_neg (by decide), List.length_append,
    List.length_singleton]

theorem length_delimited_add :
    (delimited blank lead ts (n + i)).length = (delimited blank lead ts n).length + i := by
  induction i with
  | zero => rfl
  | succ i ih => rw [← Nat.add_assoc, length_delimited_succ, ih, Nat.add_assoc]

/-- A call finds a row for each segment, and room for one blank more. -/
def HasRows (lead : Nat) (ts : List CString) (n : Nat) : Prop :=
  (segments lead ts n).length ≤ 10 ∧ (delimited blank lead ts n).length + 1 < 30

theorem splitInput_eq (hs : Fit blank ts) (hi : i < 10) (hrows : HasRows lead ts n) :
    splitInput row (i + 1) (delimited blank lead ts n) =
      some (some ((returned blank (segments lead ts n)).getD i []), delimited blank lead ts (n + 1)) := by
  have hskip := @skip_delimited blank ts lead n hs (by decide)
  rw [splitInput, split_eq hskip (segments_fit hs) (by decide) (Nat.succ_pos i) hi hrows.1,
    withSeparator_delimited (by decide), Option.bind_some, if_pos]
  · rfl
  · rw [length_delimited_succ]
    exact hrows.2

theorem splitInput_none (hs : Fit blank ts) (hi : i < 10) (hrows : ¬ HasRows lead ts n) :
    splitInput row (i + 1) (delimited blank lead ts n) = none := by
  have hskip := @skip_delimited blank ts lead n hs (by decide)
  rcases Nat.lt_or_ge 10 (segments lead ts n).length with hmany | hfew
  · rw [splitInput, split_many hskip (segments_fit hs) hmany]
    rfl
  · have hlong : ¬ (delimited blank lead ts n).length + 1 < 30 := fun h ↦ hrows ⟨hfew, h⟩
    rw [splitInput, split_eq hskip (segments_fit hs) (by decide) (Nat.succ_pos i) hi hfew,
      withSeparator_delimited (by decide), Option.bind_some, if_neg]
    rw [length_delimited_succ]
    exact hlong

theorem length_segments_ge (hne : ts ≠ []) : ts.length + n ≤ (segments lead ts n).length := by
  obtain ⟨t, ts, rfl⟩ := List.exists_cons_of_ne_nil hne
  rw [length_segments_cons]
  exact Nat.le_add_left _ _

/-- The call behind `j` others has room, and returns the word that it is asked for. -/
def StepRight (lead : Nat) (ts : List CString) (trail j : Nat) : Prop :=
  HasRows lead ts (trail + j) ∧ (returned blank (segments lead ts (trail + j))).getD j [] = ts.getD j []

/-- The loop ends at its first empty word. -/
theorem wordsLoop_shape (h : wordsLoop rows stop left i input = some (ans, input')) :
    ∃ us, ans = us ++ [stop (i + us.length)] ∧ [] ∉ us := by
  induction left generalizing i input ans with
  | zero => cases h
  | succ left ih =>
      rw [wordsLoop, Option.bind_eq_some_iff] at h
      obtain ⟨⟨nextToken, input₁⟩, -, h⟩ := h
      cases nextToken with
      | none => cases h
      | some u =>
          dsimp only at h
          rw [if_congr strcmpFrom_zero rfl rfl] at h
          split at h
          · obtain ⟨rfl, -⟩ := Prod.mk.inj (Option.some.inj h)
            exact ⟨[], rfl, List.not_mem_nil⟩
          · rename_i hu
            split at h
            · obtain ⟨⟨rest, input₂⟩, hloop, heq⟩ := Option.map_eq_some_iff.mp h
              obtain ⟨rfl, rfl⟩ := Prod.mk.inj heq
              obtain ⟨us, hrest, hus⟩ := ih hloop
              refine ⟨u :: us, ?_, ?_⟩
              · rw [hrest, List.length_cons, Nat.add_assoc, Nat.add_comm 1]
                rfl
              · rw [List.mem_cons, not_or]
                exact ⟨Ne.symm hu, hus⟩
            · cases h

/-! ## All words -/

/-- Behind the last word the loop ends just when its call is right. -/
theorem wordsLoop_end_iff (hs : Fit blank ts) (hlen : ts.length < 10) :
    (∃ input', wordsLoop rows stop (left + 1) ts.length (delimited blank lead ts (trail + ts.length)) =
      some ([stop ts.length], input')) ↔ StepRight lead ts trail ts.length := by
  have hnone : ts.getD ts.length [] = [] := List.getD_eq_default _ _ (Nat.le_refl _)
  rw [wordsLoop, StepRight, hnone]
  by_cases hrows : HasRows lead ts (trail + ts.length)
  · rw [splitInput_eq hs hlen hrows, Option.bind_some, and_iff_right hrows]
    dsimp only
    rw [if_congr strcmpFrom_zero rfl rfl]
    constructor
    · rintro ⟨input', h⟩
      by_contra hword
      rw [if_neg hword] at h
      split at h
      · -- a word comes before the end
        obtain ⟨⟨ans, input₁⟩, hloop, heq⟩ := Option.map_eq_some_iff.mp h
        obtain ⟨us, rfl, -⟩ := wordsLoop_shape hloop
        have hans := congrArg List.length (Prod.mk.inj heq).1
        simp only [List.length_cons, List.length_append, List.length_nil] at hans
        omega
      · cases h
    · intro hword
      exact ⟨_, if_pos hword⟩
  · rw [splitInput_none hs hlen hrows]
    exact iff_of_false (fun ⟨_, h⟩ ↦ by cases h) fun h ↦ hrows h.1

/-- Before that a word comes first just when its call is right. -/
theorem wordsLoop_next_iff (hs : Fit blank ts) (hi : i < ts.length) (hi10 : i < 10) (hans : ans ≠ []) :
    (∃ input', wordsLoop rows stop (left + 1) i (delimited blank lead ts (trail + i)) =
      some (ts.getD i [] :: ans, input')) ↔
      StepRight lead ts trail i ∧ ∃ input',
        wordsLoop rows stop left (i + 1) (delimited blank lead ts (trail + (i + 1))) =
          some (ans, input') := by
  obtain ⟨hne, hshort, -⟩ := hs (ts.getD i []) (by
    rw [List.getD_eq_getElem _ _ hi]
    exact List.getElem_mem hi)
  rw [wordsLoop, StepRight, ← Nat.add_assoc]
  by_cases hrows : HasRows lead ts (trail + i)
  · rw [splitInput_eq hs hi10 hrows, Option.bind_some, and_iff_right hrows]
    dsimp only
    rw [if_congr strcmpFrom_zero rfl rfl]
    constructor
    · rintro ⟨input', h⟩
      split at h
      · -- the loop ends too early
        exact absurd (List.cons.inj (Prod.mk.inj (Option.some.inj h)).1).2.symm hans
      · split at h
        · obtain ⟨⟨rest, input₁⟩, hloop, heq⟩ := Option.map_eq_some_iff.mp h
          obtain ⟨hword, rfl⟩ := List.cons.inj (Prod.mk.inj heq).1
          exact ⟨hword, input₁, hloop⟩
        · cases h
    · rintro ⟨hword, input', hloop⟩
      refine ⟨input', ?_⟩
      rw [hword, if_neg hne, if_pos (by omega), hloop]
      rfl
  · rw [splitInput_none hs hi10 hrows]
    exact iff_of_false (fun ⟨_, h⟩ ↦ by cases h) fun h ↦ hrows h.1.1

/-- The loop hands on the words that are left in exactly the lines all of whose calls are right. -/
theorem wordsLoop_iff (hs : Fit blank ts) (hne : ts ≠ []) (hi : i + us.length = ts.length)
    (hus : us = ts.drop i) (hi10 : i < 10) :
    (∃ input', wordsLoop rows stop left i (delimited blank lead ts (trail + i)) =
      some (us ++ [stop ts.length], input')) ↔
      us.length < left ∧ ∀ j, i ≤ j → j ≤ ts.length → StepRight lead ts trail j := by
  induction us generalizing i left with
  | nil =>
      rw [List.length_nil, Nat.add_zero] at hi
      subst hi
      have hall : (∀ j, ts.length ≤ j → j ≤ ts.length → StepRight lead ts trail j) ↔
          StepRight lead ts trail ts.length :=
        ⟨fun h ↦ h _ (Nat.le_refl _) (Nat.le_refl _), fun h j hj hj' ↦ Nat.le_antisymm hj hj' ▸ h⟩
      cases left with
      | zero => exact iff_of_false (fun ⟨_, h⟩ ↦ by cases h) fun h ↦ Nat.lt_irrefl 0 h.1
      | succ left =>
          have hpos : ([] : List CString).length < left + 1 := Nat.succ_pos left
          rw [hall, and_iff_right hpos]
          exact wordsLoop_end_iff hs hi10
  | cons u us ih =>
      rw [List.length_cons] at hi
      have hlt : i < ts.length := by omega
      rw [List.drop_eq_getElem_cons hlt] at hus
      obtain ⟨hu, htail⟩ := List.cons.inj hus
      rw [← List.getD_eq_getElem ts [] hlt] at hu
      have hall : (∀ j, i ≤ j → j ≤ ts.length → StepRight lead ts trail j) ↔
          StepRight lead ts trail i ∧ ∀ j, i + 1 ≤ j → j ≤ ts.length → StepRight lead ts trail j := by
        refine ⟨fun h ↦ ⟨h i (Nat.le_refl i) hlt.le, fun j hj ↦ h j (Nat.le_of_succ_le hj)⟩,
          fun h j hj hj' ↦ ?_⟩
        rcases Nat.eq_or_lt_of_le hj with rfl | hj
        · exact h.1
        · exact h.2 j hj hj'
      cases left with
      | zero => exact iff_of_false (fun ⟨_, h⟩ ↦ by cases h) fun h ↦ Nat.not_lt_zero _ h.1
      | succ left =>
          have hans : us ++ [stop ts.length] ≠ [] :=
            List.append_ne_nil_of_right_ne_nil us (List.cons_ne_nil _ _)
          rw [hall, hu, List.cons_append, wordsLoop_next_iff hs hlt hi10 hans, List.length_cons]
          by_cases hstep : StepRight lead ts trail i
          · have hfew := Nat.le_trans (length_segments_ge hne) hstep.1.1
            rw [and_iff_right hstep, and_iff_right hstep, ih (by omega) htail (by omega),
              Nat.add_lt_add_iff_right]
          · exact iff_of_false (fun h ↦ hstep h.1) fun h ↦ hstep h.2.1

/-- At most one blank in front, rows for all words in the last call, room in the line for the blanks of
all calls, and no `0`. -/
structure WordsRight (lead : Nat) (ts : List CString) (trail : Nat) : Prop where
  front : lead ≤ 1
  rows : 2 * ts.length + trail ≤ 10
  room : (delimited blank lead ts trail).length + ts.length + 1 < 30
  zero : ∀ t ∈ ts, chr '0' ∉ t

theorem stepRight_iff (hs : Fit blank ts) (hne : ts ≠ []) :
    (∀ j ≤ ts.length, StepRight lead ts trail j) ↔ WordsRight lead ts trail := by
  obtain ⟨t, us, rfl⟩ := List.exists_cons_of_ne_nil hne
  constructor
  · intro h
    have hlead : lead ≤ 1 := by
      by_contra hlead
      obtain ⟨n, hn⟩ : ∃ n, lead - 1 = n + 1 := ⟨lead - 2, by omega⟩
      have hfirst := @length_returned_le blank (segments lead (t :: us) (trail + 0)) 0
      rw [(h 0 (Nat.zero_le _)).2, segments, hn, List.replicate_succ] at hfirst
      exact (hs t List.mem_cons_self).1 (List.eq_nil_of_length_eq_zero (Nat.le_zero.mp hfirst))
    obtain ⟨hrows, hroom⟩ := (h _ (Nat.le_refl _)).1
    rw [length_segments_cons] at hrows
    rw [length_delimited_add] at hroom
    refine ⟨hlead, by omega, hroom, fun x hx hmem ↦ ?_⟩
    obtain ⟨j, hj, rfl⟩ := List.getElem_of_mem hx
    have hshort := @length_returned_le blank (segments lead (t :: us) (trail + j)) j
    rw [(h j hj.le).2, segments_of_lead hlead, getD_append_replicate,
      List.getD_eq_getElem _ _ hj] at hshort
    exact absurd (kept_lt hmem) (Nat.not_lt_of_le hshort)
  · rintro ⟨hlead, hrows, hroom, hzero⟩ j hj
    refine ⟨⟨?_, ?_⟩, ?_⟩
    · rw [length_segments_cons]
      omega
    · rw [length_delimited_add]
      omega
    · rw [segments_of_lead hlead, returned_getD fun x hx ↦ hzero x (List.mem_of_mem_take hx)]
      rcases Nat.lt_or_ge j (t :: us).length with hlt | hge
      · exact .inl (by omega)
      · exact .inr hge

/-! ## Programs with all words of the line -/

theorem mem_delimited (ht : t ∈ ts) (hc : c ∈ t) : c ∈ delimited blank lead ts n := by
  have hmid : c ∈ [blank].intercalate ts := by
    induction ts with
    | nil => cases ht
    | cons u us ih =>
        cases us with
        | nil =>
            rw [List.intercalate_singleton]
            exact List.mem_singleton.mp ht ▸ hc
        | cons v us =>
            rw [List.intercalate_cons_cons]
            rcases List.mem_cons.mp ht with rfl | ht
            · exact List.mem_append_left _ (List.mem_append_left _ hc)
            · exact List.mem_append_right _ (ih ht)
  exact List.mem_append_left _ (List.mem_append_right _ hmid)

theorem argvOf_cons (h : argvOf (t :: ans) = some (u :: us)) : u = t := by
  unfold argvOf at h
  split at h
  · by_cases ht : t = []
    · rw [List.takeWhile_cons_of_neg (by simp [ht])] at h
      cases h
    · rw [List.takeWhile_cons_of_pos (by simp [ht])] at h
      exact (List.cons.inj (Option.some.inj h)).1.symm
  · cases h

theorem argvOf_concat (hus : [] ∉ us) : argvOf (us ++ [u]) = if u = [] then some us else none := by
  have hword : ∀ x ∈ us, decide (x ≠ []) = true := fun x hx ↦ by
    simpa using fun h : x = [] ↦ hus (h ▸ hx)
  unfold argvOf
  by_cases hu : u = []
  · rw [if_pos hu, if_pos (List.mem_append_right _ (by simp [hu])), List.takeWhile_append_of_pos hword,
      List.takeWhile_cons_of_neg (by simp [hu]), List.append_nil]
  · rw [if_neg hu, if_neg]
    rw [List.mem_append, List.mem_singleton]
    exact fun h ↦ h.elim hus fun h ↦ hu h.symm

/-- A program gets its words when the loop hands them on, and the string behind them is empty. -/
theorem wordsCommand_passed {size : Nat} (hname : name ≠ []) (hargs : [] ∉ args) :
    (wordsCommand rows name input size stop file).bind ShellAction.passed = some (file, name :: args) ↔
      (∃ input', wordsLoop rows stop (size - 1) 1 input =
        some (args ++ [stop (args.length + 1)], input')) ∧ stop (args.length + 1) = [] := by
  have hcons : [] ∉ name :: args := by
    rw [List.mem_cons, not_or]
    exact ⟨Ne.symm hname, hargs⟩
  constructor
  · intro h
    obtain ⟨action, haction, hpassed⟩ := Option.bind_eq_some_iff.mp h
    obtain ⟨⟨ans, input'⟩, hloop, rfl⟩ := Option.map_eq_some_iff.mp haction
    obtain ⟨us, rfl, hus⟩ := wordsLoop_shape hloop
    obtain ⟨argv, hargv, heq⟩ := Option.map_eq_some_iff.mp hpassed
    obtain rfl := (Prod.mk.inj heq).2
    have husc : [] ∉ name :: us := by
      rw [List.mem_cons, not_or]
      exact ⟨Ne.symm hname, hus⟩
    rw [← List.cons_append, argvOf_concat husc] at hargv
    split at hargv
    · rename_i hstop
      obtain rfl := (List.cons.inj (Option.some.inj hargv)).2
      rw [Nat.add_comm] at hstop hloop
      exact ⟨⟨input', hloop⟩, hstop⟩
    · cases hargv
  · rintro ⟨⟨input', hloop⟩, hstop⟩
    rw [wordsCommand, hloop, Option.map_some, Option.bind_some]
    show (argvOf ((name :: args) ++ [stop (args.length + 1)])).map _ = _
    rw [argvOf_concat hcons, if_pos hstop]
    rfl

theorem exec_passed_head (h : (ShellAction.exec file (binary :: ans)).passed = some (t, name :: args)) :
    name = binary := by
  obtain ⟨argv, hargv, heq⟩ := Option.map_eq_some_iff.mp h
  obtain rfl := (Prod.mk.inj heq).2
  exact argvOf_cons hargv

/-- What any program but `ps` is run with begins with the first word that `split` found. -/
theorem sbush_head (h : splitInput (rows 0) 1 input = some (some binary, input'))
    (hpassed : (sbush rows fresh input pwd).bind ShellAction.passed = some (t, name :: args)) :
    name = binary ∨ t = cstr "bin/ps" := by
  obtain ⟨action, haction, hpassed⟩ := Option.bind_eq_some_iff.mp hpassed
  rw [sbush, h, Option.bind_some] at haction
  dsimp only [Option.bind_some] at haction
  split at haction
  · -- `ls`
    obtain ⟨⟨ans, input₁⟩, -, haction⟩ := Option.bind_eq_some_iff.mp haction
    dsimp only at haction
    split at haction
    · split at haction
      · obtain rfl := Option.some.inj haction
        exact .inl (exec_passed_head hpassed)
      · cases haction
    · obtain rfl := Option.some.inj haction
      exact .inl (exec_passed_head hpassed)
  split at haction
  · obtain rfl := Option.some.inj haction
    cases hpassed
  split at haction
  · obtain rfl := Option.some.inj haction
    have hmap : (argvOf [cstr "ps", []]).map (cstr "bin/ps", ·) = some (t, name :: args) := hpassed
    obtain ⟨argv, -, heq⟩ := Option.map_eq_some_iff.mp hmap
    exact .inr (Prod.mk.inj heq).1.symm
  split at haction
  · obtain ⟨⟨ans, input₁⟩, -, rfl⟩ := Option.map_eq_some_iff.mp haction
    exact .inl (exec_passed_head hpassed)
  split at haction
  · obtain ⟨⟨nextToken, input₁⟩, -, haction⟩ := Option.bind_eq_some_iff.mp haction
    obtain ⟨nextToken, -, haction⟩ := Option.bind_eq_some_iff.mp haction
    split at haction
    · obtain rfl := Option.some.inj haction
      exact .inl (exec_passed_head hpassed)
    · cases haction
  split at haction
  · obtain ⟨⟨ans, input₁⟩, -, rfl⟩ := Option.map_eq_some_iff.mp haction
    exact .inl (exec_passed_head hpassed)
  · obtain rfl := Option.some.inj haction
    cases hpassed

/-- The programs that get all words of their line, with the pointers that there are for them and the
string behind the words. -/
def wordsProgram (fresh : Nat → CString) : List (CString × Nat × (Nat → CString)) :=
  [(cstr "cat", 100, fresh), (cstr "echo", 50, fun _ ↦ [])]

theorem sbush_wordsCommand {size : Nat} (hprogram : (name, size, stop) ∈ wordsProgram fresh)
    (hinput : chr 'c' ∈ input') (h : splitInput (rows 0) 1 input = some (some name, input')) :
    sbush rows fresh input pwd = wordsCommand rows name input' size stop (cstr "bin/" ++ name) := by
  have hpwd : strcmpFrom input' (cstr "pwd ") 0 ≠ 0 := fun he ↦ by
    rw [strcmpFrom_zero.mp he] at hinput
    exact absurd hinput (by decide)
  have hps : strcmpFrom input' (cstr "ps ") 0 ≠ 0 := fun he ↦ by
    rw [strcmpFrom_zero.mp he] at hinput
    exact absurd hinput (by decide)
  rw [sbush, h, Option.bind_some]
  dsimp only [Option.bind_some]
  rcases List.mem_cons.mp hprogram with he | he
  · obtain ⟨rfl, rfl, rfl⟩ : name = cstr "cat" ∧ size = 100 ∧ stop = fresh := by
      simpa [Prod.ext_iff] using he
    rw [if_neg (by decide), if_neg hpwd, if_neg hps, if_pos (by decide)]
    rfl
  · obtain ⟨rfl, rfl, rfl⟩ : name = cstr "echo" ∧ size = 50 ∧ stop = fun _ ↦ [] := by
      simpa [Prod.ext_iff] using List.mem_singleton.mp he
    rw [if_neg (by decide), if_neg hpwd, if_neg hps, if_neg (by decide), if_neg (by decide),
      if_pos (by decide)]
    rfl

theorem mem_wordsProgram {size : Nat} (hprogram : (name, size, stop) ∈ wordsProgram fresh) :
    chr 'c' ∈ name ∧ 50 ≤ size ∧ cstr "bin/" ++ name ≠ cstr "bin/ps" := by
  rcases List.mem_cons.mp hprogram with he | he
  · obtain ⟨rfl, rfl, -⟩ : name = cstr "cat" ∧ size = 100 ∧ stop = fresh := by
      simpa [Prod.ext_iff] using he
    decide
  · obtain ⟨rfl, rfl, -⟩ : name = cstr "echo" ∧ size = 50 ∧ stop = fun _ ↦ [] := by
      simpa [Prod.ext_iff] using List.mem_singleton.mp he
    decide

/-- `cat` and `echo` are run with the words of their line exactly when these are right for every call,
and the string behind them is empty. -/
theorem sbush_passes_iff {size : Nat} (hs : Fit blank (name :: args))
    (hprogram : (name, size, stop) ∈ wordsProgram fresh) :
    (sbush rows fresh (delimited blank lead (name :: args) trail) pwd).bind ShellAction.passed =
        some (cstr "bin/" ++ name, name :: args) ↔
      WordsRight lead (name :: args) trail ∧ stop (args.length + 1) = [] := by
  obtain ⟨hinput, hsize, hps⟩ := mem_wordsProgram hprogram
  have hname : name ≠ [] := (hs name List.mem_cons_self).1
  have hargs : [] ∉ args := fun h ↦ (hs [] (List.mem_cons_of_mem _ h)).1 rfl
  have hsteps := @stepRight_iff (name :: args) lead trail hs (List.cons_ne_nil _ _)
  by_cases hrows : HasRows lead (name :: args) trail
  · have hfirst := @splitInput_eq (name :: args) lead 0 trail (rows 0) hs (by decide) hrows
    by_cases hword : (returned blank (segments lead (name :: args) trail)).getD 0 [] = name
    · have hstep : StepRight lead (name :: args) trail 0 := ⟨hrows, hword⟩
      have hloop := @wordsLoop_iff rows stop (name :: args) args lead trail (size - 1) 1 hs
        (List.cons_ne_nil _ _) (Nat.add_comm 1 _) rfl (by decide)
      rw [hword] at hfirst
      rw [sbush_wordsCommand hprogram (mem_delimited List.mem_cons_self hinput) hfirst,
        wordsCommand_passed hname hargs, ← hsteps]
      refine and_congr_left fun _ ↦ hloop.trans ⟨fun ⟨_, h⟩ j hj ↦ ?_, fun h ↦ ⟨?_, fun j _ ↦ h j⟩⟩
      · rcases Nat.eq_zero_or_pos j with rfl | hpos
        · exact hstep
        · exact h j hpos hj
      · have hfew := (hsteps.mp h).rows
        rw [List.length_cons] at hfew
        omega
    · -- another program is run, if any
      refine iff_of_false (fun h ↦ ?_) fun h ↦ hword (hsteps.mpr h.1 0 (Nat.zero_le _)).2
      rcases sbush_head hfirst h with he | he
      · exact hword he.symm
      · exact hps he
  · have hnone := @splitInput_none (name :: args) lead 0 trail (rows 0) hs (by decide) hrows
    refine iff_of_false (fun h ↦ ?_) fun h ↦ hrows (hsteps.mpr h.1 0 (Nat.zero_le _)).1
    rw [sbush, hnone] at h
    cases h

theorem sbush_passes_cat_a :
    (sbush (fun _ _ _ ↦ 1) (fun _ ↦ []) (delimited blank 1 [cstr "cat", cstr "a"] 2) []).bind
      ShellAction.passed = some (cstr "bin/cat", [cstr "cat", cstr "a"]) :=
  (sbush_passes_iff (by unfold Fit; decide) List.mem_cons_self).mpr
    ⟨⟨by decide, by decide, by decide, by decide⟩, rfl⟩

end Sbunix
