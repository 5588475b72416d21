import Sbunix.Bin.Sbush
import Sbunix.Libc.Printf
import Sbunix.Sys.Directory

/-!
# Listing a directory (`bin/ls/ls.c`)

The shell runs `ls` with its working directory, or with the words of the line.  `main` takes eight
characters off an absolute path, and seven off another.  In the working directory these are `/rootfs/`;
`strncmp` never returns 0, so the test for them holds of every path.
-/

namespace Sbunix

open Reasoning

/-- `strncmp(a, b, len)`, for a `b` of at least `len` characters. -/
def strncmp (a b : CString) (len : Nat) : Int :=
  if ∀ i < len, a.getD i 0 = b.getD i 0 then 1 else -1

/-- What `printf` makes of `1------------------ %d` and a line end. -/
def lsHeader (n : Int) : CString := cstr "1------------------ " ++ Printf.printd n ++ cstr "\n"

/-- `ls()`, with the path in `temp1`. -/
def ls (t : Tarfs) (pcb : Memory) (temp1 : CString) : Option (List ConsoleOp) :=
  (openSyscall t pcb temp1 4).bind fun n ↦
    (if n.ret ≠ -1 then (t.readdirSyscall n.ret.toNat).map (·.2) else some []).map fun ops ↦
      n.ops ++ (lsHeader n.ret).map charOp ++ ops ++ (cstr "\n").map charOp

/-- `main(argc, argv)`; the 20 bytes at `pwd` and the 30 of `temp1` are zeros before, though nothing clears
them. -/
def lsMain (rows : Rows) (t : Tarfs) (pcb : Memory) (argv : List CString) : Option (List ConsoleOp) :=
  let pwd := if 1 < argv.length then argv.getD 1 [] else []
  -- the string and the separator that `split` appends
  if pwd.length + 1 < 20 then
    (split rows 1 pwd slash).bind fun (firstToken, pwd) ↦
      firstToken.bind fun firstToken ↦
        let temp1 :=
          if strncmp firstToken (cstr "rootfs") 6 ≠ 0 then
            if pwd.headD 0 = slash then pwd.drop 8 else pwd.drop 7
          else []
        -- of an empty string the byte before `temp1` is cleared, which nothing reads
        let temp1 := temp1.dropLast
        ls t pcb (if temp1.length = 0 then [slash] else temp1)
  else none

/-- A line of the shell that runs `ls`. -/
def lsLine (rows : Nat → Rows) (fresh : Nat → CString) (rows' : Rows) (t : Tarfs) (pcb : Memory)
    (input pwd : CString) : Option (List ConsoleOp) :=
  (sbush rows fresh input pwd).bind fun action ↦ action.passed.bind fun (file, argv) ↦
    if file = cstr "bin/ls" then lsMain rows' t pcb argv else none

/-- The path that is listed. -/
def lsPath (path : CString) : CString :=
  let path := path.drop (if path.headD 0 = slash then 8 else 7)
  if path = [] then [slash] else path

variable {rows : Nat → Rows} {fresh : Nat → CString} {row : Rows} {t : Tarfs} {pcb : Memory}
  {ts args argv names : List CString} {path pwd a b : CString} {lead trail l r len fuel start : Nat}
  {ms : List Member} {s : Machine}

/-! ## The path -/

theorem strncmp_ne_zero : strncmp a b len ≠ 0 := by
  unfold strncmp
  split <;> decide

/-- In the working directory `main` takes `/rootfs/` off. -/
theorem lsPath_rootfs (hne : path ≠ []) : lsPath (cstr "/rootfs/" ++ path) = path := if_neg hne

theorem dropLast_drop_concat {k : Nat} {c : UInt8} :
    ((path ++ [c]).drop k).dropLast = path.drop k := by
  rcases Nat.lt_or_ge path.length k with hlt | hge
  · rw [List.drop_eq_nil_of_le (by rw [List.length_append, List.length_singleton]; omega),
      List.drop_eq_nil_of_le hlt.le]
    rfl
  · rw [List.drop_append_of_le_length hge, List.dropLast_concat]

/-- `main` opens its path without the characters that it takes off. -/
theorem lsMain_eq (hs : Fit slash ts) (hrows : (segments l ts r).length ≤ 10)
    (hargv : argv.getD 1 [] = delimited slash l ts r) (hlen : (argv.getD 1 []).length < 19) :
    lsMain row t pcb argv = ls t pcb (lsPath (argv.getD 1 [])) := by
  have hpwd : (if 1 < argv.length then argv.getD 1 [] else []) = argv.getD 1 [] := by
    split
    · rfl
    · exact (List.getD_eq_default _ _ (by omega)).symm
  have hskip := @skip_delimited slash ts l r hs (by decide)
  have hbuffer : withSeparator (delimited slash l ts r) slash = delimited slash l ts r ++ [slash] :=
    if_neg (by decide)
  rw [lsMain, hpwd]
  dsimp only
  rw [if_pos (by omega), hargv,
    split_eq hskip (segments_fit hs) (by decide) (by decide) (by decide) hrows, Option.bind_some, hbuffer]
  dsimp only [Option.bind_some]
  rw [if_pos strncmp_ne_zero]
  congr 1
  generalize delimited slash l ts r = path
  rw [lsPath, ← apply_ite (fun k ↦ (path ++ [slash]).drop k), dropLast_drop_concat]
  cases path with
  | nil => rfl
  | cons c path => exact if_congr List.length_eq_zero_iff rfl rfl

/-! ## The line -/

/-- `ls` is run with the working directory, or with the words behind it. -/
theorem sbush_ls (hs : Fit blank (cstr "ls" :: args))
    (hwords : WordsRight lead (cstr "ls" :: args) trail) (hend : fresh (args.length + 1) = [])
    (hpwd : args = [] → pwd.length < 30) :
    sbush rows fresh (delimited blank lead (cstr "ls" :: args) trail) pwd =
      some (.exec (cstr "bin/ls")
        (if args = [] then [cstr "ls", pwd, []] else cstr "ls" :: (args ++ [[]]))) := by
  have hsteps := (stepRight_iff hs (List.cons_ne_nil _ _)).mpr hwords
  obtain ⟨hrows, hword⟩ := hsteps 0 (Nat.zero_le _)
  have hfirst := @splitInput_eq (cstr "ls" :: args) lead 0 trail (rows 0) hs (by decide) hrows
  have hfew := hwords.rows
  rw [List.length_cons] at hfew
  obtain ⟨input', hloop⟩ := (@wordsLoop_iff rows fresh (cstr "ls" :: args) args lead trail 99 1 hs
    (List.cons_ne_nil _ _) (Nat.add_comm 1 _) rfl (by decide)).mpr
      ⟨by omega, fun j _ hj ↦ hsteps j hj⟩
  have hls : (returned blank (segments lead (cstr "ls" :: args) trail)).getD 0 [] = cstr "ls" := hword
  rw [List.length_cons, hend] at hloop
  rw [hls] at hfirst
  rw [sbush, hfirst, Option.bind_some]
  dsimp only [Option.bind_some]
  rw [if_pos (by decide), lsCommand, hloop, Option.bind_some]
  dsimp only
  rw [if_congr strcmpFrom_zero rfl rfl]
  cases args with
  | nil =>
      rw [if_pos rfl, if_pos (hpwd rfl)]
      rfl
  | cons a args =>
      have ha : a ≠ [] := (hs a (List.mem_cons_of_mem _ List.mem_cons_self)).1
      exact if_neg ha

/-- The line lists the path that it names, or the working directory. -/
theorem lsLine_eq (hs : Fit blank (cstr "ls" :: args))
    (hwords : WordsRight lead (cstr "ls" :: args) trail) (hend : fresh (args.length + 1) = [])
    (hfit : Fit slash ts) (hrows : (segments l ts r).length ≤ 10)
    (hpath : args.headD pwd = delimited slash l ts r) (hlen : (args.headD pwd).length < 19) :
    lsLine rows fresh row t pcb (delimited blank lead (cstr "ls" :: args) trail) pwd =
      ls t pcb (lsPath (args.headD pwd)) := by
  have hpwd : args = [] → pwd.length < 30 := fun h ↦ by
    subst h
    exact Nat.lt_trans hlen (by decide)
  obtain ⟨argv, hargv, hget⟩ : ∃ argv,
      argvOf (if args = [] then [cstr "ls", pwd, []] else cstr "ls" :: (args ++ [[]])) = some argv ∧
        argv.getD 1 [] = args.headD pwd := by
    cases args with
    | nil =>
        rw [if_pos rfl]
        by_cases hne : pwd = []
        · subst hne
          exact ⟨[cstr "ls"], rfl, rfl⟩
        · have hmem : [] ∉ [cstr "ls", pwd] := by
            simpa [cstr] using Ne.symm hne
          exact ⟨[cstr "ls", pwd], (argvOf_concat hmem).trans (if_pos rfl), rfl⟩
    | cons a args =>
        have hmem : [] ∉ cstr "ls" :: a :: args := fun h ↦ (hs [] h).1 rfl
        exact ⟨_, (argvOf_concat hmem).trans (if_pos rfl), rfl⟩
  rw [lsLine, sbush_ls hs hwords hend hpwd, Option.bind_some, ShellAction.passed, hargv, Option.map_some,
    Option.bind_some]
  dsimp only
  rw [if_pos rfl, lsMain_eq hfit hrows (hget.trans hpath) (hget ▸ hlen), hget]

/-! ## What is shown -/

/-- The number of the directory and the names in it. -/
def lsShown (n : Int) (names : List CString) : List ConsoleOp :=
  (lsHeader n).map charOp ++ (prints (cstr ".     ..     ") ++ names.flatMap entryOps) ++
    (cstr "\n").map charOp

theorem Lists.ls_eq (h : Lists t pcb path names) : ∃ n, ls t pcb path = some (lsShown n names) := by
  obtain ⟨dir, hopen, hread⟩ := h
  refine ⟨dir, ?_⟩
  have hdir : (dir : Int) ≠ -1 := by omega
  rw [ls, hopen, Option.bind_some, if_pos hdir, Int.toNat_natCast, hread]
  rfl

/-- The root, the directory of this path, or the message that there is none. -/
structure ShowsPath (ms : List Member) (path : CString) (shown : Option (List ConsoleOp)) : Prop where
  root : path = [slash] → ∃ n, shown = some (lsShown n (listing ms []))
  dir : ∀ d ∈ ms, d.IsDir →
    path = d.path ∨ (path.getLast? ≠ some slash ∧ path ++ [slash] = d.path) →
      ∃ n, shown = some (lsShown n (listing ms d.path))
  none : path ≠ [slash] → (∀ d ∈ ms, d.IsDir → path ≠ d.path ∧ path ++ [slash] ≠ d.path) →
    shown = some (prints (cstr "No such directory exists.") ++ (lsHeader (-1)).map charOp ++
      (cstr "\n").map charOp)

theorem lsPath_ne_nil : lsPath path ≠ [] := by
  unfold lsPath
  dsimp only
  by_cases hp : path.drop (if path.headD 0 = slash then 8 else 7) = []
  · rw [if_pos hp]
    exact List.cons_ne_nil _ _
  · rwa [if_neg hp]

theorem IsIndex.withSlash_dir {d : Member} (hwell : ∀ m ∈ ms, m.WellFormed) (hd : d ∈ ms)
    (hdir : d.IsDir) (hne : path ≠ [])
    (hp : path = d.path ∨ (path.getLast? ≠ some slash ∧ path ++ [slash] = d.path)) :
    withSlash path = some d.path := by
  rcases hp with rfl | ⟨hlast, hp⟩
  · exact withSlash_of_slash ((hwell d hd).ends.mp hdir)
  · rw [withSlash_append hne hlast, hp]

theorem ls_showsPath (h : Archive s start ms) (hindex : IsIndex start ms t) (hne : path ≠ []) :
    ShowsPath ms path (ls t pcb path) where
  root := by
    rintro rfl
    exact (hindex.lists_root h.members).ls_eq
  dir d hd hdir hp :=
    (hindex.lists_dir h.members h.room hd hdir
      (IsIndex.withSlash_dir h.members hd hdir hne hp)).ls_eq
  none hroot hp := by
    obtain ⟨d, hd, hslash⟩ : ∃ d, withSlash path = some d ∧ (d = path ∨ d = path ++ [slash]) := by
      by_cases hlast : path.getLast? = some slash
      · exact ⟨path, withSlash_of_slash hlast, .inl rfl⟩
      · exact ⟨_, withSlash_append hne hlast, .inr rfl⟩
    have hnone : ∀ m ∈ ms, m.IsDir → m.path ≠ d := fun m hm hdir ↦ by
      rcases hslash with rfl | rfl
      · exact (hp m hm hdir).1.symm
      · exact (hp m hm hdir).2.symm
    rw [ls, hindex.refuses h.members hd hroot hnone, Option.bind_some, if_neg (not_not.mpr rfl),
      Option.map_some, List.append_nil]

/-- A line `ls` lists the working directory or the first path on it, without the characters that `main`
takes off. -/
theorem ls_shows (h : Archive s start ms) (hfuel : ms.length + 107 < fuel)
    (ht : s.initTarfs fuel start Tarfs.init = some t) (hs : Fit blank (cstr "ls" :: args))
    (hwords : WordsRight lead (cstr "ls" :: args) trail) (hend : fresh (args.length + 1) = [])
    (hfit : Fit slash ts) (hrows : (segments l ts r).length ≤ 10)
    (hpath : args.headD pwd = delimited slash l ts r) (hlen : (args.headD pwd).length < 19) :
    ShowsPath ms (lsPath (args.headD pwd))
      (lsLine rows fresh row t pcb (delimited blank lead (cstr "ls" :: args) trail) pwd) := by
  obtain ⟨t', ht', hindex⟩ := h.index hfuel
  obtain rfl := Option.some.inj (ht.symm.trans ht')
  rw [lsLine_eq hs hwords hend hfit hrows hpath hlen]
  exact ls_showsPath h hindex lsPath_ne_nil

theorem ls_shows_bin : ∃ t,
    (archiveMachine binMembers).initTarfs 120 archiveStart Tarfs.init = some t ∧
      ∃ n, lsLine (fun _ _ _ ↦ 0) (fun _ ↦ []) (fun _ _ ↦ 0) t (fun _ ↦ 0) (cstr "ls")
        (cstr "/rootfs/bin") = some (lsShown n [cstr "ls"]) := by
  obtain ⟨t, ht, -⟩ := binMembers_archive.index (show _ < 120 by decide)
  have hshows : ShowsPath binMembers (lsPath (cstr "/rootfs/bin"))
      (lsLine (fun _ _ _ ↦ 0) (fun _ ↦ []) (fun _ _ ↦ 0) t (fun _ ↦ 0)
        (delimited blank 0 [cstr "ls"] 0) (cstr "/rootfs/bin")) :=
    @ls_shows _ _ _ t _ [cstr "rootfs", cstr "bin"] [] _ 0 0 1 0 120 archiveStart binMembers _
      binMembers_archive (by decide) ht (by unfold Fit; decide)
      ⟨by decide, by decide, by decide, by decide⟩ rfl (by unfold Fit; decide) (by decide)
      (by decide) (by decide)
  exact ⟨t, ht, hshows.dir ⟨cstr "bin/", 0, chr '5', []⟩ List.mem_cons_self rfl (.inr (by decide))⟩

end Sbunix
