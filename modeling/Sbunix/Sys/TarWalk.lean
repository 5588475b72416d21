import Sbunix.Sys.TarLookup
import Mathlib.Logic.Relation

/-!
# The walk over the headers

`init_tarfs`, `getFile`, `isFile` and `isDir` go from header to header in the same loop: its only test
is the magic, and its step is what the size field says.  Nothing in it knows where the image ends.
-/

namespace Sbunix

open Reasoning Machine Relation

variable {s : Machine} {a b lo hi start fuel : Nat} {size : Int} {l : CString} {m : Member}
  {ms : List Member} {filename : CString}

/-! ## The loop -/

/-- `(uint64_t)start + 512 + size`, with the size in blocks. -/
def headerEnd (start : Nat) (size : Int) : Nat := ((start + 512 + blocks size) % 2 ^ 64).toNat

/-- The loop of the four functions, with the headers that it goes through: `visit` looks at a header
and leaves the loop with a result or goes on. -/
def Machine.headerLoop {σ β : Type} (s : Machine) (visit : Nat → Nat → Int → σ → Option (β ⊕ σ))
    (rest : σ → β) : Nat → Nat → σ → Option (List Nat × β)
  | 0, _, _ => none
  | fuel + 1, start, t =>
      (s.readString fuel (start + 257)).bind fun magic ↦
        if strcmp magic (cstr "ustar") = 0 then
          (s.oct2bin (start + 124)).bind fun size ↦ (visit fuel start size t).bind fun r ↦
            r.elim (fun b ↦ some ([start], b)) fun t ↦
              (s.headerLoop visit rest fuel (headerEnd start size) t).map fun p ↦
                (start :: p.1, p.2)
        else some ([], rest t)

/-- The body of `getFile`. -/
def Machine.fileVisit (s : Machine) (filename : CString) (fuel start : Nat) (_ : Int) (_ : Unit) :
    Option (Nat ⊕ Unit) :=
  (s.readString fuel start).map fun name ↦
    if strcmp name filename = 0 then .inl ((start + 512) % 2 ^ 64) else .inr ()

/-- The body of `isFile` and `isDir`. -/
def Machine.typedVisit (s : Machine) (type filename : CString) (fuel start : Nat) (_ : Int)
    (_ : Unit) : Option (Nat ⊕ Unit) :=
  (s.readString fuel start).bind fun name ↦
  (if strcmp name filename = 0 then
    (s.readString fuel (start + 156)).map fun typeflag ↦ decide (strcmp typeflag type = 0)
    else some false).map fun found ↦ if found then .inl ((start + 512) % 2 ^ 64) else .inr ()

/-- The body of `init_tarfs`. -/
def Machine.indexVisit (s : Machine) (fuel start : Nat) (size : Int) (t : Tarfs) :
    Option (Tarfs ⊕ Tarfs) :=
  (s.readString fuel (start + 156)).bind fun typeflag ↦
  (s.readString fuel start).bind fun name ↦
  (if strcmp typeflag (cstr "5") = 0 then t.parse name Fnode.directory start 0
    else t.parse name Fnode.file start size).map .inr

/-- A function that does what the loop does at each header returns what the loop returns. -/
theorem headerLoop_eq {σ β : Type} {visit : Nat → Nat → Int → σ → Option (β ⊕ σ)} {rest : σ → β}
    {f : Nat → Nat → σ → Option β} (hzero : ∀ start t, f 0 start t = none)
    (hsucc : ∀ fuel start t, f (fuel + 1) start t =
      (s.readString fuel (start + 257)).bind fun magic ↦
        if strcmp magic (cstr "ustar") = 0 then
          (s.oct2bin (start + 124)).bind fun size ↦ (visit fuel start size t).bind fun r ↦
            r.elim some (f fuel (headerEnd start size))
        else some (rest t)) (fuel start : Nat) (t : σ) :
    f fuel start t = (s.headerLoop visit rest fuel start t).map Prod.snd := by
  induction fuel generalizing start t with
  | zero => exact hzero start t
  | succ fuel ih =>
      rw [hsucc, headerLoop, Option.map_bind]
      refine congrArg _ (funext fun magic ↦ ?_)
      dsimp only [Function.comp]
      split
      · rw [Option.map_bind]
        refine congrArg _ (funext fun size ↦ ?_)
        dsimp only [Function.comp]
        rw [Option.map_bind]
        refine congrArg _ (funext fun r ↦ ?_)
        cases r with
        | inl b => rfl
        | inr t =>
            dsimp only [Function.comp, Sum.elim_inr]
            rw [ih, Option.map_map]
            rfl
      · rfl

theorem getFile_eq (s : Machine) (filename : CString) (fuel start : Nat) :
    s.getFile filename fuel start =
      (s.headerLoop (s.fileVisit filename) (fun _ ↦ 0) fuel start ()).map Prod.snd := by
  refine headerLoop_eq (f := fun fuel start _ ↦ s.getFile filename fuel start)
    (fun _ _ ↦ rfl) (fun fuel start _ ↦ ?_) fuel start ()
  simp only [getFile, fileVisit, Option.bind_map, Function.comp_def,
    apply_ite (Sum.elim _ _), Sum.elim_inl, Sum.elim_inr, headerEnd]

theorem findTyped_eq_loop (s : Machine) (type filename : CString) (fuel start : Nat) :
    s.findTyped type filename fuel start =
      (s.headerLoop (s.typedVisit type filename) (fun _ ↦ 0) fuel start ()).map Prod.snd := by
  refine headerLoop_eq (f := fun fuel start _ ↦ s.findTyped type filename fuel start)
    (fun _ _ ↦ rfl) (fun fuel start _ ↦ ?_) fuel start ()
  simp only [findTyped, typedVisit, Option.bind_assoc, Option.bind_map, Function.comp_def,
    apply_ite (Sum.elim _ _), Sum.elim_inl, Sum.elim_inr, headerEnd]

theorem initTarfs_eq (s : Machine) (fuel start : Nat) (t : Tarfs) :
    s.initTarfs fuel start t = (s.headerLoop s.indexVisit id fuel start t).map Prod.snd := by
  refine headerLoop_eq (f := s.initTarfs) (fun _ _ ↦ rfl) (fun fuel start t ↦ ?_) fuel start t
  simp only [initTarfs, indexVisit, Option.bind_assoc, Option.bind_map, Function.comp_def,
    Sum.elim_inr, headerEnd, id]

/-! ## The step from header to header -/

/-- The test of the loop, on the six bytes of the magic. -/
def Machine.IsHeader (s : Machine) (start : Nat) : Prop :=
  s.readString 6 (start + 257) = some (cstr "ustar")

instance (s : Machine) (start : Nat) : Decidable (s.IsHeader start) :=
  inferInstanceAs (Decidable (_ = _))

/-- The address that the loop goes on with, if it goes on. -/
def Machine.nextHeader (s : Machine) (start : Nat) : Option Nat :=
  if s.IsHeader start then (s.oct2bin (start + 124)).map (headerEnd start) else none

abbrev Machine.Walk (s : Machine) : Nat → Nat → Prop :=
  ReflTransGen fun a b ↦ s.nextHeader a = some b

theorem nextHeader_eq_some : s.nextHeader a = some b ↔
    s.IsHeader a ∧ ∃ size, s.oct2bin (a + 124) = some size ∧ headerEnd a size = b := by
  rw [nextHeader]
  split
  · rename_i h
    rw [and_iff_right h, Option.map_eq_some_iff]
  · rename_i h
    exact iff_of_false (fun he ↦ by cases he) fun hc ↦ h hc.1

/-- The string at an address does not depend on the bytes that may be read for it. -/
theorem readString_some {n : Nat} (h : s.readString n a = some l) (hn : l.length < fuel) :
    s.readString fuel a = some l := by
  induction n generalizing a l fuel with
  | zero => cases h
  | succ n ih =>
      obtain ⟨fuel, rfl⟩ := Nat.exists_eq_add_of_le' (show 1 ≤ fuel by omega)
      rw [readString] at h ⊢
      obtain ⟨c, hc, h⟩ := Option.bind_eq_some_iff.mp h
      rw [hc, Option.bind_some]
      split
      · rename_i h0
        rwa [if_pos h0] at h
      · rename_i h0
        rw [if_neg h0] at h
        obtain ⟨l, hl, rfl⟩ := Option.map_eq_some_iff.mp h
        rw [ih hl (Nat.lt_of_succ_lt_succ hn), Option.map_some]

/-- The headers of the loop are those of the walk. -/
theorem headerLoop_walk {σ β : Type} {visit : Nat → Nat → Int → σ → Option (β ⊕ σ)} {rest : σ → β}
    {t : σ} {l : List Nat} {r : β} (h : s.headerLoop visit rest fuel start t = some (l, r)) :
    ∀ a ∈ l, s.Walk start a ∧ s.IsHeader a := by
  induction fuel generalizing start t l r with
  | zero => cases h
  | succ fuel ih =>
      rw [headerLoop] at h
      obtain ⟨magic, hmagic, h⟩ := Option.bind_eq_some_iff.mp h
      split at h
      · rename_i hcmp
        rw [strcmp_eq_zero_iff.mp hcmp] at hmagic
        have hhead : s.IsHeader start := readString_some hmagic (by decide)
        obtain ⟨size, hsize, h⟩ := Option.bind_eq_some_iff.mp h
        obtain ⟨r', -, h⟩ := Option.bind_eq_some_iff.mp h
        intro a ha
        cases r' with
        | inl b =>
            -- `visit` leaves the loop at this header
            obtain ⟨rfl, -⟩ := Prod.mk.inj (Option.some.inj h)
            obtain rfl := List.mem_singleton.mp ha
            exact ⟨.refl, hhead⟩
        | inr t' =>
            obtain ⟨p, hp, he⟩ := Option.map_eq_some_iff.mp h
            obtain ⟨rfl, -⟩ := Prod.mk.inj he
            have hnext : s.nextHeader start = some (headerEnd start size) := by
              rw [nextHeader, if_pos hhead, hsize, Option.map_some]
            rcases List.mem_cons.mp ha with rfl | ha
            · exact ⟨.refl, hhead⟩
            · obtain ⟨hwalk, hmem⟩ := ih hp a ha
              exact ⟨hwalk.head hnext, hmem⟩
      · obtain ⟨rfl, -⟩ := Prod.mk.inj (Option.some.inj h)
        intro a ha
        cases ha

/-! ## Well-formed archives -/

/-- A header with the name and the size of a member. -/
structure NamedHeader (s : Machine) (a : Nat) (m : Member) : Prop where
  name : StringAt s a m.path
  octal : BytesAt s (a + 124) (octal m.size)
  size : m.size < 2 ^ 31 - 512
  magic : StringAt s (a + 257) (cstr "ustar")

/-- The members follow each other from address `a` on, up to a block that is no header. -/
def MembersAt (s : Machine) : Nat → List Member → Prop
  | a, [] => (∃ l, StringAt s (a + 257) l ∧ l ≠ cstr "ustar") ∧ a + 512 ≤ 2 ^ 64
  | a, m :: ms => NamedHeader s a m ∧ MembersAt s (a + m.span) ms

/-- The headers of the members up to the first one that `q` holds of. -/
def headersTo (q : Member → Prop) [DecidablePred q] : Nat → List Member → List Nat
  | _, [] => []
  | a, m :: ms => a :: if q m then [] else headersTo q (a + m.span) ms

theorem MembersAt.le (h : MembersAt s a ms) : a + (ms.map Member.span).sum + 512 ≤ 2 ^ 64 := by
  induction ms generalizing a with
  | nil => exact h.2
  | cons m ms ih =>
      have := ih h.2
      rw [List.map_cons, List.sum_cons]
      omega

/-- The loop of `getFile` goes from member to member and stops at the first of the name. -/
theorem MembersAt.headerLoop (h : MembersAt s a ms) (filename : CString) :
    ∃ n, ∀ fuel, n ≤ fuel →
      s.headerLoop (s.fileVisit filename) (fun _ ↦ 0) fuel a () =
        some (headersTo (fun m ↦ m.path = filename) a ms,
          firstAddress (fun m ↦ m.path = filename) a ms) := by
  induction ms generalizing a with
  | nil =>
      -- what lies behind the last member has another magic
      obtain ⟨⟨l, hl, hne⟩, -⟩ := h
      refine ⟨l.length + 2, fun fuel hfuel ↦ ?_⟩
      obtain ⟨fuel, rfl⟩ := Nat.exists_eq_add_of_le' (show 1 ≤ fuel by omega)
      rw [Machine.headerLoop, readString_eq hl (by omega), Option.bind_some,
        if_neg (mt strcmp_eq_zero_iff.mp hne)]
      rfl
  | cons m ms ih =>
      obtain ⟨hm, hms⟩ := h
      obtain ⟨n, hn⟩ := ih hms
      have hend := hms.le
      refine ⟨n + m.path.length + 7, fun fuel hfuel ↦ ?_⟩
      obtain ⟨fuel, rfl⟩ := Nat.exists_eq_add_of_le' (show 1 ≤ fuel by omega)
      have hmagic : (cstr "ustar").length < fuel := Nat.lt_of_lt_of_le (by decide) (by omega : 6 ≤ fuel)
      have hsize : m.size < 2 ^ 31 := Nat.lt_trans hm.size (by decide)
      have hnext : headerEnd a m.size = a + m.span := next_header hm.size (by omega)
      rw [Machine.headerLoop, readString_eq hm.magic hmagic, Option.bind_some,
        if_pos (strcmp_eq_zero_iff.mpr rfl), oct2bin_eq hm.octal hsize, Option.bind_some,
        Machine.fileVisit, readString_eq hm.name (by omega), Option.map_some, Option.bind_some,
        headersTo, firstAddress]
      -- the walk ends here, or goes on at the next header
      by_cases hname : m.path = filename
      · have hlt : a + 512 < 2 ^ 64 := by
          have := m.span_ge
          omega
        rw [if_pos (strcmp_eq_zero_iff.mpr hname), if_pos hname, if_pos hname, Sum.elim_inl,
          Nat.mod_eq_of_lt hlt]
      · rw [if_neg (mt strcmp_eq_zero_iff.mp hname), if_neg hname, if_neg hname, Sum.elim_inr,
          hnext, hn fuel (by omega), Option.map_some]

/-- `getFile` goes through the headers of a well-formed archive up to the first member of the name,
whose data it returns; or through all of them, and returns NULL. -/
theorem getFile_members (h : MembersAt s start ms) (filename : CString) :
    ∃ n, ∀ fuel, n ≤ fuel →
      (∃ r, s.headerLoop (s.fileVisit filename) (fun _ ↦ 0) fuel start () =
        some (headersTo (fun m ↦ m.path = filename) start ms, r)) ∧
      s.getFile filename fuel start =
        some (firstAddress (fun m ↦ m.path = filename) start ms) := by
  obtain ⟨n, hn⟩ := h.headerLoop filename
  refine ⟨n, fun fuel hfuel ↦ ⟨⟨_, hn fuel hfuel⟩, ?_⟩⟩
  rw [getFile_eq, hn fuel hfuel, Option.map_some]

theorem ArchiveAt.membersAt (h : ArchiveAt s a ms) (hwell : ∀ m ∈ ms, m.WellFormed) :
    MembersAt s a ms := by
  induction ms generalizing a with
  | nil =>
      have hlt := h.2
      refine ⟨⟨[], ⟨bytesAt_cons.mpr ⟨h.1 257 0 rfl, fun i b hi ↦ by cases hi⟩,
        List.not_mem_nil⟩, by decide⟩, by omega⟩
  | cons m ms ih =>
      exact ⟨⟨h.1.name, h.1.size, (hwell m List.mem_cons_self).size, h.1.magic⟩,
        ih h.2 fun m' hm ↦ hwell m' (List.mem_cons_of_mem m hm)⟩

theorem getFile_members_bin : ∃ n, ∀ fuel, n ≤ fuel →
    (∃ r, (archiveMachine binMembers).headerLoop
        ((archiveMachine binMembers).fileVisit (cstr "bin/ls")) (fun _ ↦ 0) fuel archiveStart () =
      some ([archiveStart, archiveStart + 512], r)) ∧
    (archiveMachine binMembers).getFile (cstr "bin/ls") fuel archiveStart =
      some (archiveStart + 1024) :=
  getFile_members
    (binMembers_archive.bytes.membersAt binMembers_archive.members) (cstr "bin/ls")

theorem MembersAt.not_isHeader (h : MembersAt s a []) : ¬ s.IsHeader a := by
  obtain ⟨⟨l, hl, hne⟩, -⟩ := h
  intro hhead
  have hread := readString_eq hl (Nat.lt_add_of_pos_right (Nat.succ_pos 5))
  rw [readString_some hhead (Nat.lt_of_lt_of_le (by decide) (Nat.le_add_left 6 _))] at hread
  exact hne (Option.some.inj hread).symm

/-- The walk over a well-formed archive goes from member to member. -/
theorem MembersAt.walk (h : MembersAt s a ms) (hwalk : s.Walk a b) :
    ∃ pre post, ms = pre ++ post ∧ b = a + (pre.map Member.span).sum ∧ MembersAt s b post := by
  induction hwalk with
  | refl => exact ⟨[], ms, rfl, rfl, h⟩
  | tail _ hstep ih =>
      obtain ⟨pre, post, rfl, rfl, hpost⟩ := ih
      obtain ⟨hhead, size, hsize, rfl⟩ := nextHeader_eq_some.mp hstep
      cases post with
      | nil => exact absurd hhead hpost.not_isHeader
      | cons m post =>
          obtain ⟨hm, hms⟩ := hpost
          have hle := hms.le
          rw [oct2bin_eq hm.octal (Nat.lt_trans hm.size (by decide))] at hsize
          obtain rfl := Option.some.inj hsize
          refine ⟨pre ++ [m], post, List.append_cons pre m post, ?_, ?_⟩
          · rw [headerEnd, next_header hm.size (by omega)]
            simp [Nat.add_assoc]
          · rwa [headerEnd, next_header hm.size (by omega)]

/-! ## Images in which the walk is safe -/

/-- The walk from `lo` moves up, stays in the image up to `hi`, and comes to an end. -/
structure WalkSafe (s : Machine) (lo hi : Nat) : Prop where
  up : ∀ a b, s.Walk lo a → s.nextHeader a = some b → a < b
  inside : ∀ a, s.Walk lo a → lo ≤ a ∧ a + 512 ≤ hi
  ends : ∃ a, s.Walk lo a ∧ s.nextHeader a = none

/-- Every header that the walk meets has a size, not a block or more below zero and not in the last
block of an `int`, whose blocks lie in the image and leave room for one header more. -/
structure SizesFit (s : Machine) (lo hi : Nat) : Prop where
  room : lo + 512 ≤ hi
  size : ∀ a size, s.Walk lo a → s.IsHeader a → s.oct2bin (a + 124) = some size →
    (-1024 < size ∧ size ≠ -512 ∧ size ≤ 2 ^ 31 - 512) ∧ (a : Int) + 512 + blocks size + 512 ≤ hi

theorem oct2bin_range (h : s.oct2bin a = some size) : -2 ^ 31 ≤ size ∧ size < 2 ^ 31 := by
  obtain ⟨x, -, rfl⟩ := Option.map_eq_some_iff.mp h
  have hl := Int.le_bmod (x := x) (m := 2 ^ 32) (by decide)
  have hu := Int.bmod_lt (x := x) (m := 2 ^ 32) (by decide)
  omega

theorem blocks_neg {n : Nat} (hn : n ≤ 2 ^ 31) :
    blocks (-n) = if n % 512 = 0 then -(n : Int) else 512 - (n / 512 * 512 : Nat) := by
  have hmod : (n : Int).tmod 512 = (n % 512 : Nat) := rfl
  have hdiv : (n : Int).tdiv 512 = (n / 512 : Nat) := rfl
  rw [blocks, Int.neg_tmod, Int.neg_tdiv, hmod, hdiv]
  by_cases h : n % 512 = 0
  · rw [if_pos h, if_neg (by omega)]
  · rw [if_neg h, if_pos (by omega), Int.bmod_eq_of_le (by omega) (by omega)]
    omega

/-- In the last block of an `int` the rounded size wraps. -/
theorem blocks_top {n : Nat} (hl : 2 ^ 31 - 512 < n) (hu : n < 2 ^ 31) :
    blocks n = -2 ^ 31 := by
  have hmod : (n : Int).tmod 512 = (n % 512 : Nat) := rfl
  have hdiv : (n : Int).tdiv 512 = (n / 512 : Nat) := rfl
  have hq : n / 512 = 2 ^ 22 - 1 := by omega
  rw [blocks, hmod, hdiv, if_pos (by omega), hq]
  decide

/-- The step is upwards for all sizes but those of a whole block or two below zero, and those that are
rounded up beyond an `int`. -/
theorem blocks_gt_iff (h : -2 ^ 31 ≤ size ∧ size < 2 ^ 31) :
    (-512 < blocks size ↔ -1024 < size ∧ size ≠ -512 ∧ size ≤ 2 ^ 31 - 512) ∧
      -2 ^ 31 ≤ blocks size ∧ blocks size < 2 ^ 31 := by
  obtain ⟨n, rfl | rfl⟩ := size.eq_nat_or_neg
  · by_cases hn : n ≤ 2 ^ 31 - 512
    · rw [blocks_eq hn]
      omega
    · rw [blocks_top (by omega) (by omega)]
      omega
  · rw [blocks_neg (by omega)]
    split <;> omega

/-- Without a wrap of the address, the step is the size in blocks and a header. -/
theorem headerEnd_eq (h : 0 ≤ (start : Int) + 512 + blocks size)
    (h' : (start : Int) + 512 + blocks size < 2 ^ 64) :
    (headerEnd start size : Int) = start + 512 + blocks size := by
  rw [headerEnd]
  omega

/-- A walk that moves up below a bound ends. -/
theorem walk_ends (hup : ∀ a b, s.Walk lo a → s.nextHeader a = some b → a < b)
    (hbound : ∀ a, s.Walk lo a → a < hi) : ∃ a, s.Walk lo a ∧ s.nextHeader a = none := by
  by_contra hnone
  push Not at hnone
  -- every step gains an address at least
  have hfar : ∀ n, ∃ a, s.Walk lo a ∧ n ≤ a := by
    intro n
    induction n with
    | zero => exact ⟨lo, .refl, Nat.zero_le lo⟩
    | succ n ih =>
        obtain ⟨a, ha, hn⟩ := ih
        obtain ⟨b, hb⟩ := Option.ne_none_iff_exists'.mp (hnone a ha)
        exact ⟨b, ha.tail hb, Nat.succ_le_of_lt (hn.trans_lt (hup a b ha hb))⟩
  obtain ⟨a, ha, hn⟩ := hfar hi
  exact absurd (hbound a ha) (Nat.not_lt.mpr hn)

theorem SizesFit.step (h : SizesFit s lo hi) (hlo : kernBase ≤ lo) (hhi : hi ≤ 2 ^ 64)
    (ha : s.Walk lo a) (hla : lo ≤ a) (hstep : s.nextHeader a = some b) :
    a < b ∧ b + 512 ≤ hi := by
  have hbase : 2 ^ 63 < kernBase := by decide
  obtain ⟨hhead, size, hsize, rfl⟩ := nextHeader_eq_some.mp hstep
  obtain ⟨hfit, hroom⟩ := h.size a size ha hhead hsize
  have hgt := (blocks_gt_iff (oct2bin_range hsize)).1.mpr hfit
  have heq : (headerEnd a size : Int) = a + 512 + blocks size :=
    headerEnd_eq (by omega) (by omega)
  omega

theorem SizesFit.inside (h : SizesFit s lo hi) (hlo : kernBase ≤ lo) (hhi : hi ≤ 2 ^ 64)
    (ha : s.Walk lo a) : lo ≤ a ∧ a + 512 ≤ hi := by
  induction ha with
  | refl => exact ⟨Nat.le_refl lo, h.room⟩
  | tail ha hstep ih =>
      have hnext := h.step hlo hhi ha ih.1 hstep
      exact ⟨Nat.le_trans ih.1 hnext.1.le, hnext.2⟩

/-- The walk is safe in exactly the images whose size fields fit, as the loop tests nothing but the
magic. -/
theorem walkSafe_iff (hlo : kernBase ≤ lo) (hhi : hi ≤ 2 ^ 64) :
    WalkSafe s lo hi ↔ SizesFit s lo hi := by
  have hbase : 2 ^ 63 < kernBase := by decide
  constructor
  · intro h
    refine ⟨(h.inside lo .refl).2, fun a size ha hhead hsize ↦ ?_⟩
    obtain ⟨hiff, hl, hu⟩ := blocks_gt_iff (oct2bin_range hsize)
    have hnext : s.nextHeader a = some (headerEnd a size) :=
      nextHeader_eq_some.mpr ⟨hhead, size, hsize, rfl⟩
    have hup := h.up a _ ha hnext
    have hin := h.inside a ha
    have hin' := h.inside _ (ha.tail hnext)
    -- an address that wraps comes back below the image
    have heq : (headerEnd a size : Int) = a + 512 + blocks size := by
      rw [headerEnd] at hup ⊢
      omega
    rw [← hiff]
    omega
  · intro h
    have hwalk : ∀ a, s.Walk lo a → lo ≤ a ∧ a + 512 ≤ hi := fun _ ha ↦ h.inside hlo hhi ha
    have hup : ∀ a b, s.Walk lo a → s.nextHeader a = some b → a < b := fun a b ha hstep ↦
      (h.step hlo hhi ha (hwalk a ha).1 hstep).1
    exact ⟨hup, hwalk, walk_ends hup fun a ha ↦ Nat.lt_of_lt_of_le (by omega) (hwalk a ha).2⟩

/-- The headers that a loop goes through from `lo` on lie in the image. -/
def HeadersInside {σ β : Type} (s : Machine) (lo hi : Nat)
    (visit : Nat → Nat → Int → σ → Option (β ⊕ σ)) (rest : σ → β) (t : σ) : Prop :=
  ∀ fuel l r, s.headerLoop visit rest fuel lo t = some (l, r) → ∀ a ∈ l, lo ≤ a ∧ a + 512 ≤ hi

theorem WalkSafe.headersInside {σ β : Type} (h : WalkSafe s lo hi)
    (visit : Nat → Nat → Int → σ → Option (β ⊕ σ)) (rest : σ → β) (t : σ) :
    HeadersInside s lo hi visit rest t := fun _ _ _ hloop a ha ↦
  h.inside a (headerLoop_walk hloop a ha).1

/-- The walk, and with it each of the four loops, is safe in exactly the images whose size fields
fit. -/
theorem headerWalk_iff (hlo : kernBase ≤ lo) (hhi : hi ≤ 2 ^ 64) :
    (WalkSafe s lo hi ↔ SizesFit s lo hi) ∧ (SizesFit s lo hi →
      (∀ filename, HeadersInside s lo hi (s.fileVisit filename) (fun _ ↦ 0) ()) ∧
      (∀ type filename, HeadersInside s lo hi (s.typedVisit type filename) (fun _ ↦ 0) ()) ∧
      ∀ t, HeadersInside s lo hi s.indexVisit id t) := by
  have hiff := walkSafe_iff (s := s) hlo hhi
  refine ⟨hiff, fun hfit ↦ ?_⟩
  have hsafe := hiff.mpr hfit
  exact ⟨fun _ ↦ hsafe.headersInside _ _ _, fun _ _ ↦ hsafe.headersInside _ _ _,
    fun t ↦ hsafe.headersInside _ _ t⟩

/-- A well-formed archive fits, with the block behind its members. -/
theorem MembersAt.sizesFit (h : MembersAt s lo ms)
    (hhi : lo + (ms.map Member.span).sum + 512 ≤ hi) : SizesFit s lo hi := by
  refine ⟨by omega, fun a size ha hhead hsize ↦ ?_⟩
  obtain ⟨pre, post, rfl, rfl, hpost⟩ := h.walk ha
  cases post with
  | nil => exact absurd hhead hpost.not_isHeader
  | cons m post =>
      have hm := hpost.1.size
      rw [oct2bin_eq hpost.1.octal (Nat.lt_trans hm (by decide))] at hsize
      obtain rfl := Option.some.inj hsize
      rw [List.map_append, List.sum_append, List.map_cons, List.sum_cons] at hhi
      have hspan : m.span = 512 + (m.size + 511) / 512 * 512 := rfl
      rw [blocks_eq hm.le]
      omega

theorem headerWalk_bin : WalkSafe (archiveMachine binMembers) archiveStart (archiveStart + 3584) :=
  (headerWalk_iff (by decide) (by decide)).1.mpr
    ((binMembers_archive.bytes.membersAt binMembers_archive.members).sizesFit (by decide))

/-- A header whose size is a block below zero: the byte before `0` stands for −1. -/
def slashImage : List UInt8 :=
  field 124 (cstr "a") ++ (field 133 (cstr "0000000/000") ++ field 255 (cstr "ustar")) ++
    .replicate 1024 0

theorem headerWalk_slash :
    (imageMachine slashImage).nextHeader archiveStart = some archiveStart ∧
      ¬ WalkSafe (imageMachine slashImage) archiveStart (archiveStart + 1536) := by
  have hnext : (imageMachine slashImage).nextHeader archiveStart = some archiveStart := by
    decide +kernel
  exact ⟨hnext, fun h ↦ Nat.lt_irrefl _ (h.up _ _ .refl hnext)⟩

end Sbunix
