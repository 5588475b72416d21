import Sbunix.Sys.Tarfs
import Sbunix.Reasoning.Blocks

/-!
# Archives in memory

A ustar archive is a list of members, each a header of 512 bytes and its data in blocks of 512 bytes,
with two blocks of zeros at the end.  The kernel reads the strings and the size of a header back.
-/

namespace Sbunix

open Reasoning Machine

/-- What the kernel reads of a header. -/
structure Member where
  path : CString
  size : Nat
  typeflag : UInt8
  linkname : CString

namespace Member

def IsDir (m : Member) : Prop := m.typeflag = chr '5'

instance (m : Member) : Decidable m.IsDir := inferInstanceAs (Decidable (_ = _))

/-- The string at the type flag, an array of one byte: it goes on with the name of the link, and
behind a full name with the magic. -/
def typeString (m : Member) : CString :=
  if m.typeflag = 0 then []
  else m.typeflag :: (m.linkname ++ if m.linkname.length = 100 then cstr "ustar" else [])

/-- A header and the blocks of the data. -/
def span (m : Member) : Nat := 512 + (m.size + 511) / 512 * 512

end Member

/-- The digits of a size. -/
def octal (n : Nat) : CString := (List.range 11).map fun j ↦ (48 + n / 8 ^ (10 - j) % 8).toUInt8

/-- The bytes at an address. -/
def BytesAt (s : Machine) (a : Nat) (l : List UInt8) : Prop :=
  ∀ i b, l[i]? = some b → s.readByte (a + i) = some b

/-- The string at an address. -/
def StringAt (s : Machine) (a : Nat) (l : CString) : Prop := BytesAt s a (l ++ [0]) ∧ 0 ∉ l

/-- The header of a member. -/
structure HeaderAt (s : Machine) (a : Nat) (m : Member) : Prop where
  name : StringAt s a m.path
  size : BytesAt s (a + 124) (octal m.size)
  typeflag : s.readByte (a + 156) = some m.typeflag
  linkname : BytesAt s (a + 157) m.linkname
  linkEnd : m.linkname.length < 100 → s.readByte (a + 157 + m.linkname.length) = some 0
  linkLength : m.linkname.length ≤ 100
  linkByte : 0 ∉ m.linkname
  magic : StringAt s (a + 257) (cstr "ustar")

/-- An archive with these members, from address `a` on. -/
def ArchiveAt (s : Machine) : Nat → List Member → Prop
  | a, [] => BytesAt s a (.replicate 1024 0) ∧ a + 1024 ≤ 2 ^ 64
  | a, m :: ms => HeaderAt s a m ∧ ArchiveAt s (a + m.span) ms

/-- The directory that a path lies in, with its slash: the path up to the last slash that is not its
end. -/
def dirPart (path : CString) : CString := path.dropLast.rdropWhile (· != slash)

/-- A path as `init_tarfs` accepts it, the size and the link of a member. -/
structure Member.WellFormed (m : Member) : Prop where
  short : 3 ≤ m.path.length ∧ m.path.length ≤ 99
  relative : m.path.head? ≠ some slash
  ends : m.IsDir ↔ m.path.getLast? = some slash
  size : m.size < 2 ^ 31 - 512
  directory : m.IsDir → m.size = 0 ∧ m.linkname = []

/-- Every directory comes before its contents. -/
def Ordered (ms : List Member) : Prop :=
  ∀ pre m post, ms = pre ++ m :: post → dirPart m.path ≠ [] →
    ∃ d ∈ pre, d.IsDir ∧ d.path = dirPart m.path

/-- The archives of the kernel's image. -/
structure Archive (s : Machine) (start : Nat) (ms : List Member) : Prop where
  kernel : kernBase ≤ start
  bytes : ArchiveAt s start ms
  members : ∀ m ∈ ms, m.WellFormed
  ordered : Ordered ms
  room : ms.length ≤ 511

variable {s : Machine} {a n fuel : Nat} {l l' : CString} {b : UInt8} {m : Member} {ms : List Member}

/-! ## Reading -/

theorem BytesAt.head (h : BytesAt s a (b :: l)) : s.readByte a = some b := h 0 b rfl

theorem BytesAt.tail (h : BytesAt s a (b :: l)) : BytesAt s (a + 1) l := by
  intro i c hi
  rw [show a + 1 + i = a + (i + 1) by omega]
  exact h (i + 1) c hi

theorem bytesAt_append : BytesAt s a (l ++ l') ↔ BytesAt s a l ∧ BytesAt s (a + l.length) l' :=
  holdsAt_append

theorem bytesAt_cons : BytesAt s a (b :: l) ↔ s.readByte a = some b ∧ BytesAt s (a + 1) l :=
  holdsAt_cons

theorem readString_eq (h : StringAt s a l) (hfuel : l.length < fuel) :
    s.readString fuel a = some l := by
  obtain ⟨hbytes, hzero⟩ := h
  induction l generalizing a fuel with
  | nil =>
      obtain ⟨fuel, rfl⟩ := Nat.exists_eq_add_of_le' (show 1 ≤ fuel by omega)
      rw [readString, hbytes.head, Option.bind_some, if_pos rfl]
  | cons b l ih =>
      obtain ⟨fuel, rfl⟩ := Nat.exists_eq_add_of_le' (show 1 ≤ fuel by omega)
      rw [List.mem_cons, not_or] at hzero
      rw [readString, hbytes.head, Option.bind_some, if_neg (Ne.symm hzero.1),
        ih (Nat.lt_of_succ_lt_succ hfuel) hbytes.tail hzero.2, Option.map_some]

/-- The digits that are left stand for the number without its last digits. -/
theorem oct2binLoop_eq (h : BytesAt s a (octal n)) (hn : n < 8 ^ 11) {c : Nat} (hc : c ≤ 11) :
    s.oct2binLoop a (8 ^ (11 - c)) c = some ((n / 8 ^ (11 - c) * 8 ^ (11 - c) : Nat) : Int) := by
  induction c with
  | zero =>
      rw [oct2binLoop, Nat.div_eq_of_lt hn]
      rfl
  | succ c ih =>
      have hbyte : s.readByte (a + c) = some (48 + n / 8 ^ (10 - c) % 8).toUInt8 := by
        refine h c _ ?_
        rw [octal, List.getElem?_map, List.getElem?_range (by omega)]
        rfl
      have hdigit : ((48 + n / 8 ^ (10 - c) % 8).toUInt8.toNat : Int).bmod 256 =
          ((48 + n / 8 ^ (10 - c) % 8 : Nat) : Int) := by
        have hbyte : (48 + n / 8 ^ (10 - c) % 8).toUInt8.toNat = 48 + n / 8 ^ (10 - c) % 8 := by
          change _ % 256 = _
          omega
        rw [hbyte]
        exact Int.bmod_eq_of_le (by omega) (by omega)
      have hweight : 11 - c = 10 - c + 1 := by omega
      -- the digit and the digits before it
      have hsplit : n / 8 ^ (10 - c) % 8 * 8 ^ (10 - c) +
          n / 8 ^ (11 - c) * 8 ^ (11 - c) = n / 8 ^ (10 - c) * 8 ^ (10 - c) := by
        rw [hweight, Nat.pow_succ, ← Nat.div_div_eq_div_mul, Nat.mul_comm (8 ^ (10 - c)) 8,
          ← Nat.mul_assoc, ← Nat.add_mul, Nat.mod_add_div']
      have hd : 8 ^ (10 - c) * 8 = 8 ^ (11 - c) := by rw [hweight, Nat.pow_succ]
      rw [oct2binLoop, hbyte, Option.bind_some, show 11 - (c + 1) = 10 - c by omega, hd,
        ih (by omega), Option.map_some, hdigit, ← hsplit]
      push_cast
      rw [add_sub_cancel_left]

/-- A size below 2 GiB is read as it was written. -/
theorem oct2bin_eq (h : BytesAt s a (octal n)) (hn : n < 2 ^ 31) : s.oct2bin a = some (n : Int) := by
  have hloop := oct2binLoop_eq h (Nat.lt_trans hn (by decide)) (Nat.le_refl 11)
  rw [Nat.sub_self, Nat.pow_zero, Nat.div_one, Nat.mul_one] at hloop
  rw [oct2bin, hloop, Option.map_some, Int.bmod_eq_of_le (by omega) (by omega)]

theorem blocks_eq (hn : n ≤ 2 ^ 31 - 512) : blocks n = ((n + 511) / 512 * 512 : Nat) := by
  have hmod : (n : Int).tmod 512 = (n % 512 : Nat) := rfl
  have hdiv : (n : Int).tdiv 512 = (n / 512 : Nat) := rfl
  rw [blocks, hmod, hdiv]
  split
  · rename_i h
    rw [Int.bmod_eq_of_le (by omega) (by omega)]
    omega
  · rename_i h
    omega

/-! ## Headers -/

theorem HeaderAt.typeString (h : HeaderAt s a m) : StringAt s (a + 156) m.typeString := by
  unfold Member.typeString
  split
  · rename_i hzero
    refine ⟨?_, List.not_mem_nil⟩
    rw [List.nil_append, bytesAt_cons, ← hzero]
    exact ⟨h.typeflag, fun i b hi ↦ by cases hi⟩
  · rename_i hflag
    -- the string runs on into the link name, and from a full one into the magic
    have hlink : BytesAt s (a + 157) ((m.linkname ++
        if m.linkname.length = 100 then cstr "ustar" else []) ++ [0]) ∧
        0 ∉ m.linkname ++ if m.linkname.length = 100 then cstr "ustar" else [] := by
      split
      · rename_i hfull
        have hmagic := h.magic
        rw [show a + 257 = a + 157 + m.linkname.length by omega] at hmagic
        rw [List.append_assoc, bytesAt_append, List.mem_append, not_or]
        exact ⟨⟨h.linkname, hmagic.1⟩, h.linkByte, hmagic.2⟩
      · rename_i hfull
        rw [List.append_nil, bytesAt_append, bytesAt_cons]
        have := h.linkLength
        exact ⟨⟨h.linkname, h.linkEnd (by omega), fun i b hi ↦ by cases hi⟩, h.linkByte⟩
    refine ⟨?_, ?_⟩
    · rw [List.cons_append, bytesAt_cons]
      exact ⟨h.typeflag, hlink.1⟩
    · rw [List.mem_cons, not_or]
      exact ⟨Ne.symm hflag, hlink.2⟩

theorem HeaderAt.typeString_length (h : HeaderAt s a m) : m.typeString.length ≤ 106 := by
  have hlen := h.linkLength
  unfold Member.typeString
  split
  · exact Nat.zero_le 106
  · rw [List.length_cons, List.length_append]
    split
    · change m.linkname.length + 5 + 1 ≤ 106
      omega
    · rw [List.length_nil]
      omega

theorem Member.WellFormed.typeString_iff (h : m.WellFormed) :
    m.typeString = cstr "5" ↔ m.IsDir := by
  constructor
  · intro hm
    unfold Member.typeString at hm
    split at hm
    · cases hm
    · exact (List.cons.inj hm).1
  · intro hd
    have hflag : m.typeflag = chr '5' := hd
    unfold Member.typeString
    rw [(h.directory hd).2, hflag]
    rfl

theorem ArchiveAt.le (h : ArchiveAt s a ms) : a + (ms.map Member.span).sum + 1024 ≤ 2 ^ 64 := by
  induction ms generalizing a with
  | nil => exact h.2
  | cons m ms ih =>
      have := ih h.2
      rw [List.map_cons, List.sum_cons]
      omega

/-- The header behind the data of a member. -/
theorem next_header (hm : m.size < 2 ^ 31 - 512) (h : a + m.span < 2 ^ 64) :
    (((a : Int) + 512 + blocks m.size) % 2 ^ 64).toNat = a + m.span := by
  rw [blocks_eq hm.le]
  unfold Member.span at *
  omega

/-! ## Archives as they are written -/

/-- A string in a field of `n` bytes. -/
def field (n : Nat) (l : CString) : List UInt8 := l ++ .replicate (n - l.length) 0

namespace Member

/-- The bytes of a header; the fields that the kernel does not read are zeros. -/
def header (m : Member) : List UInt8 :=
  field 124 m.path ++ (field 32 (octal m.size) ++
    (m.typeflag :: (field 100 m.linkname ++ field 255 (cstr "ustar"))))

/-- The strings fit into their fields. -/
structure Fits (m : Member) : Prop where
  path : m.path.length < 100 ∧ 0 ∉ m.path
  linkname : m.linkname.length ≤ 100 ∧ 0 ∉ m.linkname

instance (m : Member) : Decidable m.Fits :=
  decidable_of_iff (_ ∧ _) ⟨fun h ↦ ⟨h.1, h.2⟩, fun h ↦ ⟨h.path, h.linkname⟩⟩

end Member

/-- The bytes of an archive of files that are full of zeros. -/
def archiveBytes : List Member → List UInt8
  | [] => .replicate 1024 0
  | m :: ms => m.header ++ (.replicate (m.span - 512) 0 ++ archiveBytes ms)

theorem length_field (h : l.length ≤ n) : (field n l).length = n := by
  rw [field, List.length_append, List.length_replicate, Nat.add_sub_cancel' h]

theorem stringAt_field (h : BytesAt s a (field n l)) (hlen : l.length < n) (hzero : 0 ∉ l) :
    StringAt s a l := by
  obtain ⟨k, hk⟩ : ∃ k, n - l.length = k + 1 := Nat.exists_eq_add_of_le' (by omega)
  rw [field, hk, List.replicate_succ, bytesAt_append, bytesAt_cons] at h
  rw [StringAt, bytesAt_append, bytesAt_cons]
  exact ⟨⟨h.1, h.2.1, fun i b hi ↦ by cases hi⟩, hzero⟩

theorem Member.length_header (h : m.Fits) : m.header.length = 512 := by
  have hoctal : (octal m.size).length ≤ 32 := by
    rw [octal, List.length_map, List.length_range]
    decide
  rw [header, List.length_append, List.length_append, List.length_cons, List.length_append,
    length_field (Nat.le_trans h.path.1.le (by decide)), length_field hoctal,
    length_field h.linkname.1, length_field (by decide)]

/-- The kernel reads back the header that was written. -/
theorem headerAt_header (h : BytesAt s a m.header) (hm : m.Fits) : HeaderAt s a m := by
  have hoctal : (octal m.size).length = 11 := by rw [octal, List.length_map, List.length_range]
  rw [Member.header, bytesAt_append, bytesAt_append, bytesAt_cons, bytesAt_append,
    length_field (Nat.le_trans hm.path.1.le (by decide)), length_field (by omega),
    length_field hm.linkname.1] at h
  obtain ⟨hpath, hsize, hflag, hlink, hmagic⟩ := h
  rw [field, bytesAt_append] at hsize
  refine ⟨stringAt_field hpath (Nat.lt_trans hm.path.1 (by decide)) hm.path.2, hsize.1, hflag, ?_,
    fun hlt ↦ ?_, hm.linkname.1, hm.linkname.2, stringAt_field hmagic (by decide) (by decide)⟩
  · rw [field, bytesAt_append] at hlink
    exact hlink.1
  · have hend := (stringAt_field hlink hlt hm.linkname.2).1
    rw [bytesAt_append] at hend
    exact hend.2.head

theorem archiveAt_archiveBytes (h : BytesAt s a (archiveBytes ms)) (hfits : ∀ m ∈ ms, m.Fits)
    (hlt : a + (archiveBytes ms).length ≤ 2 ^ 64) : ArchiveAt s a ms := by
  induction ms generalizing a with
  | nil =>
      rw [archiveBytes, List.length_replicate] at hlt
      exact ⟨h, hlt⟩
  | cons m ms ih =>
      have hlen := Member.length_header (hfits m List.mem_cons_self)
      have hspan : a + 512 + (m.span - 512) = a + m.span := by
        unfold Member.span
        omega
      rw [archiveBytes, bytesAt_append, bytesAt_append, hlen, List.length_replicate, hspan] at h
      rw [archiveBytes, List.length_append, List.length_append, hlen, List.length_replicate] at hlt
      exact ⟨headerAt_header h.1 (hfits m List.mem_cons_self),
        ih h.2.2 (fun x hx ↦ hfits x (List.mem_cons_of_mem m hx)) (by omega)⟩

/-- A machine with an image in page 64. -/
def imageMachine (l : List UInt8) : Machine :=
  { mem := fun a ↦ l.getD (a - 0x40000) 0, cr3 := 0, alloc := ⟨fun _ ↦ 0, 0, 0, 0⟩ }

/-- A machine with an archive in page 64. -/
def archiveMachine (ms : List Member) : Machine :=
  { mem := fun a ↦ (archiveBytes ms).getD (a - 0x40000) 0, cr3 := 0,
    alloc := ⟨fun _ ↦ 0, 0, 0, 0⟩ }

def archiveStart : Nat := kernBase + 0x40000

theorem bytesAt_imageMachine (l : List UInt8) : BytesAt (imageMachine l) archiveStart l := by
  intro i b hi
  have hbase : kernBase ≤ archiveStart + i := by
    unfold archiveStart
    omega
  have hoff : archiveStart + i - kernBase - 0x40000 = i := by
    unfold archiveStart
    omega
  rw [Machine.readByte, Machine.translate, if_pos hbase, Option.map_some]
  show some (l.getD _ 0) = some b
  rw [hoff, List.getD_eq_getElem?_getD, hi, Option.getD_some]

theorem bytesAt_archiveMachine : BytesAt (archiveMachine ms) archiveStart (archiveBytes ms) :=
  bytesAt_imageMachine (archiveBytes ms)

/-- A split of a list with one more member: it is the last one, or one of the list. -/
theorem append_singleton_split {pre pre' post' : List Member} {m' : Member}
    (h : pre ++ [m] = pre' ++ m' :: post') :
    (pre = pre' ∧ m = m') ∨ ∃ post, pre = pre' ++ m' :: post := by
  rcases List.eq_nil_or_concat post' with rfl | ⟨post, x, rfl⟩
  · obtain ⟨hpre, hm⟩ := List.append_inj' h rfl
    exact .inl ⟨hpre, (List.cons.inj hm).1⟩
  · rw [List.concat_eq_append, ← List.cons_append, ← List.append_assoc] at h
    exact .inr ⟨post, (List.append_inj' h rfl).1⟩

/-- Every directory of the list comes before its contents, behind the members `pre`. -/
def OrderedAfter (pre : List Member) : List Member → Prop
  | [] => True
  | m :: ms => (dirPart m.path ≠ [] → ∃ d ∈ pre, d.IsDir ∧ d.path = dirPart m.path) ∧
      OrderedAfter (pre ++ [m]) ms

instance decidableOrderedAfter (pre : List Member) :
    (ms : List Member) → Decidable (OrderedAfter pre ms)
  | [] => inferInstanceAs (Decidable True)
  | m :: ms =>
      have := decidableOrderedAfter (pre ++ [m]) ms
      inferInstanceAs (Decidable (_ ∧ _))

theorem OrderedAfter.ordered {pre : List Member} (hpre : Ordered pre) (h : OrderedAfter pre ms) :
    Ordered (pre ++ ms) := by
  induction ms generalizing pre with
  | nil => rwa [List.append_nil]
  | cons m ms ih =>
      rw [List.append_cons]
      -- the new member comes last; the others were in order before it
      refine ih (fun pre' m' post' hsplit ↦ ?_) h.2
      rcases append_singleton_split hsplit with ⟨rfl, rfl⟩ | ⟨post, rfl⟩
      · exact h.1
      · exact hpre pre' m' post rfl

instance (m : Member) : Decidable m.WellFormed :=
  decidable_of_iff (_ ∧ _ ∧ _ ∧ _ ∧ _)
    ⟨fun h ↦ ⟨h.1, h.2.1, h.2.2.1, h.2.2.2.1, h.2.2.2.2⟩,
      fun h ↦ ⟨h.short, h.relative, h.ends, h.size, h.directory⟩⟩

theorem length_archiveBytes (hfits : ∀ m ∈ ms, m.Fits) :
    (archiveBytes ms).length = (ms.map Member.span).sum + 1024 := by
  induction ms with
  | nil => rw [archiveBytes, List.length_replicate, List.map_nil, List.sum_nil]
  | cons m ms ih =>
      have hspan : 512 + (m.span - 512) = m.span := by
        unfold Member.span
        omega
      rw [archiveBytes, List.length_append, List.length_append, List.length_replicate,
        Member.length_header (hfits m List.mem_cons_self), ← Nat.add_assoc, hspan,
        ih fun x hx ↦ hfits x (List.mem_cons_of_mem m hx), List.map_cons, List.sum_cons,
        Nat.add_assoc]

theorem archiveAt_archiveMachine (hfits : ∀ m ∈ ms, m.Fits)
    (hsize : (ms.map Member.span).sum ≤ 2 ^ 30) :
    ArchiveAt (archiveMachine ms) archiveStart ms := by
  refine archiveAt_archiveBytes bytesAt_archiveMachine hfits ?_
  rw [length_archiveBytes hfits]
  unfold archiveStart kernBase
  omega

theorem archive_archiveMachine (hfits : ∀ m ∈ ms, m.Fits) (hwell : ∀ m ∈ ms, m.WellFormed)
    (hord : OrderedAfter [] ms) (hsize : (ms.map Member.span).sum ≤ 2 ^ 30)
    (hroom : ms.length ≤ 511) : Archive (archiveMachine ms) archiveStart ms where
  kernel := by
    unfold archiveStart
    omega
  bytes := archiveAt_archiveMachine hfits hsize
  members := hwell
  ordered := hord.ordered fun pre m post hsplit ↦ by simp at hsplit
  room := hroom

/-- A directory with a file in it, and a file beside it. -/
def binMembers : List Member :=
  [⟨cstr "bin/", 0, chr '5', []⟩, ⟨cstr "bin/ls", 5, chr '0', []⟩, ⟨cstr "readme", 600, chr '0', []⟩]

theorem binMembers_archive : Archive (archiveMachine binMembers) archiveStart binMembers :=
  archive_archiveMachine (by decide) (by decide) (by decide) (by decide) (by decide)

end Sbunix
