import Sbunix.Libc.Stdio
import Sbunix.Sys.Descriptors
import Sbunix.Sys.ReadFile
import Mathlib.Data.List.Perm.Subperm

/-!
# The `cat` program (`bin/cat/cat.c`)

A file goes to the console through `buf`.  A read stores at least the 1000 bytes that are asked for,
those behind a shorter file too, and `put_s` sends what comes before the first NUL.  Nothing closes the
descriptors.
-/

namespace Sbunix

open Reasoning Machine

/-- Where the linker puts the arrays of `sysdef.h`, and the string of `main`. -/
structure CatData where
  p : Nat
  buf : Nat
  temp : Nat
  noFiles : Nat

/-- What the process has printed, its PCB and its memory. -/
structure CatState where
  ops : List ConsoleOp
  pcb : Memory
  mem : Memory

section
variable (d : CatData) (va : Nat → Nat) (scanfstdin : Nat → Int → Option ReadReply) (t : Tarfs)

/-- `cat(inp)`. -/
def cat (inp : Nat) (st : CatState) : Option CatState :=
  (strcpy st.mem inp d.temp).bind fun mem ↦
    (mem.cstring (2 ^ 31) d.temp).bind fun path ↦
      (openSyscall t st.pcb path 0).bind fun r ↦
        if r.ret ≠ -1 then
          (readSyscall scanfstdin t r.pcb mem r.ret d.buf 1000).bind fun q ↦
            (putS va d.p (applyLog mem q.log) d.buf).map fun (ops, mem) ↦
              ⟨st.ops ++ r.ops ++ ops, r.pcb, mem⟩
        else some ⟨st.ops ++ r.ops, r.pcb, mem⟩

/-- The loop of `main` from the argument `i` on. -/
def catLoop (argv : Nat) : Nat → Nat → CatState → Option CatState
  | 0, _, st => some st
  | left + 1, i, st =>
      (cat d va scanfstdin t (st.mem.load64 (argv + 8 * i)) st).bind (catLoop argv left (i + 1))

/-- `main(argc, argv)`. -/
def catMain (argc argv : Nat) (st : CatState) : Option CatState :=
  (if argc = 1 then
    (putS va d.p st.mem d.noFiles).map fun (ops, mem) ↦ ⟨st.ops ++ ops, st.pcb, mem⟩
  else some st).bind (catLoop d va scanfstdin t argv (argc - 1) 1)

end

/-! ## What is printed for a file -/

/-- The bytes of `l` that `put_s` sends, with a NUL behind them. -/
def shown (l : CString) : CString := (l.take 1).filter (· ≠ 0) ++ (l.drop 1).takeWhile (· ≠ 0)

/-- What is sent for the file of `size` bytes at `a`. -/
def fileShown (m : Memory) (a size : Nat) : CString := shown (fileData m a (max size 1000))

/-- The address and the size of the data that a path names, in an archive at `a`. -/
def fileAt (path : CString) : List Member → Nat → Option (Nat × Nat)
  | [], _ => none
  | f :: ms, a =>
      if f.path = path ∧ ¬ f.IsDir then some (a + 512, f.size) else fileAt path ms (a + f.span)

/-- What is printed for a path. -/
def catOps (m : Memory) (start : Nat) (ms : List Member) (path : CString) : List ConsoleOp :=
  match fileAt path ms start with
  | some (a, size) => (fileShown m a size).map charOp
  | none => kprintf (cstr "No such file exists.") []

/-- The entry that a search found. -/
def Tarfs.found (t : Tarfs) : Nat × Bool → Option (Nat × Nat)
  | (i, true) => some ((t.root i).start + 512, (t.root i).size.toNat)
  | (_, false) => none

variable {d : CatData} {va : Nat → Nat} {scanfstdin : Nat → Int → Option ReadReply} {t : Tarfs}
  {s : Machine} {m m' pcb : Memory} {a b i n size start fuel inp argv : Nat} {path l : CString}
  {c : UInt8} {ms pre post : List Member} {handed : List Nat} {st : CatState} {paths : List CString}

theorem shown_cons : shown (c :: l) = [c].filter (· ≠ 0) ++ l.takeWhile (· ≠ 0) := rfl

theorem zero_notMem_shown : 0 ∉ shown l := by
  intro h
  rcases List.mem_append.mp h with h | h
  · simpa using List.of_mem_filter h
  · simpa using List.mem_takeWhile_imp h

theorem mem_of_mem_shown (h : c ∈ shown l) : c ∈ l := by
  rcases List.mem_append.mp h with h | h
  · exact List.mem_of_mem_take (List.mem_of_mem_filter h)
  · exact List.mem_of_mem_drop ((List.takeWhile_sublist _).subset h)

/-- Bytes without a NUL are shown in full. -/
theorem shown_eq_self (h : 0 ∉ l) : shown l = l := by
  cases l with
  | nil => rfl
  | cons c l =>
      rw [List.mem_cons, not_or] at h
      have htail : l.takeWhile (· ≠ 0) = l := by
        rw [List.takeWhile_eq_self_iff]
        intro x hx
        simpa using fun h0 : x = 0 ↦ h.2 (h0 ▸ hx)
      rw [shown_cons, List.filter_cons_of_pos (by simpa using Ne.symm h.1), htail]
      rfl

/-- What is shown of a text and of more bytes behind it is the text just when the bytes begin with a
NUL, and with one more if the text is empty. -/
theorem shown_append_iff {x : CString} (hx : x ≠ []) (h : 0 ∉ l) :
    shown (l ++ x) = l ↔ x.getD 0 0 = 0 ∧ (l = [] → x.getD 1 0 = 0) := by
  obtain ⟨b, x, rfl⟩ := List.exists_cons_of_ne_nil hx
  cases l with
  | nil =>
      rw [List.nil_append, shown_cons, List.append_eq_nil_iff]
      by_cases hb : b = 0
      · cases x with
        | nil => simp [hb]
        | cons e x =>
            by_cases he : e = 0
            · simp [hb, he]
            · simp [hb, he]
      · simp [hb]
  | cons c l =>
      rw [List.mem_cons, not_or] at h
      have htext : ∀ y ∈ l, decide (y ≠ 0) = true := fun y hy ↦ by
        simpa using fun h0 : y = 0 ↦ h.2 (h0 ▸ hy)
      rw [List.cons_append, shown_cons, List.filter_cons_of_pos (by simpa using Ne.symm h.1),
        List.takeWhile_append_of_pos htext]
      by_cases hb : b = 0
      · simp [hb]
      · simp [hb]

theorem fileData_append (hle : n ≤ size) :
    fileData m a size = fileData m a n ++ fileData m (a + n) (size - n) := by
  obtain ⟨k, rfl⟩ := Nat.exists_eq_add_of_le hle
  rw [Nat.add_sub_cancel_left, fileData, List.range_add, List.map_append, List.map_map]
  congr 1
  refine List.map_congr_left fun i _ ↦ ?_
  rw [Function.comp_apply, Nat.add_assoc]

theorem getD_fileData (h : i < n) : (fileData m a n).getD i 0 = m (a + i) := by
  have hget : (fileData m a n)[i]? = some (m (a + i)) := getElem?_fileData.mpr ⟨h, rfl⟩
  rw [List.getD_eq_getElem?_getD, hget, Option.getD_some]

/-- A file is shown as it is when it has no NUL and fills `buf`, or a NUL comes behind it; behind an
empty one, two. -/
theorem fileShown_iff : fileShown m a size = fileData m a size ↔ 0 ∉ fileData m a size ∧
    (size < 1000 → m (a + size) = 0 ∧ (size = 0 → m (a + 1) = 0)) := by
  by_cases hzero : 0 ∈ fileData m a size
  · refine iff_of_false (fun h ↦ ?_) fun h ↦ h.1 hzero
    exact zero_notMem_shown (h ▸ hzero)
  · rw [and_iff_right hzero]
    rcases Nat.lt_or_ge size 1000 with hlt | hge
    · have hbehind : fileData m (a + size) (1000 - size) ≠ [] := by
        apply List.ne_nil_of_length_pos
        rw [length_fileData]
        omega
      have hempty : fileData m a size = [] ↔ size = 0 := by
        rw [← List.length_eq_zero_iff, length_fileData]
      rw [fileShown, Nat.max_eq_right hlt.le, fileData_append hlt.le, shown_append_iff hbehind hzero,
        getD_fileData (by omega), hempty]
      refine ⟨fun h _ ↦ ⟨h.1, fun h0 ↦ ?_⟩, fun h ↦ ⟨(h hlt).1, fun h0 ↦ ?_⟩⟩
      · subst h0
        have hnext := h.2 rfl
        rwa [getD_fileData (by decide)] at hnext
      · subst h0
        rw [getD_fileData (by decide)]
        exact (h hlt).2 rfl
    · -- the NUL behind the copy is behind the file
      rw [fileShown, Nat.max_eq_left hge, shown_eq_self hzero]
      exact iff_of_true rfl fun hlt ↦ absurd hge (Nat.not_le_of_lt hlt)

/-! ## Opening the file -/

/-- The search from an entry on finds the file of the members from there on. -/
theorem IsIndex.search_found (h : IsIndex start (pre ++ post) t) (hwell : ∀ f ∈ post, f.WellFormed) :
    t.found (t.search path Fnode.file post.length (pre.length + 1)) =
      fileAt path post (start + (pre.map Member.span).sum) := by
  induction post generalizing pre with
  | nil => rfl
  | cons f post ih =>
      have he := h.entry pre f post rfl
      have hname : f.path.length ≠ 0 := by
        have := (hwell f List.mem_cons_self).short.1
        omega
      have htype : (if f.IsDir then Fnode.directory else Fnode.file) = Fnode.file ↔ ¬ f.IsDir :=
        Member.entryType_eq_file
      rw [List.length_cons, Tarfs.search, he.name, he.typeflag, if_neg hname, fileAt]
      by_cases hq : f.path = path ∧ ¬ f.IsDir
      · rw [if_pos ⟨strcmp_eq_zero_iff.mpr hq.1, htype.mpr hq.2⟩, if_pos hq, Tarfs.found, he.start,
          he.size, Int.toNat_natCast]
      · rw [if_neg fun hc ↦ hq ⟨strcmp_eq_zero_iff.mp hc.1, htype.mp hc.2⟩, if_neg hq]
        rw [List.append_cons] at h
        have hrest := ih h fun x hx ↦ hwell x (List.mem_cons_of_mem f hx)
        rwa [List.length_append, List.map_append, List.sum_append, ← Nat.add_assoc] at hrest

theorem IsIndex.lookup_found (h : IsIndex start ms t) (hwell : ∀ f ∈ ms, f.WellFormed) :
    t.found (t.lookup path Fnode.file) = fileAt path ms start := by
  have hall : IsIndex start ([] ++ ms) t := h
  rw [Tarfs.lookup, h.count]
  exact hall.search_found hwell

/-- What the entry of a file says. -/
theorem Archive.first_entry (h : Archive s start ms) (ht : IsIndex start ms t)
    (hi : t.First path Fnode.file i) : i < 512 ∧ kernBase ≤ (t.root i).start ∧
      ∃ size : Nat, (t.root i).size = size ∧ size < 2 ^ 31 := by
  have hcount := ht.count
  have hlt := hi.lt
  have hroom := h.room
  obtain ⟨k, rfl⟩ := Nat.exists_eq_add_of_le' hi.pos
  have hk : k < ms.length := by omega
  have he := ht.entry_get hk
  have hsize := (h.members _ (List.getElem_mem hk)).size
  refine ⟨by omega, ?_, ms[k].size, he.size, by omega⟩
  rw [he.start]
  exact Nat.le_add_right_of_le h.kernel

/-- One of the 27 descriptors is left. -/
theorem exists_descriptor (h : handed.length < 27) : ∃ e, 3 ≤ e ∧ e < Pcb.maxFd ∧ e ∉ handed := by
  by_contra hall
  have hsub : List.range' 3 27 ⊆ handed := by
    intro e he
    rw [List.mem_range'_1] at he
    by_contra hout
    exact hall ⟨e, he.1, he.2, hout⟩
  have hle := (List.subperm_of_subset List.nodup_range' hsub).length_le
  rw [List.length_range'] at hle
  omega

theorem openSyscall_found (hnamed : t.Named) (hle : t.tIndex ≤ 512)
    (hpcb : FdState.Consistent ⟨pcb, handed⟩) (hroom : handed.length < 27)
    (hlookup : t.lookup path Fnode.file = (i, true)) : ∃ fd : Nat,
      openSyscall t pcb path 0 = some ⟨fd, [], Pcb.setFd pcb fd i⟩ ∧ 3 ≤ fd ∧
        FdState.Consistent ⟨Pcb.setFd pcb fd i, fd :: handed⟩ := by
  have hleft : FdState.Allowed ⟨pcb, handed⟩ (.openFile path) := exists_descriptor hroom
  obtain ⟨fd, hscan, hlow, hlt, -⟩ := hpcb.scan hleft
  have hopen : openSyscall t pcb path 0 = some ⟨fd, [], Pcb.setFd pcb fd i⟩ := by
    rw [openSyscall, if_pos rfl, hlookup]
    dsimp only at hscan ⊢
    rw [hscan, if_neg (Nat.not_le_of_lt hlt)]
  refine ⟨fd, hopen, hlow, ?_⟩
  have hnext := (hpcb.openFile hnamed hle hleft).1
  have hret : ((fd : Nat) : Int) ≠ -1 := by omega
  rw [FdState.step, hopen] at hnext
  dsimp only at hnext
  rwa [if_neg hret, Int.toNat_natCast] at hnext

/-! ## One argument -/

/-- What `cat` stores to, with `n` bytes of a file in `buf` and a NUL behind them. -/
def CatData.Stores (d : CatData) (n x : Nat) : Prop :=
  x = d.p ∨ (d.temp ≤ x ∧ x < d.temp + 100) ∨ (d.buf ≤ x ∧ x ≤ d.buf + n)

/-- `p` is not in the bytes that come to `buf`, nothing is stored to its second byte, and all is in the
user's half. -/
structure CatData.Apart (d : CatData) (n : Nat) : Prop where
  room : 1000 ≤ n
  out : d.p < d.buf ∨ d.buf + n < d.p
  next : ¬ d.Stores n (d.p + 1)
  user : ∀ x, d.Stores n x → x < kernBase

/-- The argument `i` is a path, and nothing is stored to it. -/
structure CatData.ArgAt (d : CatData) (n : Nat) (m : Memory) (argv i : Nat) (path : CString) : Prop where
  string : StringIn m (m.load64 (argv + 8 * i)) path
  short : path.length ≤ 99
  slot : ∀ x, argv + 8 * i ≤ x → x < argv + 8 * i + 8 → ¬ d.Stores n x
  apart : ∀ x, m.load64 (argv + 8 * i) ≤ x → x ≤ m.load64 (argv + 8 * i) + path.length →
    ¬ d.Stores n x

/-- The state behind some of the arguments, in a process that began with the memory `m`. -/
structure CatRun (d : CatData) (n : Nat) (m : Memory) (st : CatState) (handed : List Nat) : Prop where
  kept : ∀ x, ¬ d.Stores n x → st.mem x = m x
  fds : FdState.Consistent ⟨st.pcb, handed⟩

/-- The name of the file comes to `temp`. -/
theorem CatData.ArgAt.strcpy (h : d.ArgAt n m argv i path)
    (hkept : ∀ x, ¬ d.Stores n x → m' x = m x) : ∃ mem,
      Sbunix.strcpy m' (m'.load64 (argv + 8 * i)) d.temp = some mem ∧
        mem.cstring (2 ^ 31) d.temp = some path ∧ ∀ x, ¬ d.Stores n x → mem x = m x := by
  have hshort := h.short
  have hslot : m'.load64 (argv + 8 * i) = m.load64 (argv + 8 * i) :=
    Memory.load64_congr fun x hx hx' ↦ hkept x (h.slot x hx hx')
  have hstring : StringIn m' (m.load64 (argv + 8 * i)) path :=
    h.string.congr fun x hx hx' ↦ hkept x (h.apart x hx hx')
  have hout : d.temp ≤ m.load64 (argv + 8 * i) ∨ m.load64 (argv + 8 * i) + path.length < d.temp := by
    by_contra hmeet
    exact h.apart d.temp (by omega) (by omega) (.inr (.inl ⟨Nat.le_refl _, by omega⟩))
  rw [hslot]
  refine ⟨_, strcpy_eq hstring hout (Nat.lt_of_le_of_lt hshort (by decide)), ?_, fun x hx ↦ ?_⟩
  · rw [(stringIn_putBytes h.string.zero_notMem).cstring, if_pos]
    exact Nat.lt_of_le_of_lt hshort (by decide)
  · rw [← hkept x hx]
    apply Memory.putBytes_apply_of_lt
    rw [List.length_append, List.length_singleton]
    by_contra hmeet
    exact hx (.inr (.inl ⟨by omega, by omega⟩))

/-- The file comes to `buf`, and from there to the console. -/
theorem CatData.Apart.show (hd : d.Apart n) (hnul : m (d.p + 1) = 0) (ha : kernBase ≤ a)
    (hsize : size ≤ n) (hlt : size < 2 ^ 31) (hplain : chr '%' ∉ fileShown m a size)
    (hkept : ∀ x, ¬ d.Stores n x → m' x = m x) : ∃ mem,
      putS va d.p (applyLog m' (memcpyAccesses m' d.buf a (max size 1000) ++
        [.store (d.buf + max size 1000) 0])) d.buf = some ((fileShown m a size).map charOp, mem) ∧
        ∀ x, ¬ d.Stores n x → mem x = m x := by
  have hroom := hd.room
  have hout := hd.out
  have hbuf := hd.user (d.buf + max size 1000) (.inr (.inr ⟨by omega, by omega⟩))
  obtain ⟨l, hl, hl1, hln⟩ : ∃ l, max size 1000 = l ∧ 1 ≤ l ∧ l ≤ n :=
    ⟨_, rfl, by omega, by omega⟩
  rw [fileShown, hl] at hplain ⊢
  rw [hl] at hbuf
  rw [applyLog_append, applyLog_memcpyAccesses]
  set mem := applyLog (m'.copy d.buf a l) [.store (d.buf + l) 0] with hmem
  have happly (x : Nat) : mem x =
      if x = d.buf + l then 0 else if d.buf ≤ x ∧ x < d.buf + l then m' (a + (x - d.buf)) else m' x := by
    show Function.update (m'.copy d.buf a l) (d.buf + l) 0 x = _
    rw [Function.update_apply, Memory.copy_apply (by omega)]
  -- the archive is in the kernel's half
  have hbyte (j : Nat) (hj : j < l) : mem (d.buf + j) = m (a + j) := by
    rw [happly, if_neg (by omega), if_pos (by omega), Nat.add_sub_cancel_left]
    exact hkept _ fun hs ↦ absurd (hd.user _ hs) (by omega)
  have hrest (x : Nat) (hx : ¬ d.Stores n x) : mem x = m x := by
    have hx' : ¬ (d.buf ≤ x ∧ x ≤ d.buf + l) := fun hc ↦ hx (.inr (.inr ⟨hc.1, by omega⟩))
    rw [happly, if_neg (by omega), if_neg (by omega), hkept x hx]
  have hdata : fileData m a l = m a :: fileData m (a + 1) (l - 1) := fileData_append hl1
  have hlen : ((fileData m (a + 1) (l - 1)).takeWhile (· ≠ 0)).length ≤ l - 1 :=
    (List.takeWhile_sublist _).length_le.trans length_fileData.le
  have hstring : StringIn mem (d.buf + 1) ((fileData m (a + 1) (l - 1)).takeWhile (· ≠ 0)) := by
    apply stringIn_takeWhile
    · intro j hj
      rw [length_fileData] at hj
      rw [getD_fileData hj, Nat.add_assoc, Nat.add_assoc]
      exact hbyte (1 + j) (by omega)
    · rw [length_fileData, happly, if_pos (by omega)]
  rw [hdata, shown_cons] at hplain ⊢
  have hhead : mem d.buf = m a := hbyte 0 hl1
  have hplain' : chr '%' ∉ mem d.buf :: (fileData m (a + 1) (l - 1)).takeWhile (· ≠ 0) := by
    rw [hhead]
    intro hc
    apply hplain
    rcases List.mem_cons.mp hc with hc | hc
    · rw [← hc]
      exact List.mem_append_left _ (by decide)
    · exact List.mem_append_right _ hc
  obtain ⟨b, hb⟩ := putS_eq hstring ((hrest _ hd.next).trans hnul) (by omega) hplain'
    (by omega)
  refine ⟨_, hhead ▸ hb, fun x hx ↦ ?_⟩
  rw [Function.update_of_ne fun he ↦ hx (.inl he), hrest x hx]

variable (va scanfstdin) in
/-- An argument leaves one descriptor more, and what it names on the console. -/
theorem CatRun.cat (h : CatRun d n m st handed) (hd : d.Apart n) (hnul : m (d.p + 1) = 0)
    (harchive : Archive s start ms) (ht : IsIndex start ms t) (harg : d.ArgAt n m argv i path)
    (hroom : handed.length < 27) (hfile : ∀ a size, fileAt path ms start = some (a, size) →
      size ≤ n ∧ chr '%' ∉ fileShown m a size) : ∃ st' handed',
      Sbunix.cat d va scanfstdin t (st.mem.load64 (argv + 8 * i)) st = some st' ∧
        CatRun d n m st' handed' ∧ handed'.length ≤ handed.length + 1 ∧
        st'.ops = st.ops ++ catOps m start ms path := by
  obtain ⟨mem, hcopy, hpath, hkept⟩ := harg.strcpy h.kept
  have hnamed := ht.named harchive.members
  have hcount : t.tIndex ≤ 512 := by
    have := ht.count
    have := harchive.room
    omega
  have hfound : t.found (t.lookup path Fnode.file) = fileAt path ms start :=
    ht.lookup_found harchive.members
  rcases hnamed.lookup_eq path Fnode.file with ⟨e, hlookup, hfirst⟩ | ⟨hlookup, -⟩
  · obtain ⟨he, hstart, size, hsize, hlt⟩ := harchive.first_entry ht hfirst
    rw [hlookup, Tarfs.found, hsize, Int.toNat_natCast] at hfound
    obtain ⟨hn, hplain⟩ := hfile _ _ hfound.symm
    obtain ⟨fd, hopen, hfd, hfds⟩ := openSyscall_found hnamed hcount h.fds hroom hlookup
    have hslot : Pcb.fdAt (Pcb.setFd st.pcb fd e) fd = e := fdAt_setFd (by omega)
    have hread : readSyscall scanfstdin t (Pcb.setFd st.pcb fd e) mem fd d.buf 1000 =
        some ⟨max size 1000 + 1, memcpyAccesses mem d.buf ((t.root e).start + 512) (max size 1000) ++
          [.store (d.buf + max size 1000) 0]⟩ := by
      have hlong : ¬ 2 ^ 31 ≤ max size 1000 := by omega
      have hused : (t.root e).start ≠ 0 := Nat.ne_of_gt (Nat.lt_of_lt_of_le (by decide) hstart)
      exact (readSyscall_file hfd hslot he hused hsize (by decide) (by decide) hlt).trans
        (if_neg hlong)
    obtain ⟨mem', hshow, hkept'⟩ := hd.show hnul (by omega) hn hlt hplain hkept
    refine ⟨⟨st.ops ++ [] ++ (fileShown m ((t.root e).start + 512) size).map charOp,
      Pcb.setFd st.pcb fd e, mem'⟩, fd :: handed, ?_, ⟨hkept', hfds⟩, Nat.le_refl _, ?_⟩
    · have hret : ((fd : Nat) : Int) ≠ -1 := by omega
      rw [Sbunix.cat, hcopy, Option.bind_some, hpath, Option.bind_some, hopen, Option.bind_some,
        if_pos hret, hread, Option.bind_some, hshow]
      rfl
    · rw [catOps, ← hfound, List.append_nil]
  · rw [hlookup, Tarfs.found] at hfound
    have hopen : openSyscall t st.pcb path 0 =
        some ⟨-1, kprintf (cstr "No such file exists.") [], st.pcb⟩ := by
      rw [openSyscall, if_pos rfl, hlookup]
      dsimp only
      rw [if_pos rfl]
    refine ⟨⟨st.ops ++ catOps m start ms path, st.pcb, mem⟩, handed, ?_, ⟨hkept, h.fds⟩,
      Nat.le_succ _, rfl⟩
    rw [Sbunix.cat, hcopy, Option.bind_some, hpath, Option.bind_some, hopen, Option.bind_some,
      if_neg (not_not.mpr rfl), catOps, ← hfound]

/-! ## All arguments -/

variable (va scanfstdin) in
theorem CatRun.catLoop (h : CatRun d n m st handed) (hd : d.Apart n) (hnul : m (d.p + 1) = 0)
    (harchive : Archive s start ms) (ht : IsIndex start ms t)
    (hargs : ∀ j path, paths[j]? = some path → d.ArgAt n m argv (i + j) path)
    (hroom : handed.length + paths.length ≤ 27)
    (hfiles : ∀ path ∈ paths, ∀ a size, fileAt path ms start = some (a, size) →
      size ≤ n ∧ chr '%' ∉ fileShown m a size) : ∃ st',
      Sbunix.catLoop d va scanfstdin t argv paths.length i st = some st' ∧
        st'.ops = st.ops ++ paths.flatMap (catOps m start ms) := by
  induction paths generalizing i st handed with
  | nil => exact ⟨st, rfl, (List.append_nil _).symm⟩
  | cons path paths ih =>
      rw [List.length_cons] at hroom
      obtain ⟨st₁, handed₁, hcat, hrun, hlen, hops⟩ := h.cat va scanfstdin hd hnul harchive ht
        (hargs 0 path rfl) (by omega) (hfiles path List.mem_cons_self)
      obtain ⟨st₂, hloop, hops₂⟩ := ih (i := i + 1) hrun
        (fun j path hj ↦ by
          have harg := hargs (j + 1) path hj
          rwa [Nat.add_comm j 1, ← Nat.add_assoc] at harg)
        (by omega) (fun path hp ↦ hfiles path (List.mem_cons_of_mem _ hp))
      refine ⟨st₂, ?_, ?_⟩
      · rw [Nat.add_zero] at hcat
        rw [List.length_cons, Sbunix.catLoop, hcat, Option.bind_some, hloop]
      · rw [hops₂, hops, List.flatMap_cons, List.append_assoc]

theorem charOp_injective : Function.Injective charOp := by
  intro b c h
  unfold charOp at h
  split at h
  · split at h
    · simp_all
    · split at h
      · cases h
      · cases h
  · split at h
    · split at h
      · cases h
      · split at h
        · simp_all
        · cases h
    · split at h
      · cases h
      · split at h
        · cases h
        · exact ConsoleOp.write.inj h

/-- `cat` prints one after the other what its arguments name.  That is a file as it is just when the
file has no NUL and fills `buf`, or a NUL comes behind it, and behind an empty file two. -/
theorem cat_prints (h : Archive s start ms) (hfuel : ms.length + 107 < fuel)
    (ht : s.initTarfs fuel start Tarfs.init = some t) (hd : d.Apart n) (hnul : m (d.p + 1) = 0)
    (hpcb : FdState.Consistent ⟨pcb, handed⟩) (hroom : handed.length + paths.length ≤ 27)
    (hne : paths ≠ []) (hargs : ∀ j path, paths[j]? = some path → d.ArgAt n m argv (1 + j) path)
    (hfiles : ∀ path ∈ paths, ∀ a size, fileAt path ms start = some (a, size) →
      size ≤ n ∧ chr '%' ∉ fileShown m a size) :
    (∃ st, catMain d va scanfstdin t (paths.length + 1) argv ⟨[], pcb, m⟩ = some st ∧
      st.ops = paths.flatMap (catOps m start ms)) ∧
    ∀ path ∈ paths, ∀ a size, fileAt path ms start = some (a, size) →
      (catOps m start ms path = (fileData m a size).map charOp ↔ 0 ∉ fileData m a size ∧
        (size < 1000 → m (a + size) = 0 ∧ (size = 0 → m (a + 1) = 0))) := by
  obtain ⟨t', ht', hindex⟩ := h.index hfuel
  obtain rfl := Option.some.inj (ht.symm.trans ht')
  have hstart : CatRun d n m ⟨[], pcb, m⟩ handed := ⟨fun _ _ ↦ rfl, hpcb⟩
  constructor
  · obtain ⟨st, hloop, hops⟩ := hstart.catLoop va scanfstdin hd hnul h hindex hargs hroom hfiles
    refine ⟨st, ?_, hops⟩
    have hargc : paths.length + 1 ≠ 1 := by
      rw [Ne, Nat.add_eq_right, List.length_eq_zero_iff]
      exact hne
    rw [catMain, if_neg hargc, Option.bind_some, Nat.add_sub_cancel]
    exact hloop
  · intro path _ a size hfile
    rw [catOps, hfile, (List.map_injective_iff.mpr charOp_injective).eq_iff]
    exact fileShown_iff

/-! ## A file of five bytes -/

def catData : CatData := ⟨0x3000, 0x5000, 0x4000, 0x6000⟩

/-- A path behind an `argv` at 0x1000, and the data of `bin/ls`. -/
def catSpace : Memory :=
  (Memory.putBytes (Memory.putBytes (fun _ ↦ 0) 0x1009 [0x20]) 0x2000 (cstr "bin/ls")).putBytes
    (archiveStart + 1024) (cstr "hello")

theorem putBytes_ne (hm : ∀ x, m x ≠ c) (hl : c ∉ l) (x : Nat) : m.putBytes a l x ≠ c := by
  unfold Memory.putBytes
  split
  · rename_i hx
    rw [List.getD_eq_getElem _ _ (by omega)]
    exact fun he ↦ hl (he ▸ List.getElem_mem _)
  · exact hm x

theorem catSpace_plain : chr '%' ∉ fileShown catSpace a size := by
  intro h
  obtain ⟨j, -, hj⟩ := List.mem_map.mp (mem_of_mem_shown h)
  have hzero (x : Nat) : (fun _ ↦ 0 : Memory) x ≠ chr '%' := show (0 : UInt8) ≠ chr '%' by decide
  exact putBytes_ne (putBytes_ne (putBytes_ne hzero (by decide)) (by decide)) (by decide) _ hj

theorem catSpace_argAt : catData.ArgAt 1000 catSpace 0x1000 1 (cstr "bin/ls") := by
  have hslot : catSpace.load64 (0x1000 + 8 * 1) = 0x2000 := by decide
  have hlen : (cstr "bin/ls").length = 6 := rfl
  constructor
  · rw [hslot]
    exact stringIn_of_bytes (by decide) (by decide) (by decide)
  · decide
  · intro x hx hx'
    simp only [CatData.Stores, catData]
    omega
  · intro x hx hx'
    rw [hslot] at hx hx'
    simp only [CatData.Stores, catData]
    omega

theorem catData_apart : catData.Apart 1000 := by
  have hkern : 0x6000 < kernBase := by decide
  constructor
  · decide
  · decide
  · simp only [CatData.Stores, catData]
    omega
  · intro x hx
    simp only [CatData.Stores, catData] at hx
    omega

theorem cat_prints_hello : ∃ t st,
    (archiveMachine binMembers).initTarfs 120 archiveStart Tarfs.init = some t ∧
      catMain catData (fun _ ↦ 0) (fun _ _ ↦ none) t 2 0x1000 ⟨[], fun _ ↦ 0, catSpace⟩ = some st ∧
      st.ops = (cstr "hello").map charOp := by
  obtain ⟨t, ht, -⟩ := binMembers_archive.index (show _ < 120 by decide)
  have hfile : fileAt (cstr "bin/ls") binMembers archiveStart = some (archiveStart + 1024, 5) := by
    decide
  have hpcb : FdState.Consistent ⟨fun _ ↦ 0, []⟩ :=
    FdState.Consistent.init fun d _ _ ↦ Memory.load64_zero fun _ _ _ ↦ rfl
  have hargs : ∀ j path, [cstr "bin/ls"][j]? = some path →
      catData.ArgAt 1000 catSpace 0x1000 (1 + j) path := by
    intro j path hj
    cases j with
    | zero => exact Option.some.inj hj ▸ catSpace_argAt
    | succ j => cases hj
  have hfiles : ∀ path ∈ [cstr "bin/ls"], ∀ a size,
      fileAt path binMembers archiveStart = some (a, size) →
        size ≤ 1000 ∧ chr '%' ∉ fileShown catSpace a size := by
    intro path hp a size ha
    rw [List.mem_singleton.mp hp, hfile] at ha
    exact ⟨(Prod.mk.inj (Option.some.inj ha)).2 ▸ by decide, catSpace_plain⟩
  obtain ⟨⟨st, hst, hops⟩, htext⟩ := cat_prints binMembers_archive (by decide) ht catData_apart
    (by decide) hpcb (by decide) (List.cons_ne_nil _ _) hargs hfiles
  refine ⟨t, st, ht, hst, ?_⟩
  rw [hops, List.flatMap_singleton, (htext _ List.mem_cons_self _ _ hfile).mpr]
  · rfl
  · exact ⟨by decide, fun _ ↦ ⟨by decide, by decide⟩⟩

end Sbunix
