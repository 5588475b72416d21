import Sbunix.Reasoning.AccessLog
import Sbunix.Sys.Files
import Sbunix.Sys.TarIndex

/-!
# Reading files (`sys/syscall.c`)

`readSyscall` copies from the archive to the caller's buffer.  The length that the caller asked for is
replaced by the size of the file where that is larger, not where it is smaller, and a NUL goes behind
what was copied.
-/

namespace Sbunix

open Reasoning Machine

/-- The accesses of the loop of `memcpy` for the `n` bytes that are left, with `m` the memory before
it; `Machine.memcpy` is the same loop through the page tables. -/
def memcpyAccesses (m : Memory) (dest src : Nat) : Nat → List (Access Nat UInt8)
  | 0 => []
  | n + 1 => .load src :: .store dest (m src) ::
      memcpyAccesses (Function.update m dest (m src)) (dest + 1) (src + 1) n

/-- What a call returns, and what it loads and stores. -/
structure ReadReply where
  ret : Nat
  log : List (Access Nat UInt8)

/-- `current->fd[fd]`; a load before the PCB is no state of the model. -/
def fdSlot (pcb : Memory) (fd : Int) : Option Nat :=
  if (Pcb.fdOffset : Int) + 8 * fd < 0 then none
  else some (pcb.load64 (Pcb.fdOffset + 8 * fd).toNat)

/-- `readSyscall(fd, address, length)` in the address space `m`.  What `scanfstdin` does is a parameter:
it waits for a line. -/
def readSyscall (scanfstdin : Nat → Int → Option ReadReply) (t : Tarfs) (pcb m : Memory) (fd : Int)
    (address : Nat) (length : Int) : Option ReadReply :=
  if fd = 0 then scanfstdin address length
  else (fdSlot pcb fd).bind fun i ↦
    if 512 ≤ i then none
    else
      let temp := t.root i
      if temp.start = 0 then some ⟨0, []⟩
      else
        -- the longer of the two
        let length := if temp.size > length then temp.size else length
        -- the counter of `memcpy` is an `int`, which must not overflow
        if 2 ^ 31 ≤ ulong length then none
        else some ⟨ulong (length + 1), memcpyAccesses m address (temp.start + 512) (ulong length) ++
          [.store (address + ulong length) 0]⟩

variable {m : Memory} {dest src n i j : Nat} {p : Nat × UInt8}

/-! ## What is copied -/

theorem applyLog_memcpyAccesses : applyLog m (memcpyAccesses m dest src n) = m.copy dest src n := by
  induction n generalizing m dest src with
  | zero => rfl
  | succ n ih => exact ih

/-- Byte `j` is loaded behind the stores of those before it. -/
theorem stores_memcpyAccesses : stores (memcpyAccesses m dest src n) =
    (List.range n).map fun j ↦ (dest + j, m.copy dest src j (src + j)) := by
  induction n generalizing m dest src with
  | zero => rfl
  | succ n ih =>
      rw [memcpyAccesses, stores_load, stores_store, ih, List.range_succ_eq_map, List.map_cons,
        List.map_map]
      congr 1
      refine List.map_congr_left fun j _ ↦ ?_
      rw [Function.comp_apply, Nat.add_assoc, Nat.add_assoc, Nat.add_comm 1 j]
      rfl

theorem mem_stores_memcpyAccesses : p ∈ stores (memcpyAccesses m dest src n) ↔
    ∃ j < n, p = (dest + j, m.copy dest src j (src + j)) := by
  rw [stores_memcpyAccesses, List.mem_map]
  refine exists_congr fun j ↦ ?_
  rw [List.mem_range, eq_comm]

theorem copy_succ : m.copy dest src (n + 1) =
    Function.update (m.copy dest src n) (dest + n) (m.copy dest src n (src + n)) := by
  induction n generalizing m dest src with
  | zero => rfl
  | succ n ih =>
      rw [Memory.copy, ih, Nat.add_assoc, Nat.add_assoc, Nat.add_comm 1 n]
      rfl

/-- A byte keeps its value until it is stored to. -/
theorem copy_of_not_stored {x : Nat} (h : ∀ i < n, dest + i ≠ x) : m.copy dest src n x = m x := by
  rw [← applyLog_memcpyAccesses]
  refine applyLog_of_not_stored fun p hp ↦ ?_
  obtain ⟨i, hi, rfl⟩ := mem_stores_memcpyAccesses.mp hp
  exact h i hi

/-- A byte has the value of its store behind it. -/
theorem copy_of_stored (h : i < n) :
    m.copy dest src n (dest + i) = m.copy dest src i (src + i) := by
  induction n with
  | zero => exact absurd h (Nat.not_lt_zero i)
  | succ n ih =>
      rw [copy_succ]
      rcases Nat.eq_or_lt_of_le (Nat.le_of_lt_succ h) with rfl | hlt
      · rw [Function.update_self]
      · rw [Function.update_of_ne (by omega), ih hlt]

/-- A byte of the source that is stored to before it is loaded has the value that is stored. -/
def Undisturbed (m : Memory) (dest src n : Nat) : Prop :=
  ∀ i j, i < j → j < n → dest + i = src + j → m (src + j) = m (src + i)

/-- The bytes that arrive are those that were there before the copy. -/
theorem undisturbed_iff : Undisturbed m dest src n ↔
    ∀ j < n, m.copy dest src j (src + j) = m (src + j) := by
  constructor
  · intro h j
    -- on the byte: one that is stored to before has the value of a byte that came first
    induction j using Nat.strong_induction_on with
    | _ j ih =>
        intro hj
        by_cases hstored : ∃ i < j, dest + i = src + j
        · obtain ⟨i, hi, heq⟩ := hstored
          rw [← heq, copy_of_stored hi, ih i hi (Nat.lt_trans hi hj), heq, h i j hi hj heq]
        · exact copy_of_not_stored fun i hi heq ↦ hstored ⟨i, hi, heq⟩
  · intro h i j hij hj heq
    rw [← h j hj, ← h i (Nat.lt_trans hij hj), ← heq, copy_of_stored hij]

/-- A buffer below the data of the file does not run into it. -/
theorem undisturbed_of_apart (h : dest + n ≤ src) : Undisturbed m dest src n := by
  intro i j hij hj heq
  omega

/-! ## What a call writes -/

/-- The bytes `l` are stored from `a` on, and nothing else but a NUL behind them. -/
structure WritesExactly (log : List (Access Nat UInt8)) (a : Nat) (l : List UInt8) : Prop where
  bytes : ∀ i b, l[i]? = some b → (a + i, b) ∈ stores log
  only : ∀ p ∈ stores log, (∃ i, l[i]? = some p.2 ∧ p.1 = a + i) ∨ p = (a + l.length, 0)

/-- Where the data of the member behind `pre` begins. -/
def dataAddress (start : Nat) (pre : List Member) : Nat := start + (pre.map Member.span).sum + 512

/-- The data of a file, in the memory that the call meets. -/
def fileData (m : Memory) (a size : Nat) : List UInt8 := (List.range size).map fun i ↦ m (a + i)

/-- The call stores the bytes of the file that were asked for. -/
def ReadsFile (scanfstdin : Nat → Int → Option ReadReply) (t : Tarfs) (pcb m : Memory) (fd : Int)
    (address : Nat) (length : Int) (data : List UInt8) : Prop :=
  ∃ r, readSyscall scanfstdin t pcb m fd address length = some r ∧
    WritesExactly r.log address (data.take length.toNat)

variable {s : Machine} {t : Tarfs} {pcb : Memory} {scanfstdin : Nat → Int → Option ReadReply}
  {start fuel address size fd : Nat} {length : Int} {ms pre post : List Member} {f : Member}

theorem length_fileData : (fileData m i n).length = n := by
  rw [fileData, List.length_map, List.length_range]

theorem getElem?_fileData {a : Nat} {b : UInt8} :
    (fileData m a n)[i]? = some b ↔ i < n ∧ m (a + i) = b := by
  rw [fileData, List.getElem?_map, Option.map_eq_some_iff]
  constructor
  · rintro ⟨j, hj, hb⟩
    obtain ⟨hlt, rfl⟩ := List.getElem?_eq_some_iff.mp hj
    rw [List.getElem_range] at hb
    exact ⟨by rwa [List.length_range] at hlt, hb⟩
  · rintro ⟨hi, hb⟩
    exact ⟨i, List.getElem?_range hi, hb⟩

theorem readSyscall_file {e : Nat} (hfd : 3 ≤ fd) (hslot : Pcb.fdAt pcb fd = e) (he : e < 512)
    (hstart : (t.root e).start ≠ 0) (hsize : (t.root e).size = size) (hlow : 0 ≤ length)
    (hhigh : length < 2 ^ 63) (hlt : size < 2 ^ 31) :
    readSyscall scanfstdin t pcb m fd address length =
      if 2 ^ 31 ≤ max size length.toNat then none
      else some ⟨max size length.toNat + 1,
        memcpyAccesses m address ((t.root e).start + 512) (max size length.toNat) ++
          [.store (address + max size length.toNat) 0]⟩ := by
  obtain ⟨n, rfl⟩ := Int.eq_ofNat_of_zero_le hlow
  have hfdslot : fdSlot pcb fd = some e := by
    have hoff : ((Pcb.fdOffset : Int) + 8 * (fd : Int)).toNat = Pcb.fdOffset + 8 * fd := by omega
    rw [fdSlot, if_neg (by omega), hoff]
    exact congrArg some hslot
  -- the larger of the two lengths is taken
  have hmax : (if ((size : Nat) : Int) > (n : Nat) then ((size : Nat) : Int) else (n : Nat)) =
      ((max size n : Nat) : Int) := by
    split
    · rw [Nat.max_eq_left (by omega)]
    · rw [Nat.max_eq_right (by omega)]
  have hulong : ulong ((max size n : Nat) : Int) = max size n := by
    unfold ulong
    omega
  have hret : ulong (((max size n : Nat) : Int) + 1) = max size n + 1 := by
    unfold ulong
    omega
  rw [readSyscall, if_neg (by omega), hfdslot, Option.bind_some, if_neg (Nat.not_le_of_lt he)]
  dsimp only
  rw [if_neg hstart, hsize, hmax, hulong, hret, Int.toNat_natCast]

theorem mem_stores_read {a d : Nat} : p ∈ stores (memcpyAccesses m a d n ++ [.store (a + n) 0]) ↔
    (∃ j < n, p = (a + j, m.copy a d j (d + j))) ∨ p = (a + n, 0) := by
  rw [stores_append, List.mem_append, mem_stores_memcpyAccesses, stores_store]
  exact or_congr_right List.mem_singleton

/-- The NUL goes to where the copy ends, which is too far unless the two lengths are equal. -/
theorem writesExactly_read_iff {a d : Nat} :
    WritesExactly (memcpyAccesses m a d (max size n) ++ [.store (a + max size n) 0]) a
        ((fileData m d size).take n) ↔
      n = size ∧ Undisturbed m a d size := by
  have htake : ((fileData m d size).take n).length = min n size := by
    rw [List.length_take, length_fileData]
  constructor
  · intro h
    have heq : n = size := by
      rcases h.only _ (mem_stores_read.mpr (.inr rfl)) with ⟨i, hi, hai⟩ | hnul
      · have hlt := (List.getElem?_eq_some_iff.mp hi).1
        dsimp only at hai
        omega
      · have hend : a + max size n = a + min n size := by
          rw [← htake]
          exact congrArg Prod.fst hnul
        omega
    subst heq
    refine ⟨rfl, undisturbed_iff.mpr fun j hj ↦ ?_⟩
    rw [Nat.max_self, List.take_of_length_le length_fileData.le] at h
    rcases h.only _ (mem_stores_read.mpr (.inl ⟨j, hj, rfl⟩)) with ⟨i, hi, hai⟩ | hnul
    · obtain rfl : j = i := Nat.add_left_cancel hai
      exact (getElem?_fileData.mp hi).2.symm
    · -- the NUL is not among the bytes that are copied
      rw [length_fileData] at hnul
      exact absurd (Nat.add_left_cancel (congrArg Prod.fst hnul)) (Nat.ne_of_lt hj)
  · rintro ⟨rfl, hund⟩
    rw [Nat.max_self, List.take_of_length_le length_fileData.le]
    rw [undisturbed_iff] at hund
    refine ⟨fun i b hi ↦ ?_, fun p hp ↦ ?_⟩
    · obtain ⟨hlt, rfl⟩ := getElem?_fileData.mp hi
      exact mem_stores_read.mpr (.inl ⟨i, hlt, by rw [hund i hlt]⟩)
    · rcases mem_stores_read.mp hp with ⟨j, hj, rfl⟩ | rfl
      · exact .inl ⟨j, getElem?_fileData.mpr ⟨hj, (hund j hj).symm⟩, rfl⟩
      · exact .inr (by rw [length_fileData])

theorem readsFile_entry {e : Nat} (hfd : 3 ≤ fd) (hslot : Pcb.fdAt pcb fd = e) (he : e < 512)
    (hstart : (t.root e).start ≠ 0) (hsize : (t.root e).size = size) (hlow : 0 ≤ length)
    (hhigh : length < 2 ^ 63) (hlt : size < 2 ^ 31) :
    ReadsFile scanfstdin t pcb m fd address length (fileData m ((t.root e).start + 512) size) ↔
      length = size ∧ Undisturbed m address ((t.root e).start + 512) size := by
  have hlength : length = size ↔ length.toNat = size := by omega
  rw [ReadsFile, readSyscall_file hfd hslot he hstart hsize hlow hhigh hlt, hlength]
  by_cases hbig : 2 ^ 31 ≤ max size length.toNat
  · -- the counter of the copy overflows
    rw [if_pos hbig]
    refine iff_of_false ?_ (by omega)
    rintro ⟨r, hr, -⟩
    cases hr
  · rw [if_neg hbig, ← writesExactly_read_iff]
    constructor
    · rintro ⟨r, hr, hw⟩
      obtain rfl := Option.some.inj hr
      exact hw
    · exact fun hw ↦ ⟨_, rfl, hw⟩

theorem Archive.entry (h : Archive s start ms) (hfuel : ms.length + 107 < fuel)
    (ht : s.initTarfs fuel start Tarfs.init = some t) (hsplit : ms = pre ++ f :: post) :
    pre.length + 1 < 512 ∧ (t.root (pre.length + 1)).start ≠ 0 ∧
      (t.root (pre.length + 1)).size = f.size ∧ f.size < 2 ^ 31 ∧
      (t.root (pre.length + 1)).start + 512 = dataAddress start pre := by
  obtain ⟨t', ht', hindex⟩ := h.index hfuel
  obtain rfl := Option.some.inj (ht.symm.trans ht')
  have hentry := hindex.entry pre f post hsplit
  have hmem : f ∈ ms := by
    rw [hsplit]
    exact List.mem_append_right _ List.mem_cons_self
  have hroom := h.room
  rw [hsplit, List.length_append, List.length_cons] at hroom
  have hkernel : 0 < start := Nat.lt_of_lt_of_le (by decide) h.kernel
  have hsize := (h.members f hmem).size
  refine ⟨by omega, ?_, hentry.size, by omega, ?_⟩
  · rw [hentry.start]
    omega
  · rw [hentry.start]
    rfl

/-- A call writes what was asked for exactly when that is the whole file, and the copy does not run
over bytes of the file that it has yet to read. -/
theorem readsFile_iff (h : Archive s start ms) (hfuel : ms.length + 107 < fuel)
    (ht : s.initTarfs fuel start Tarfs.init = some t) (hsplit : ms = pre ++ f :: post)
    (hfd : 3 ≤ fd) (hslot : Pcb.fdAt pcb fd = pre.length + 1)
    (hlow : 0 ≤ length) (hhigh : length < 2 ^ 63) :
    ReadsFile scanfstdin t pcb m fd address length (fileData m (dataAddress start pre) f.size) ↔
      length = f.size ∧ Undisturbed m address (dataAddress start pre) f.size := by
  obtain ⟨he, hstart, hsize, hlt, haddr⟩ := h.entry hfuel ht hsplit
  rw [← haddr]
  exact readsFile_entry hfd hslot he hstart hsize hlow hhigh hlt

/-- A PCB with the entry `i` behind descriptor 3. -/
def pcbWith (i : Nat) : Memory := Pcb.setFd (fun _ ↦ 0) 3 i

theorem fdAt_pcbWith (hi : i < 2 ^ 64) : Pcb.fdAt (pcbWith i) 3 = i :=
  Memory.load64_store64 hi

/-- An address space with an archive in it. -/
def archiveSpace (ms : List Member) : Memory := fun a ↦ (archiveBytes ms).getD (a - archiveStart) 0

def readme : Member := ⟨cstr "readme", 600, chr '0', []⟩

theorem binMembers_readme : binMembers = binMembers.take 2 ++ readme :: [] := rfl

theorem readsFile_readme : ∃ t,
    (archiveMachine binMembers).initTarfs 120 archiveStart Tarfs.init = some t ∧
      ReadsFile (fun _ _ ↦ none) t (pcbWith 3) (archiveSpace binMembers) 3 0x601000 600
        (fileData (archiveSpace binMembers) (dataAddress archiveStart (binMembers.take 2))
          readme.size) := by
  obtain ⟨t, ht, -⟩ := binMembers_archive.index (show _ < 120 by decide)
  exact ⟨t, ht, (readsFile_iff binMembers_archive (by decide) ht binMembers_readme (Nat.le_refl 3)
    (fdAt_pcbWith (by decide)) (by decide) (by decide)).mpr ⟨rfl, undisturbed_of_apart (by decide)⟩⟩

/-- A read of 10 bytes of a file of 600 stores 601 bytes. -/
theorem readsFile_overrun : ∃ t,
    (archiveMachine binMembers).initTarfs 120 archiveStart Tarfs.init = some t ∧
      ¬ ReadsFile (fun _ _ ↦ none) t (pcbWith 3) (archiveSpace binMembers) 3 0x601000 10
        (fileData (archiveSpace binMembers) (dataAddress archiveStart (binMembers.take 2))
          readme.size) := by
  obtain ⟨t, ht, -⟩ := binMembers_archive.index (show _ < 120 by decide)
  obtain ⟨he, hstart, hsize, hlt, haddr⟩ :=
    binMembers_archive.entry (by decide) ht binMembers_readme
  refine ⟨t, ht, fun hreads ↦ ?_⟩
  have hten := (readsFile_entry (e := 3) (Nat.le_refl 3) (fdAt_pcbWith (by decide)) he hstart hsize
    (by decide) (by decide) hlt).mp (haddr ▸ hreads)
  exact absurd hten.1 (by decide)

end Sbunix
