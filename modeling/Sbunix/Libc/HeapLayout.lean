import Sbunix.Libc.Heap
import Sbunix.Reasoning.Chain

/-!
# How the heap is laid out

From the base of the heap on lies a block, behind it its record, then the next block, and so on up
to `brk`.  The records are linked in this order.  A call changes the flag of one record and the bytes
of its block, or it adds a block and a record at the end.
-/

namespace Sbunix

open Reasoning

namespace Heap

variable {s : Heap} {mem mem' : Memory} {a b base hi p q last temp add size fuel v x : Nat}
  {ns l : List Nat}

/-- Ranges of `m` and `n` bytes without a common one. -/
def Apart (a m b n : Nat) : Prop := a + m ≤ b ∨ b + n ≤ a

/-- Blocks and their records from `a` up to `hi`, with the records at `ns`. -/
def Laid (mem : Memory) : Nat → List Nat → Nat → Prop
  | a, [], hi => a = hi
  | a, p :: ns, hi => addressAt mem p = a ∧ a + sizeAt mem p = p ∧ Laid mem (p + infoSize) ns hi

/-! ## Places -/

theorem Laid.le (h : Laid mem a ns hi) : a ≤ hi := by
  induction ns generalizing a with
  | nil => exact Nat.le_of_eq h
  | cons p ns ih =>
      obtain ⟨-, hp, h⟩ := h
      have := ih h
      omega

theorem Laid.place (h : Laid mem a ns hi) (hp : p ∈ ns) :
    a ≤ addressAt mem p ∧ addressAt mem p + sizeAt mem p = p ∧ p + infoSize ≤ hi := by
  induction ns generalizing a with
  | nil => cases hp
  | cons q ns ih =>
      obtain ⟨ha, hq, h⟩ := h
      rcases List.mem_cons.mp hp with rfl | hp'
      · exact ⟨Nat.le_of_eq ha.symm, by omega, h.le⟩
      · obtain ⟨hlow, hrest⟩ := ih h hp'
        exact ⟨by omega, hrest⟩

/-- One of two records lies before the other's block. -/
theorem Laid.order (h : Laid mem a ns hi) (hp : p ∈ ns) (hq : q ∈ ns) :
    p = q ∨ p + infoSize ≤ addressAt mem q ∨ q + infoSize ≤ addressAt mem p := by
  induction ns generalizing a with
  | nil => cases hp
  | cons x ns ih =>
      obtain ⟨-, -, h⟩ := h
      rcases List.mem_cons.mp hp with rfl | hp'
      · rcases List.mem_cons.mp hq with rfl | hq'
        · exact .inl rfl
        · exact .inr (.inl (h.place hq').1)
      · rcases List.mem_cons.mp hq with rfl | hq'
        · exact .inr (.inr (h.place hp').1)
        · exact ih h hp' hq'

theorem Laid.nodup (h : Laid mem a ns hi) : ns.Nodup := by
  induction ns generalizing a with
  | nil => exact List.nodup_nil
  | cons p ns ih =>
      obtain ⟨-, -, h⟩ := h
      -- a record lies behind its own block, which begins behind the records before it
      refine List.nodup_cons.mpr ⟨fun hp ↦ ?_, ih h⟩
      obtain ⟨hlow, hsize, -⟩ := h.place hp
      unfold infoSize at hlow
      omega

theorem Laid.address_inj (h : Laid mem a ns hi) (hp : p ∈ ns) (hq : q ∈ ns)
    (he : addressAt mem p = addressAt mem q) : p = q := by
  have hsp := (h.place hp).2.1
  have hsq := (h.place hq).2.1
  have horder := h.order hp hq
  unfold infoSize at horder
  omega

theorem Laid.congr (h : Laid mem a ns hi)
    (hsame : ∀ p ∈ ns, sizeAt mem' p = sizeAt mem p ∧ addressAt mem' p = addressAt mem p) :
    Laid mem' a ns hi := by
  induction ns generalizing a with
  | nil => exact h
  | cons p ns ih =>
      obtain ⟨ha, hp, h⟩ := h
      obtain ⟨hs, had⟩ := hsame p List.mem_cons_self
      exact ⟨had.trans ha, by rw [hs, hp], ih h fun q hq ↦ hsame q (List.mem_cons_of_mem p hq)⟩

/-- A block and its record are added at the end. -/
theorem Laid.concat (h : Laid mem a ns hi) (haddr : addressAt mem q = hi)
    (hsize : hi + sizeAt mem q = q) : Laid mem a (ns ++ [q]) (q + infoSize) := by
  induction ns generalizing a with
  | nil =>
      obtain rfl : a = hi := h
      exact ⟨haddr, hsize, rfl⟩
  | cons p ns ih => exact ⟨h.1, h.2.1, ih h.2.2⟩

/-! ## What a write keeps -/

/-- The fields of a record that no call changes but by adding a block. -/
def Keeps (mem mem' : Memory) (q : Nat) : Prop :=
  sizeAt mem' q = sizeAt mem q ∧ addressAt mem' q = addressAt mem q ∧ nextAt mem' q = nextAt mem q

theorem keeps_of_bytes
    (h : ∀ x, (q ≤ x ∧ x < q + 16) ∨ (q + 24 ≤ x ∧ x < q + 32) → mem' x = mem x) :
    Keeps mem mem' q :=
  ⟨Memory.load64_congr fun x hx hx' ↦ h x (by omega),
    Memory.load64_congr fun x hx hx' ↦ h x (by omega),
    Memory.load64_congr fun x hx hx' ↦ h x (by omega)⟩

theorem allocAt_congr (h : ∀ x, q + 16 ≤ x → x < q + 20 → mem' x = mem x) :
    allocAt mem' q = allocAt mem q := Memory.load32_congr h

/-- The bytes of the block of a record and of its flag. -/
def Touches (mem : Memory) (p x : Nat) : Prop :=
  (addressAt mem p ≤ x ∧ x < addressAt mem p + sizeAt mem p) ∨ (p + 16 ≤ x ∧ x < p + 20)

theorem touches_lt (h : x < addressAt mem p) (hsize : addressAt mem p + sizeAt mem p = p) :
    ¬ Touches mem p x := by
  rintro (⟨hlow, -⟩ | ⟨hlow, -⟩)
  · omega
  · omega

theorem touches_ge (h : p + 20 ≤ x) (hsize : addressAt mem p + sizeAt mem p = p) :
    ¬ Touches mem p x := by
  rintro (⟨-, hlt⟩ | ⟨-, hlt⟩)
  · omega
  · omega

/-- What changes only a block and the flag of its record changes no other record. -/
theorem Laid.keeps (h : Laid mem a ns hi) (hp : p ∈ ns)
    (hout : ∀ x, ¬ Touches mem p x → mem' x = mem x) (hq : q ∈ ns) :
    Keeps mem mem' q ∧ (q ≠ p → allocAt mem' q = allocAt mem q) := by
  have hsize := (h.place hp).2.1
  have hsize' := (h.place hq).2.1
  -- the record itself, one behind it, one before it
  rcases h.order hp hq with rfl | hlt | hlt
  · refine ⟨keeps_of_bytes fun x hx ↦ hout x ?_, fun hne ↦ absurd rfl hne⟩
    rintro (⟨-, hlt⟩ | hflag)
    · omega
    · omega
  · unfold infoSize at hlt
    exact ⟨keeps_of_bytes fun x hx ↦ hout x (touches_ge (by omega) hsize),
      fun _ ↦ allocAt_congr fun x hx _ ↦ hout x (touches_ge (by omega) hsize)⟩
  · unfold infoSize at hlt
    exact ⟨keeps_of_bytes fun x hx ↦ hout x (touches_lt (by omega) hsize),
      fun _ ↦ allocAt_congr fun x _ hx ↦ hout x (touches_lt (by omega) hsize)⟩

/-- The list of the records of a heap that starts at `base`. -/
structure Listed (s : Heap) (base : Nat) (ns : List Nat) : Prop where
  base_pos : 0 < base
  chain : Chain (nextAt s.mem) s.start ns 0
  laid : Laid s.mem base ns s.brk

theorem Listed.ne_zero (h : Listed s base ns) (hp : p ∈ ns) : p ≠ 0 := by
  have hpos := h.base_pos
  obtain ⟨hlow, hsize, -⟩ := h.laid.place hp
  omega

theorem Listed.zero_notMem (h : Listed s base ns) : 0 ∉ ns := fun hz ↦ h.ne_zero hz rfl

theorem Listed.start_ne_zero (h : Listed s base ns) (hne : ns ≠ []) : s.start ≠ 0 := by
  cases ns with
  | nil => exact absurd rfl hne
  | cons p ns =>
      rw [h.chain.1]
      exact h.ne_zero List.mem_cons_self

theorem Listed.keep (h : Listed s base ns) (hkeep : ∀ q ∈ ns, Keeps s.mem mem' q) :
    Listed { s with mem := mem' } base ns where
  base_pos := h.base_pos
  chain := h.chain.congr fun q hq ↦ (hkeep q hq).2.2
  laid := h.laid.congr fun q hq ↦ ⟨(hkeep q hq).1, (hkeep q hq).2.1⟩

/-! ## `free` -/

theorem setAlloc_apply (h : x < p + 16 ∨ p + 20 ≤ x) : setAlloc mem p v x = mem x :=
  Memory.store32_apply_of_lt (by omega)

theorem setAlloc_keeps : Keeps mem (setAlloc mem p v) p :=
  keeps_of_bytes fun x hx ↦ setAlloc_apply (by omega)

theorem allocAt_setAlloc (hv : v < 2 ^ 32) : allocAt (setAlloc mem p v) p = v :=
  Memory.load32_store32 hv

theorem memset_apply (h : x < a ∨ a + size ≤ x) : memset mem a size x = mem x := by
  unfold memset
  split
  · exact Memory.fill_apply_of_lt (by omega)
  · rfl

/-- The loop stops at the record of the address, or at NULL. -/
theorem freeLoop_eq (add : Nat) (hc : Chain (nextAt mem) temp ns 0) (hz : 0 ∉ ns)
    (hfuel : ns.length < fuel) :
    (freeLoop mem add fuel temp = some mem ∧ ∀ p ∈ ns, addressAt mem p ≠ add) ∨
      ∃ p ∈ ns, addressAt mem p = add ∧ freeLoop mem add fuel temp =
        some (memset (setAlloc mem p 0) (addressAt mem p) (sizeAt mem p)) := by
  induction ns generalizing temp fuel with
  | nil =>
      obtain ⟨fuel, rfl⟩ := Nat.exists_eq_add_of_le' (show 1 ≤ fuel by omega)
      obtain rfl : temp = 0 := hc
      exact .inl ⟨if_pos rfl, fun p hp ↦ absurd hp List.not_mem_nil⟩
  | cons p ns ih =>
      obtain ⟨fuel, rfl⟩ := Nat.exists_eq_add_of_le' (show 1 ≤ fuel by omega)
      obtain ⟨rfl, hc⟩ := hc
      rw [List.mem_cons, not_or] at hz
      rw [freeLoop, if_neg (Ne.symm hz.1)]
      -- a record of this address ends the loop, whatever its flag
      by_cases hadd : add = addressAt mem temp
      · obtain ⟨hs, ha, -⟩ : Keeps mem (setAlloc mem temp 0) temp := setAlloc_keeps
        refine .inr ⟨temp, List.mem_cons_self, hadd.symm, ?_⟩
        rw [if_pos hadd]
        dsimp only
        rw [hs, ha]
      · rw [if_neg hadd]
        rcases ih hc hz.2 (Nat.lt_of_succ_lt_succ hfuel) with ⟨hf, hall⟩ | ⟨p, hp, hpa, hf⟩
        · refine .inl ⟨hf, fun q hq ↦ ?_⟩
          rcases List.mem_cons.mp hq with rfl | hq'
          · exact Ne.symm hadd
          · exact hall q hq'
        · exact .inr ⟨p, List.mem_cons_of_mem temp hp, hpa, hf⟩

theorem Listed.free (h : Listed s base ns) (hfuel : ns.length < fuel) (add : Nat) :
    (s.free fuel add = some s ∧ ∀ p ∈ ns, addressAt s.mem p ≠ add) ∨
      ∃ p ∈ ns, ∃ mem', addressAt s.mem p = add ∧ s.free fuel add = some { s with mem := mem' } ∧
        allocAt mem' p = 0 ∧ ∀ x, ¬ Touches s.mem p x → mem' x = s.mem x := by
  rcases freeLoop_eq add h.chain h.zero_notMem hfuel with ⟨hf, hall⟩ | ⟨p, hp, hadd, hf⟩
  · refine .inl ⟨?_, hall⟩
    rw [Heap.free, hf]
    rfl
  · have hsize := (h.laid.place hp).2.1
    refine .inr ⟨p, hp, memset (setAlloc s.mem p 0) (addressAt s.mem p) (sizeAt s.mem p), hadd, ?_, ?_,
      fun x hx ↦ ?_⟩
    · rw [Heap.free, hf]
      rfl
    · have hflag : ∀ x, p + 16 ≤ x → x < p + 20 →
          memset (setAlloc s.mem p 0) (addressAt s.mem p) (sizeAt s.mem p) x = setAlloc s.mem p 0 x :=
        fun x hx _ ↦ memset_apply (by omega)
      rw [allocAt_congr hflag, allocAt_setAlloc (by decide)]
    · unfold Touches at hx
      rw [memset_apply (by omega), setAlloc_apply (by omega)]

/-! ## `malloc` -/

/-- The loop stops at the last record; what it has found is free and large enough. -/
theorem scan_eq (min : Nat) (mintemp : Option Nat)
    (hc : Chain (nextAt mem) temp (l ++ [last]) 0) (hz : 0 ∉ l ++ [last])
    (hfuel : l.length < fuel) :
    ∃ r, scan mem size fuel temp min mintemp = some (last, r) ∧
      (r = mintemp ∨ ∃ p ∈ l, r = some p ∧ allocAt mem p = 0 ∧ size < sizeAt mem p) := by
  induction l generalizing temp fuel min mintemp with
  | nil =>
      obtain ⟨fuel, rfl⟩ := Nat.exists_eq_add_of_le' (show 1 ≤ fuel by omega)
      obtain ⟨rfl, hnext⟩ := hc
      exact ⟨mintemp, if_pos hnext, .inl rfl⟩
  | cons p l ih =>
      obtain ⟨fuel, rfl⟩ := Nat.exists_eq_add_of_le' (show 1 ≤ fuel by omega)
      obtain ⟨rfl, hc⟩ := hc
      have hz' : 0 ∉ l ++ [last] := fun hm ↦ hz (List.mem_cons_of_mem _ hm)
      -- the record is not the last one, so its link is not NULL
      have hnext : nextAt mem temp ≠ 0 := hc.start_ne (List.append_ne_nil_of_right_ne_nil l (by simp)) hz'
      rw [scan, if_neg hnext]
      split
      · rename_i hfit
        -- the loop goes on with this record, and may find another one
        obtain ⟨r, hr, hcase⟩ := ih size (some temp) hc hz' (Nat.lt_of_succ_lt_succ hfuel)
        refine ⟨r, hr, .inr ?_⟩
        rcases hcase with rfl | ⟨p, hp, hrest⟩
        · exact ⟨temp, List.mem_cons_self, rfl, hfit.1, hfit.2.1⟩
        · exact ⟨p, List.mem_cons_of_mem temp hp, hrest⟩
      · obtain ⟨r, hr, hcase⟩ := ih min mintemp hc hz' (Nat.lt_of_succ_lt_succ hfuel)
        exact ⟨r, hr, hcase.imp_right fun ⟨p, hp, hrest⟩ ↦ ⟨p, List.mem_cons_of_mem temp hp, hrest⟩⟩

theorem setNext_apply (h : x < p + 24 ∨ p + 32 ≤ x) : setNext mem p v x = mem x :=
  Memory.store64_apply_of_lt (by omega)

theorem newInfo_apply (h : x < p ∨ p + infoSize ≤ x) : newInfo mem p size a x = mem x := by
  unfold infoSize at h
  rw [newInfo, setNext_apply (by omega), setAlloc_apply (by omega),
    Memory.store64_apply_of_lt (by omega), Memory.store64_apply_of_lt (by omega)]

theorem newInfo_fields (mem : Memory) (p : Nat) (hsize : size < 2 ^ 64) (ha : a < 2 ^ 64) :
    sizeAt (newInfo mem p size a) p = size ∧ addressAt (newInfo mem p size a) p = a ∧
      allocAt (newInfo mem p size a) p = 1 ∧ nextAt (newInfo mem p size a) p = 0 := by
  -- the four stores go to different fields, the last one first
  have hnext : ∀ x, x < p + 24 → newInfo mem p size a x =
      setAlloc ((mem.store64 p size).store64 (p + 8) a) p 1 x := fun x hx ↦ setNext_apply (.inl hx)
  have hflag : ∀ x, x < p + 16 → newInfo mem p size a x = (mem.store64 p size).store64 (p + 8) a x :=
    fun x hx ↦ (hnext x (by omega)).trans (setAlloc_apply (.inl hx))
  refine ⟨?_, ?_, ?_, Memory.load64_store64 (by decide)⟩
  · rw [sizeAt, Memory.load64_congr fun x _ hx ↦ hflag x (by omega),
      Memory.load64_store64_of_disjoint (by omega), Memory.load64_store64 hsize]
  · rw [addressAt, Memory.load64_congr fun x _ hx ↦ hflag x (by omega), Memory.load64_store64 ha]
  · rw [allocAt_congr fun x _ hx ↦ hnext x (by omega), allocAt_setAlloc (by decide)]

theorem sbMalloc_eq (hsize : size < 2 ^ 31) (hroom : s.brk + size < 2 ^ 64) :
    s.sbMalloc size = (s.brk, { s with brk := s.brk + size }) := by
  have harg : intArg size = size := by
    have hmod : size % 2 ^ 32 = size := Nat.mod_eq_of_lt (Nat.lt_trans hsize (by decide))
    rw [intArg, hmod, if_pos hsize]
  rw [sbMalloc, harg, Nat.mod_eq_of_lt hroom]

/-- What a call that adds a block leaves of the old records, and what it writes into the new one. -/
structure Added (mem mem' : Memory) (ns : List Nat) (q size address : Nat) : Prop where
  size : sizeAt mem' q = size
  address : addressAt mem' q = address
  alloc : allocAt mem' q = 1
  old : ∀ p ∈ ns, sizeAt mem' p = sizeAt mem p ∧ addressAt mem' p = addressAt mem p ∧
    allocAt mem' p = allocAt mem p

theorem Listed.mallocFirst (h : Listed s base []) (hsize : size < 2 ^ 31)
    (hroom : s.brk + size + infoSize < 2 ^ 64) : ∃ s', s.malloc fuel size = some (s.brk, s') ∧
      s'.brk = s.brk + size + infoSize ∧ Listed s' base [s.brk + size] ∧
      Added s.mem s'.mem [] (s.brk + size) size s.brk := by
  have hstart : s.start = 0 := h.chain
  have hbase : base = s.brk := h.laid
  obtain ⟨hs, ha, hal, hn⟩ := newInfo_fields s.mem (s.brk + size)
    (show size < 2 ^ 64 by omega) (show s.brk < 2 ^ 64 by omega)
  refine ⟨⟨newInfo s.mem (s.brk + size) size s.brk, s.brk + size, s.brk + size + infoSize⟩, ?_, rfl,
    ⟨h.base_pos, ⟨rfl, hn⟩, ha.trans hbase.symm, ?_, rfl⟩,
    ⟨hs, ha, hal, fun p hp ↦ absurd hp List.not_mem_nil⟩⟩
  · rw [malloc, if_pos hstart, sbMalloc_eq hsize (by omega)]
    dsimp only
    rw [sbMalloc_eq (by decide) hroom]
  · rw [hs, hbase]

/-- Below the end of the heap only the link of the last record changes. -/
theorem Laid.keeps_next (h : Laid mem a ns hi) (hlast : last ∈ ns)
    (hout : ∀ x, x < hi → x < last + 24 ∨ last + 32 ≤ x → mem' x = mem x) (hp : p ∈ ns) :
    sizeAt mem' p = sizeAt mem p ∧ addressAt mem' p = addressAt mem p ∧
      allocAt mem' p = allocAt mem p ∧ (p ≠ last → nextAt mem' p = nextAt mem p) := by
  obtain ⟨-, hsize, hend⟩ := h.place hp
  obtain ⟨-, hsize', -⟩ := h.place hlast
  have horder := h.order hp hlast
  unfold infoSize at hend horder
  have hhead : ∀ x, p ≤ x → x < p + 24 → mem' x = mem x := fun x hx hx' ↦
    hout x (by omega) (by omega)
  refine ⟨Memory.load64_congr fun x hx hx' ↦ hhead x hx (by omega),
    Memory.load64_congr fun x hx hx' ↦ hhead x (by omega) (by omega),
    allocAt_congr fun x hx hx' ↦ hhead x (by omega) (by omega), fun hne ↦ ?_⟩
  exact Memory.load64_congr fun x hx hx' ↦ hout x (by omega) (by omega)

/-- The list goes on with a record that the last one is linked to. -/
theorem Listed.link (h : Listed s base (l ++ [last]))
    (hold : ∀ p ∈ l ++ [last], sizeAt mem p = sizeAt s.mem p ∧ addressAt mem p = addressAt s.mem p ∧
      allocAt mem p = allocAt s.mem p ∧ (p ≠ last → nextAt mem p = nextAt s.mem p))
    (hnext : nextAt mem last = q) (hend : nextAt mem q = 0) (haddr : addressAt mem q = s.brk)
    (hsize : s.brk + sizeAt mem q = q) :
    Listed ⟨mem, s.start, q + infoSize⟩ base (l ++ [last] ++ [q]) where
  base_pos := h.base_pos
  chain := by
    obtain ⟨m, hc, rfl, -⟩ := chain_append.mp h.chain
    refine chain_append.mpr ⟨q, chain_append.mpr ⟨m, hc.congr fun x hx ↦ ?_, rfl, hnext⟩, rfl, hend⟩
    -- the last record is no other one of the list
    refine (hold x (List.mem_append_left _ hx)).2.2.2 ?_
    rintro rfl
    exact (List.nodup_append.mp h.laid.nodup).2.2 x hx x List.mem_cons_self rfl
  laid := (h.laid.congr fun p hp ↦ ⟨(hold p hp).1, (hold p hp).2.1⟩).concat haddr hsize

theorem Listed.mallocNext (h : Listed s base (l ++ [last])) (hsize : size < 2 ^ 31)
    (hroom : s.brk + size + infoSize < 2 ^ 64)
    (hscan : scan s.mem size fuel s.start 10000 none = some (last, none)) :
    ∃ s', s.malloc fuel size = some (s.brk, s') ∧ s'.brk = s.brk + size + infoSize ∧
      Listed s' base (l ++ [last] ++ [s.brk + size]) ∧
      Added s.mem s'.mem (l ++ [last]) (s.brk + size) size s.brk := by
  have hlast : last ∈ l ++ [last] := List.mem_append_right l List.mem_cons_self
  have hstart : s.start ≠ 0 := h.start_ne_zero (List.append_ne_nil_of_right_ne_nil l (by simp))
  have hlastq : last + infoSize ≤ s.brk := (h.laid.place hlast).2.2
  obtain ⟨hs, ha, hal, hn⟩ := newInfo_fields s.mem (s.brk + size)
    (show size < 2 ^ 64 by omega) (show s.brk < 2 ^ 64 by omega)
  generalize hq : s.brk + size = q at *
  have hbrk : s.brk ≤ q := hq ▸ Nat.le_add_right s.brk size
  generalize hmem : newInfo s.mem q size s.brk = mem at *
  -- the new record lies behind the one that is linked to it
  obtain ⟨hs', ha', hn'⟩ : Keeps mem (setNext mem last q) q := by
    unfold infoSize at hlastq
    exact keeps_of_bytes fun x hx ↦ setNext_apply (by omega)
  have hal' : allocAt (setNext mem last q) q = allocAt mem q := by
    unfold infoSize at hlastq
    exact allocAt_congr fun x hx hx' ↦ setNext_apply (by omega)
  have hout : ∀ x, x < s.brk → x < last + 24 ∨ last + 32 ≤ x → setNext mem last q x = s.mem x :=
    fun x hx hx' ↦ by rw [setNext_apply hx', ← hmem, newInfo_apply (.inl (by omega))]
  have hold := fun p (hp : p ∈ l ++ [last]) ↦ h.laid.keeps_next hlast hout hp
  have hnext : nextAt (setNext mem last q) last = q := Memory.load64_store64 (by omega)
  have hsize' : s.brk + sizeAt (setNext mem last q) q = q := by rw [hs', hs, hq]
  refine ⟨⟨setNext mem last q, s.start, q + infoSize⟩, ?_, rfl,
    h.link hold hnext (hn'.trans hn) (ha'.trans ha) hsize',
    ⟨hs'.trans hs, ha'.trans ha, hal'.trans hal,
      fun p hp ↦ ⟨(hold p hp).1, (hold p hp).2.1, (hold p hp).2.2.1⟩⟩⟩
  rw [malloc, if_neg hstart, hscan, Option.map_some]
  dsimp only
  rw [sbMalloc_eq hsize (by omega)]
  dsimp only
  rw [hq, sbMalloc_eq (by decide) hroom, hmem]

/-- `malloc` marks a free block that is large enough, or adds one. -/
theorem Listed.malloc (h : Listed s base ns) (hfuel : ns.length < fuel) (hsize : size < 2 ^ 31)
    (hroom : s.brk + size + infoSize < 2 ^ 64) :
    (∃ p ∈ ns, allocAt s.mem p = 0 ∧ size ≤ sizeAt s.mem p ∧ s.malloc fuel size =
      some (addressAt s.mem p, { s with mem := setAlloc s.mem p 1 })) ∨
    ∃ s', s.malloc fuel size = some (s.brk, s') ∧ s'.brk = s.brk + size + infoSize ∧
      Listed s' base (ns ++ [s.brk + size]) ∧ Added s.mem s'.mem ns (s.brk + size) size s.brk := by
  rcases List.eq_nil_or_concat ns with rfl | ⟨l, last, rfl⟩
  · exact .inr (h.mallocFirst hsize hroom)
  · rw [List.concat_eq_append] at *
    rw [List.length_append] at hfuel
    obtain ⟨r, hscan, hr⟩ := scan_eq 10000 none h.chain h.zero_notMem (Nat.lt_of_succ_lt hfuel)
    rcases hr with rfl | ⟨p, hp, rfl, hfree, hlt⟩
    · exact .inr (h.mallocNext hsize hroom hscan)
    · have hstart := h.start_ne_zero (List.append_ne_nil_of_right_ne_nil l (by simp))
      have hkeep : Keeps s.mem (setAlloc s.mem p 1) p := setAlloc_keeps
      refine .inl ⟨p, List.mem_append_left _ hp, hfree, hlt.le, ?_⟩
      rw [Heap.malloc, if_neg hstart, hscan, Option.map_some]
      dsimp only
      rw [hkeep.2.1]

end Heap

end Sbunix
