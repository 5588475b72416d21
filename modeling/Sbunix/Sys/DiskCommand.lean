import Sbunix.Sys.Enumpci
import Mathlib.Algebra.Group.Nat.Defs

/-!
# What a disk command says

The loop over the entries takes sixteen sectors off `count` for each of them, so the FIS has the
sectors of the last entry only, and the last entry itself is not written.
-/

namespace Sbunix

/-- The sector that the FIS names. -/
def FisRegH2d.lba (fis : FisRegH2d) : Nat :=
  fis.lba0.toNat + 2 ^ 8 * fis.lba1.toNat + 2 ^ 16 * fis.lba2.toNat + 2 ^ 24 * fis.lba3.toNat +
    2 ^ 32 * fis.lba4.toNat + 2 ^ 40 * fis.lba5.toNat

/-- The regions of the entries lie one behind the other from `a` to `b`, and none is empty. -/
def Tiles : Nat → List HbaPrdtEntry → Nat → Prop
  | a, [], b => a = b
  | a, entry :: entries, b =>
      entry.dba.toNat = a ∧ 0 < entry.dbc.toNat ∧ Tiles (a + entry.dbc.toNat) entries b

/-- The command says `count` sectors from `lba` on, and the bytes from `buf` on. -/
structure Describes (cmdheader : HbaCmdHeader) (tbl : HbaCmdTbl) (lba count : Nat) (buf : UInt64) :
    Prop where
  lba_eq : tbl.cfis.lba = lba
  count_eq : tbl.cfis.count.toNat = count
  regions : Tiles buf.toNat ((List.range cmdheader.prdtl.toNat).map tbl.prdtEntry)
    (buf.toNat + 512 * count)

/-- The command that is built describes the request. -/
def HbaPort.BuildsRight (port : HbaPort) (command : UInt8) (lba : Nat) (count : UInt32)
    (buf : UInt64) : Prop :=
  ∃ slot port', port.build command lba.toUInt32 (lba / 2 ^ 32).toUInt32 count buf =
      some (slot, port') ∧
    Describes (port'.clb slot) (port'.cmdtbl (port'.clb slot).ctba) lba count.toNat buf

variable {port : HbaPort} {tbl : HbaCmdTbl} {command : UInt8} {count : UInt32} {buf : UInt64}
  {prdtl : UInt16} {slot lba n i : Nat}

theorem fillEntries_count (h : 16 * n ≤ count.toNat) :
    (tbl.fillEntries n i buf count).2.2.toNat = count.toNat - 16 * n := by
  induction n generalizing i tbl buf count with
  | zero => rfl
  | succ n ih =>
      have hle : (16 : UInt32) ≤ count := by
        rw [UInt32.le_iff_toNat_le]
        show 16 ≤ count.toNat
        omega
      have hsub : (count - 16).toNat = count.toNat - 16 := UInt32.toNat_sub_of_le _ _ hle
      rw [HbaCmdTbl.fillEntries, ih (by omega), hsub]
      omega

/-- The loop does not get to the last entry. -/
theorem fillEntries_behind {j : Nat} (hj : i + n ≤ j) :
    (tbl.fillEntries n i buf count).1.prdtEntry j = tbl.prdtEntry j := by
  induction n generalizing i tbl buf count with
  | zero => rfl
  | succ n ih =>
      rw [HbaCmdTbl.fillEntries, ih (by omega)]
      exact Function.update_of_ne (by omega) _ _

/-- With more than one entry the last one is left as it was cleared. -/
theorem setup_last (hprdtl : 1 < prdtl.toNat) {startl starth : UInt32} :
    (tbl.setup command startl starth count buf prdtl).prdtEntry (prdtl.toNat - 1) = {} := by
  have hloop : ((tbl.cleared prdtl).fillEntries (prdtl.toNat - 1) 0 buf count).1.prdtEntry
      (prdtl.toNat - 1) = {} := by
    rw [fillEntries_behind (by omega)]
    exact if_pos (by omega)
  rw [← hloop]
  exact Function.update_of_ne (by omega) _ _

theorem prdtl_eq (hpos : 0 < count.toNat) (hcount : count.toNat < 2 ^ 16) :
    (((count - 1) >>> 4).toUInt16 + 1).toNat = (count.toNat - 1) / 16 + 1 := by
  have hle : (1 : UInt32) ≤ count := by
    rw [UInt32.le_iff_toNat_le]
    exact hpos
  have hsub : (count - 1).toNat = count.toNat - 1 := UInt32.toNat_sub_of_le _ _ hle
  have hshift : ((count - 1) >>> 4).toNat = (count.toNat - 1) / 16 := by
    rw [UInt32.toNat_shiftRight, hsub]
    exact Nat.shiftRight_eq_div_pow _ 4
  rw [UInt16.toNat_add, UInt32.toNat_toUInt16, hshift]
  show ((count.toNat - 1) / 16 % 2 ^ 16 + 1) % 2 ^ 16 = _
  omega

theorem toNat_toUInt8_shiftRight (x k : UInt32) (hk : k.toNat < 32) :
    (x >>> k).toUInt8.toNat = x.toNat / 2 ^ k.toNat % 2 ^ 8 := by
  rw [UInt32.toNat_toUInt8, UInt32.toNat_shiftRight, Nat.mod_eq_of_lt hk, Nat.shiftRight_eq_div_pow]

theorem setup_cfis {startl starth : UInt32} :
    (tbl.setup command startl starth count buf prdtl).cfis =
      ⟨0x27, true, command, startl.toUInt8, (startl >>> 8).toUInt8, (startl >>> 16).toUInt8,
        (1 : UInt8) <<< 6, (startl >>> 24).toUInt8, starth.toUInt8, (starth >>> 8).toUInt8,
        (HbaCmdTbl.fillEntries (prdtl.toNat - 1) 0 (tbl.cleared prdtl) buf
          count).2.2.toUInt8.toUInt16⟩ := rfl

/-- The six bytes give the sector back. -/
theorem setup_lba (hlba : lba < 2 ^ 48) :
    (tbl.setup command lba.toUInt32 (lba / 2 ^ 32).toUInt32 count buf prdtl).cfis.lba = lba := by
  have hlow : lba.toUInt32.toNat = lba % 2 ^ 32 := rfl
  have hhigh : (lba / 2 ^ 32).toUInt32.toNat = lba / 2 ^ 32 % 2 ^ 32 := rfl
  have h8 : (8 : UInt32).toNat = 8 := rfl
  have h16 : (16 : UInt32).toNat = 16 := rfl
  have h24 : (24 : UInt32).toNat = 24 := rfl
  rw [setup_cfis, FisRegH2d.lba]
  dsimp only
  -- from here on it is the digits of `lba` to the base 256
  rw [toNat_toUInt8_shiftRight _ 8 (by decide), toNat_toUInt8_shiftRight _ 16 (by decide),
    toNat_toUInt8_shiftRight _ 24 (by decide), toNat_toUInt8_shiftRight _ 8 (by decide),
    UInt32.toNat_toUInt8, UInt32.toNat_toUInt8, hlow, hhigh, h8, h16, h24]
  omega

/-- The FIS has the sectors of the last entry. -/
theorem setup_count (hpos : 0 < count.toNat) (hprdtl : prdtl.toNat = (count.toNat - 1) / 16 + 1)
    {startl starth : UInt32} : (tbl.setup command startl starth count buf prdtl).cfis.count.toNat =
      count.toNat - 16 * ((count.toNat - 1) / 16) := by
  have hloop : (HbaCmdTbl.fillEntries (prdtl.toNat - 1) 0 (tbl.cleared prdtl) buf count).2.2.toNat =
      count.toNat - 16 * ((count.toNat - 1) / 16) := by
    rw [fillEntries_count (by omega)]
    omega
  rw [setup_cfis, UInt8.toNat_toUInt16, UInt32.toNat_toUInt8, hloop]
  omega

/-- Up to sixteen sectors there is one entry, and it has all of them. -/
theorem setup_tiles (hpos : 0 < count.toNat) (hcount : count.toNat ≤ 16) (hprdtl : prdtl.toNat = 1)
    {startl starth : UInt32} : Tiles buf.toNat ((List.range prdtl.toNat).map
      (tbl.setup command startl starth count buf prdtl).prdtEntry) (buf.toNat + 512 * count.toNat) := by
  have hentry : (tbl.setup command startl starth count buf prdtl).prdtEntry 0 =
      ⟨buf, .ofNat 22 (count <<< 9).toNat, true⟩ := by
    rw [HbaCmdTbl.setup, hprdtl]
    rfl
  have hbytes : (BitVec.ofNat 22 (count <<< 9).toNat).toNat = 512 * count.toNat := by
    rw [BitVec.toNat_ofNat, UInt32.toNat_shiftLeft, Nat.shiftLeft_eq]
    show count.toNat * 2 ^ 9 % 2 ^ 32 % 2 ^ 22 = _
    omega
  rw [hprdtl]
  show Tiles buf.toNat [(tbl.setup command startl starth count buf prdtl).prdtEntry 0] _
  rw [hentry]
  exact ⟨rfl, by rw [hbytes]; omega, by rw [hbytes]; rfl⟩

theorem buildsRight_iff (hslot : port.findCmdslot = some slot) (hlba : lba < 2 ^ 48)
    (hpos : 0 < count.toNat) (hcount : count.toNat < 2 ^ 16) :
    port.BuildsRight command lba count buf ↔ count.toNat ≤ 16 := by
  have hprdtl := prdtl_eq hpos hcount
  rw [HbaPort.BuildsRight, HbaPort.build, hslot]
  constructor
  · rintro ⟨slot', port', hbuild, hright⟩
    obtain ⟨rfl, rfl⟩ := Prod.mk.inj (Option.some.inj hbuild)
    -- with a second entry the loop has taken something off
    have hfis := hright.count_eq
    dsimp only at hfis
    rw [Function.update_self, Function.update_self, setup_count hpos hprdtl] at hfis
    omega
  · intro hfew
    refine ⟨slot, _, rfl, ?_⟩
    dsimp only
    rw [Function.update_self, Function.update_self]
    refine ⟨setup_lba hlba, ?_, setup_tiles hpos hfew ?_⟩
    · rw [setup_count hpos hprdtl]
      omega
    · rw [hprdtl]
      omega

/-! ## The calls -/

/-- Whatever the polls read, the call leaves the command as it was built. -/
theorem transferDisk_port {print : String → List String} {polls : Polls} {fuel : Nat}
    {startl starth : UInt32} {port' : HbaPort} {reply : DiskReply}
    (hbuild : port.build command startl starth count buf = some (slot, port'))
    (h : transferDisk command print polls fuel port startl starth count buf = some reply) :
    reply.port.clb = port'.clb ∧ reply.port.cmdtbl = port'.cmdtbl := by
  rw [transferDisk, hbuild] at h
  dsimp only at h
  split at h
  · obtain ⟨done, -, rfl⟩ := Option.map_eq_some_iff.mp h
    cases done <;> exact ⟨rfl, rfl⟩
  · -- a port that hangs has the command all the same
    obtain rfl := Option.some.inj h
    exact ⟨rfl, rfl⟩

theorem transferDisk_describes {print : String → List String} {polls : Polls} {fuel : Nat}
    {reply : DiskReply} (hslot : port.findCmdslot = some slot)
    (h : transferDisk command print polls fuel port lba.toUInt32 (lba / 2 ^ 32).toUInt32 count buf =
      some reply) :
    Describes (reply.port.clb slot) (reply.port.cmdtbl (reply.port.clb slot).ctba) lba count.toNat buf ↔
      port.BuildsRight command lba count buf := by
  obtain ⟨port', hbuild⟩ : ∃ port', port.build command lba.toUInt32 (lba / 2 ^ 32).toUInt32 count buf =
      some (slot, port') := by
    rw [HbaPort.build, hslot]
    exact ⟨_, rfl⟩
  obtain ⟨hclb, htbl⟩ := transferDisk_port hbuild h
  rw [HbaPort.BuildsRight, hbuild, hclb, htbl]
  constructor
  · exact fun hright ↦ ⟨slot, port', rfl, hright⟩
  · rintro ⟨slot', port'', heq, hright⟩
    obtain ⟨rfl, rfl⟩ := Prod.mk.inj (Option.some.inj heq)
    exact hright

/-- The commands of both functions describe the request just for up to sixteen sectors: as they are
built, and as the port has them when the call returns. -/
theorem disk_command_iff (hslot : port.findCmdslot = some slot) (hlba : lba < 2 ^ 48)
    (hpos : 1 ≤ count.toNat) (hcount : count.toNat ≤ 65535) :
    (port.BuildsRight ataCmdReadDmaEx lba count buf ↔ count.toNat ≤ 16) ∧
      (port.BuildsRight ataCmdWriteDmaEx lba count buf ↔ count.toNat ≤ 16) ∧
      ∀ polls fuel reply,
        readFromDisk polls fuel port lba.toUInt32 (lba / 2 ^ 32).toUInt32 count buf = some reply ∨
          writeToDisk polls fuel port lba.toUInt32 (lba / 2 ^ 32).toUInt32 count buf = some reply →
        (Describes (reply.port.clb slot) (reply.port.cmdtbl (reply.port.clb slot).ctba) lba
          count.toNat buf ↔ count.toNat ≤ 16) := by
  have hright (command : UInt8) : port.BuildsRight command lba count buf ↔ count.toNat ≤ 16 :=
    buildsRight_iff hslot hlba hpos (Nat.lt_succ_of_le hcount)
  refine ⟨hright _, hright _, fun polls fuel reply h ↦ ?_⟩
  rcases h with h | h
  · exact (transferDisk_describes hslot h).trans (hright _)
  · exact (transferDisk_describes hslot h).trans (hright _)

/-- A port without a command, and polls that find it ready and then done. -/
def freePort : HbaPort := ⟨0, 0, 0, fun _ ↦ {}, fun _ ↦ ⟨{}, fun _ ↦ {}⟩⟩

def quietPolls : Polls := ⟨fun _ ↦ 0, fun _ ↦ 0, fun _ ↦ 0⟩

/-- Sixteen sectors to `0x400000`. -/
theorem disk_command_sixteen : ∃ reply,
    readFromDisk quietPolls 1 freePort 20 0 16 0x400000 = some reply ∧ reply.ret = 1 ∧
      Describes (reply.port.clb 0) (reply.port.cmdtbl (reply.port.clb 0).ctba) 20 16 0x400000 := by
  have hslot : freePort.findCmdslot = some 0 := by decide
  have hready : quietPolls.ready 1000000 0 = true := rfl
  obtain ⟨reply, hreply, hret⟩ : ∃ reply,
      readFromDisk quietPolls 1 freePort 20 0 16 0x400000 = some reply ∧ reply.ret = 1 := by
    rw [readFromDisk, transferDisk, HbaPort.build, hslot]
    dsimp only [Option.map_some]
    rw [if_pos hready]
    exact ⟨_, rfl, rfl⟩
  exact ⟨reply, hreply, hret, ((@disk_command_iff freePort 16 0x400000 0 20 hslot (by decide) (by decide)
    (by decide)).2.2 _ _ _ (Or.inl hreply)).mpr (by decide)⟩

/-- Seventeen sectors. -/
theorem not_buildsRight_seventeen : ¬ freePort.BuildsRight ataCmdReadDmaEx 20 17 0x400000 := fun h ↦
  absurd ((buildsRight_iff (show freePort.findCmdslot = some 0 by decide) (by decide) (by decide)
    (by decide)).mp h) (by decide)

end Sbunix
