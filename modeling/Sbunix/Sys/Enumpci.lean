import Mathlib.Data.Nat.Basic
import Mathlib.Logic.Function.Basic

/-!
# Disk commands (`sys/enumpci.c`)

A command has a register FIS with the first sector and the number of sectors, and a table of regions
of memory.  `read_from_disk` and `write_to_disk` fill them in for a free slot of the port, issue the
command and poll the port.
-/

namespace Sbunix

/-- `hba_prdt_entry_t`. -/
structure HbaPrdtEntry where
  dba : UInt64 := 0
  dbc : BitVec 22 := 0
  i : Bool := false
  deriving DecidableEq

/-- `fis_reg_h2d_t`, without the registers that stay cleared. -/
structure FisRegH2d where
  fisType : UInt8 := 0
  c : Bool := false
  command : UInt8 := 0
  lba0 : UInt8 := 0
  lba1 : UInt8 := 0
  lba2 : UInt8 := 0
  device : UInt8 := 0
  lba3 : UInt8 := 0
  lba4 : UInt8 := 0
  lba5 : UInt8 := 0
  count : UInt16 := 0

/-- `hba_cmd_tbl_t`. -/
structure HbaCmdTbl where
  cfis : FisRegH2d
  prdtEntry : Nat → HbaPrdtEntry

/-- `hba_cmd_header_t`. -/
structure HbaCmdHeader where
  cfl : BitVec 5 := 0
  w : Bool := false
  prdtl : UInt16 := 0
  ctba : UInt64 := 0

/-- The registers of a port, and the command list and the tables in memory. -/
structure HbaPort where
  isRwc : UInt32
  sact : UInt32
  ci : UInt32
  clb : Nat → HbaCmdHeader
  cmdtbl : UInt64 → HbaCmdTbl

def ataCmdReadDmaEx : UInt8 := 0x25

def ataCmdWriteDmaEx : UInt8 := 0x35

def hbaPxIsTfes : UInt32 := (1 : UInt32) <<< 30

/-- The loop of `find_cmdslot` with `n` slots left. -/
def cmdslotLoop : Nat → Nat → Nat → Option Nat
  | 0, _, _ => none
  | n + 1, i, slots => if slots % 2 = 0 then some i else cmdslotLoop n (i + 1) (slots / 2)

namespace HbaCmdTbl

/-- `memset` over the table, whose size is 256, and `prdtl - 1` entries behind it. -/
def cleared (tbl : HbaCmdTbl) (prdtl : UInt16) : HbaCmdTbl where
  cfis := {}
  prdtEntry i := if i + 1 < prdtl.toNat + 8 then {} else tbl.prdtEntry i

def putEntry (tbl : HbaCmdTbl) (i : Nat) (entry : HbaPrdtEntry) : HbaCmdTbl :=
  { tbl with prdtEntry := Function.update tbl.prdtEntry i entry }

/-- The loop over the entries before the last one; `buf` counts words of four bytes. -/
def fillEntries : Nat → Nat → HbaCmdTbl → UInt64 → UInt32 → HbaCmdTbl × UInt64 × UInt32
  | 0, _, tbl, buf, count => (tbl, buf, count)
  | n + 1, i, tbl, buf, count =>
      fillEntries n (i + 1) (tbl.putEntry i ⟨buf, 8 * 1024, true⟩) (buf + 4 * (4 * 1024)) (count - 16)

/-- The table for a command.  The last entry goes to the outer `i`, which is 0, and `count` is what
the loop has left of it. -/
def setup (tbl : HbaCmdTbl) (command : UInt8) (startl starth count : UInt32) (buf : UInt64)
    (prdtl : UInt16) : HbaCmdTbl :=
  let (tbl, buf, count) := fillEntries (prdtl.toNat - 1) 0 (tbl.cleared prdtl) buf count
  let tbl := tbl.putEntry 0 ⟨buf, .ofNat 22 (count <<< 9).toNat, true⟩
  { tbl with
    cfis :=
      { fisType := 0x27
        c := true
        command := command
        lba0 := startl.toUInt8
        lba1 := (startl >>> 8).toUInt8
        lba2 := (startl >>> 16).toUInt8
        device := (1 : UInt8) <<< 6
        lba3 := (startl >>> 24).toUInt8
        lba4 := starth.toUInt8
        lba5 := (starth >>> 8).toUInt8
        count := count.toUInt8.toUInt16 } }

end HbaCmdTbl

namespace HbaPort

def findCmdslot (port : HbaPort) : Option Nat :=
  cmdslotLoop 32 0 (port.sact ||| port.ci).toNat

/-- The slot, and the port with the command in it. -/
def build (port : HbaPort) (command : UInt8) (startl starth count : UInt32) (buf : UInt64) :
    Option (Nat × HbaPort) :=
  port.findCmdslot.map fun slot ↦
    -- a FIS has five words
    let cmdheader : HbaCmdHeader :=
      { port.clb slot with cfl := 5, w := false, prdtl := ((count - 1) >>> 4).toUInt16 + 1 }
    let tbl := (port.cmdtbl cmdheader.ctba).setup command startl starth count buf cmdheader.prdtl
    (slot, { port with
      isRwc := 0xffffffff
      clb := Function.update port.clb slot cmdheader
      cmdtbl := Function.update port.cmdtbl cmdheader.ctba tbl })

end HbaPort

/-- What the polls of the registers read, one after the other. -/
structure Polls where
  tfd : Nat → UInt32
  ci : Nat → UInt32
  isRwc : Nat → UInt32

namespace Polls

/-- The wait with `n` spins left: whether the port is ready before they are used up. -/
def ready (polls : Polls) : Nat → Nat → Bool
  | 0, _ => false
  | n + 1, k => polls.tfd k &&& (0x80 ||| 0x08) = 0 || ready polls n (k + 1)

/-- The wait for the command in `slot`: whether it is completed without an error. -/
def completed (polls : Polls) (slot : Nat) : Nat → Nat → Option Bool
  | 0, _ => none
  | fuel + 1, k =>
      if polls.ci k &&& (1 : UInt32) <<< slot.toUInt32 = 0 then some (polls.isRwc k &&& hbaPxIsTfes = 0)
      else if polls.isRwc k &&& hbaPxIsTfes ≠ 0 then some false
      else completed polls slot fuel (k + 1)

end Polls

/-- What is returned, what is printed, and the port with the command. -/
structure DiskReply where
  ret : Int
  printed : List String
  port : HbaPort

/-- The body of the two functions, which differ in the command and in what they print. -/
def transferDisk (command : UInt8) (print : String → List String) (polls : Polls) (fuel : Nat)
    (port : HbaPort) (startl starth count : UInt32) (buf : UInt64) : Option DiskReply :=
  match port.build command startl starth count buf with
  | none => some ⟨0, [], { port with isRwc := 0xffffffff }⟩
  | some (slot, port) =>
      if polls.ready 1000000 0 then
        let port := { port with ci := (1 : UInt32) <<< slot.toUInt32 }
        (polls.completed slot fuel 0).map fun done ↦
          if done then ⟨1, [], port⟩ else ⟨0, print "Read disk error\n", port⟩
      else some ⟨0, print "Port is hung\n", port⟩

def readFromDisk : Polls → Nat → HbaPort → UInt32 → UInt32 → UInt32 → UInt64 → Option DiskReply :=
  transferDisk ataCmdReadDmaEx fun text ↦ [text]

def writeToDisk : Polls → Nat → HbaPort → UInt32 → UInt32 → UInt32 → UInt64 → Option DiskReply :=
  transferDisk ataCmdWriteDmaEx fun _ ↦ []

end Sbunix
