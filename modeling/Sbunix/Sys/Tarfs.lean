import Sbunix.Sys.Console
import Sbunix.Sys.Elf
import Mathlib.Data.List.DropRight

/-!
# The index of the archive (`sys/tarfs.c`)

At boot `init_tarfs` walks the archive and makes an entry in `root[]` for each member, with the index
of the directory that it lies in.  `isFile` and `isDir` walk the archive itself.
-/

namespace Sbunix

open Reasoning

/-- `fnode`.  The array `name[100]` is its string. -/
structure Fnode where
  name : CString := []
  size : Int := 0
  typeflag : Nat := 0
  start : Nat := 0
  parent : Nat := 0

namespace Fnode

/-- `FILE`. -/
def file : Nat := 1

/-- `DIRECTORY`. -/
def directory : Nat := 2

end Fnode

/-- `root[512]` and `t_index`. -/
structure Tarfs where
  root : Nat → Fnode
  tIndex : Nat

def slash : UInt8 := chr '/'

/-- `while (name[len] != '/')` from `len` on: where the slash is, or `none` when `len` gets down to 0;
the outer `none` is a read before the array. -/
def slashBefore (name : CString) : Nat → Option (Option Nat)
  | 0 => if name.getD 0 0 = slash then some (some 0) else none
  | len + 1 =>
      if name.getD (len + 1) 0 = slash then some (some (len + 1))
      else if len = 0 then some none
      else slashBefore name len

def makeNode (parent : Nat) (name : CString) (start : Nat) (size : Int) (type : Nat) : Fnode :=
  { name := name, start := start, size := size, typeflag := type, parent := parent }

namespace Tarfs

/-- The globals before `init_tarfs`. -/
def init : Tarfs := ⟨fun _ ↦ {}, 1⟩

/-- `root[t_index++] = temp`; a store behind the array is no state of the model. -/
def add (t : Tarfs) (temp : Fnode) : Option Tarfs :=
  if t.tIndex < 512 then some ⟨Function.update t.root t.tIndex temp, t.tIndex + 1⟩ else none

/-- The search of `parse` for an entry from `j` on, of which there are `left`. -/
def findParent (t : Tarfs) (name : CString) : Nat → Nat → Option Nat
  | 0, _ => none
  | left + 1, j =>
      if strcmp name (t.root j).name = -1 then t.findParent name left (j + 1) else some j

/-- `parse(path, type, start, size)`.  The test `start==FILE` is the source's. -/
def parse (t : Tarfs) (path : CString) (type start : Nat) (size : Int) : Option Tarfs :=
  let back := if start = Fnode.file then 1 else 2
  -- the copy of the path has 100 bytes
  if path.length < back ∨ 100 ≤ path.length then none
  else
    match slashBefore path (path.length - back) with
    | none => none
    | some none => t.add (makeNode 0 path start size type)
    | some (some len) =>
        match t.findParent (path.take (len + 1)) (t.tIndex - 1) 1 with
        | some j => t.add (makeNode j path start size type)
        | none => some t

end Tarfs

namespace Machine

/-- `init_tarfs()` from the header at `start` on; `none` when a read faults, `fuel` does not suffice,
or `parse` leaves its arrays. -/
def initTarfs (s : Machine) : Nat → Nat → Tarfs → Option Tarfs
  | 0, _, _ => none
  | fuel + 1, start, t =>
      (s.readString fuel (start + 257)).bind fun magic ↦
        if strcmp magic (cstr "ustar") = 0 then
          (s.oct2bin (start + 124)).bind fun size ↦
          (s.readString fuel (start + 156)).bind fun typeflag ↦
          (s.readString fuel start).bind fun name ↦
          (if strcmp typeflag (cstr "5") = 0 then t.parse name Fnode.directory start 0
            else t.parse name Fnode.file start size).bind fun t ↦
            s.initTarfs fuel ((start + 512 + blocks size) % 2 ^ 64).toNat t
        else some t

/-- The common body of `isFile` and `isDir` from the header at `start` on: the address behind the
header of a member with this name and this type, or NULL. -/
def findTyped (s : Machine) (type filename : CString) : Nat → Nat → Option Nat
  | 0, _ => none
  | fuel + 1, start =>
      (s.readString fuel (start + 257)).bind fun magic ↦
        if strcmp magic (cstr "ustar") = 0 then
          (s.oct2bin (start + 124)).bind fun size ↦
          (s.readString fuel start).bind fun name ↦
          (if strcmp name filename = 0 then
            (s.readString fuel (start + 156)).map fun typeflag ↦ decide (strcmp typeflag type = 0)
            else some false).bind fun found ↦
            if found then some ((start + 512) % 2 ^ 64)
            else s.findTyped type filename fuel ((start + 512 + blocks size) % 2 ^ 64).toNat
        else some 0

def isFile (s : Machine) (filename : CString) (fuel start : Nat) : Option Nat :=
  s.findTyped (cstr "0") filename fuel start

def isDir (s : Machine) (filename : CString) (fuel start : Nat) : Option Nat :=
  s.findTyped (cstr "5") filename fuel start

end Machine

end Sbunix
