import Sbunix.Sys.Tarfs

/-!
# Files and directories (`sys/syscall.c`)

`openSyscall` looks a path up in the index of the archive, and `chdirSyscall` in the archive itself.
The process that runs them is the bytes of its PCB.
-/

namespace Sbunix

open Reasoning

/-! ## The PCB -/

namespace Pcb

/-- `MAX_FD`. -/
def maxFd : Nat := 30

/-- Where the compiler lays out the fields of `struct pcb`. -/
def fdOffset : Nat := 104

def curDirOffset : Nat := 356

def nextOffset : Nat := 392

/-- `sizeof(struct pcb)`. -/
def size : Nat := 400

/-- `fd[i]`; behind `fd[29]` lies `wait_on_childpid`. -/
def fdAt (pcb : Memory) (i : Nat) : Nat := pcb.load64 (fdOffset + 8 * i)

def setFd (pcb : Memory) (i v : Nat) : Memory := pcb.store64 (fdOffset + 8 * i) v

end Pcb

/-! ## Open and close -/

/-- The path with a slash at its end; `path[-1]` of an empty path is no byte of the model. -/
def withSlash (path : CString) : Option CString :=
  if path = [] then none
  else if path.getLast? = some slash then some path else some (path ++ [slash])

namespace Tarfs

/-- The search of `openSyscall` in the entries from `i` on, of which there are `left`: where the loop
ends, and whether it found the name. -/
def search (t : Tarfs) (path : CString) (type : Nat) : Nat → Nat → Nat × Bool
  | 0, i => (i, false)
  | left + 1, i =>
      if (t.root i).name.length = 0 then (i, false)
      else if strcmp (t.root i).name path = 0 ∧ (t.root i).typeflag = type then (i, true)
      else t.search path type left (i + 1)

/-- The search in the whole index. -/
def lookup (t : Tarfs) (path : CString) (type : Nat) : Nat × Bool :=
  t.search path type (t.tIndex - 1) 1

/-- The loop of `readdirSyscall` from entry `i` on; a name that is shorter than `len` is read behind
its end, which is no state of the model. -/
def readdirLoop (t : Tarfs) (parent len : Nat) : Nat → Nat → Option (List ConsoleOp)
  | 0, _ => some []
  | left + 1, i =>
      if (t.root i).parent = parent then
        if (t.root i).name.length < len then none
        else (t.readdirLoop parent len left (i + 1)).map fun ops ↦
          kprintf (cstr "%s     ") [.str ((t.root i).name.drop len)] ++ ops
      else t.readdirLoop parent len left (i + 1)

/-- `readdirSyscall(dir)`. -/
def readdirSyscall (t : Tarfs) (dir : Nat) : Option (Nat × List ConsoleOp) :=
  let parent := dir % 2 ^ 32
  if 512 ≤ parent then none
  else (t.readdirLoop parent (t.root parent).name.length (t.tIndex - 1) 1).map fun ops ↦
    (0, kprintf (cstr ".     ") [] ++ kprintf (cstr "..     ") [] ++ ops)

end Tarfs

/-- `while ((current->fd[++count] != 0) && count < MAX_FD)` at `count`, `left` before `MAX_FD`. -/
def scanFd (pcb : Memory) : Nat → Nat → Nat
  | 0, count => count
  | left + 1, count => if Pcb.fdAt pcb count ≠ 0 then scanFd pcb left (count + 1) else count

/-- What a call returns and prints, and the PCB behind it. -/
structure Reply where
  ret : Int
  ops : List ConsoleOp
  pcb : Memory

/-- `openSyscall(path, mode)`. -/
def openSyscall (t : Tarfs) (pcb : Memory) (path : CString) (mode : Nat) : Option Reply :=
  if mode = 0 then
    match t.lookup path Fnode.file with
    | (i, true) =>
        -- `fd[count]` is written before the bound is tested
        let count := scanFd pcb (Pcb.maxFd - 3) 3
        let pcb := Pcb.setFd pcb count i
        if Pcb.maxFd ≤ count then
          some ⟨-1, kprintf (cstr "Process cannot open any more files.Max Limit of %d reached\n")
            [.int Pcb.maxFd], pcb⟩
        else some ⟨count, [], pcb⟩
    | (i, false) =>
        some ⟨-1, if i = t.tIndex then kprintf (cstr "No such file exists.") [] else [], pcb⟩
  else if mode = 4 then
    -- the root has no entry
    if path = [slash] then some ⟨0, [], pcb⟩
    else (withSlash path).map fun path ↦
      match t.lookup path Fnode.directory with
      | (i, true) => ⟨i, [], pcb⟩
      | (i, false) =>
          ⟨-1, if i = t.tIndex then kprintf (cstr "No such directory exists.") [] else [], pcb⟩
  else some ⟨-1, [], pcb⟩

/-- `sys_close(fd)`; a store before the PCB is no state of the model. -/
def sysClose (pcb : Memory) (fd : Int) : Option Reply :=
  if fd ≤ Pcb.maxFd then
    if (Pcb.fdOffset : Int) + 8 * fd < 0 then none
    else some ⟨0, [], pcb.store64 (Pcb.fdOffset + 8 * fd).toNat 0⟩
  else some ⟨1, [], pcb⟩

/-! ## The working directory -/

/-- `chdirSyscall(path)`, with the archive at `start`. -/
def Machine.chdirSyscall (s : Machine) (fuel start : Nat) (pcb : Memory) (path : CString) :
    Option Reply :=
  (withSlash path).bind fun path ↦
    (s.isDir path fuel start).map fun dir ↦
      if dir = 0 then ⟨0, kprintf (cstr "No such file of directory") [], pcb⟩
      else ⟨1, [], pcb.putBytes Pcb.curDirOffset path⟩

/-- The bytes that `getpwdSyscall` copies out. -/
def getpwdSyscall (pcb : Memory) (fuel : Nat) : Option CString := pcb.cstring fuel Pcb.curDirOffset

end Sbunix
