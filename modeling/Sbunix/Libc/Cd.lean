import Sbunix.Libc.Split
import Sbunix.Sys.Tarfs

/-!
# The working directory of the shell (`libc/cd.c`)

`cd` takes the components of a path from `split`, one call after the other on the same string, and
edits a copy of the current directory.  It stops where the string ends with two slashes, and those are
the ones that `split` has appended.
-/

namespace Sbunix

def dot : CString := [chr '.']

def dotdot : CString := [chr '.', chr '.']

/-- The variables of `cd`; `newpath` stays where `tempbuf` is until the loop is left. -/
structure CdState where
  tempbuf : CString
  path : CString
  j : Nat := 0

/-- What the caller has behind the call: the result and its two strings. -/
structure CdReply where
  newpath : CString
  buf : CString
  path : CString

/-- `buf` without a slash at its end and with one at its front.  `temp` has 20 bytes. -/
def cdStart (buf : CString) : Option CString :=
  if buf = [] then none
  else
    let buf := if buf.getLast? = some slash then buf.dropLast else buf
    (if buf.head? = some slash then some buf
      else if buf.length + 2 ≤ 20 then some (slash :: buf) else none).map fun buf ↦
        if strcmpFrom buf [slash, slash] 0 = 0 then [slash] else buf

/-- `tempbuf` is cut at its last slash.  Without a slash the loop goes on below the buffer. -/
def parentDir (tempbuf : CString) : Option CString :=
  match tempbuf.reverse.dropWhile (· ≠ slash) with
  | [] => none
  | _ :: rest => some (if rest = [] then [slash] else rest.reverse)

/-- `newpath[buflen] = '/'` and the token behind it, in the 160 bytes of `tempbuf`. -/
def appendToken (tempbuf token : CString) : Option CString :=
  if tempbuf.length + 1 + token.length < 160 then some (tempbuf ++ slash :: token) else none

/-- What is left of an absolute `path`. -/
def absolutePath (path : CString) : Option CString :=
  if path.length ≤ 160 then some (if path.tail = [] then [slash] else path.tail) else none

/-- `path[_strlen_(path)-1]=='/' && path[_strlen_(path)-2]=='/'`. -/
def twoSlashes (path : CString) : Bool := [slash, slash].isSuffixOf path

namespace CdState

variable (rows : Nat → Rows)

/-- `j++; token=split(j,path,'/')`. -/
def nextToken (st : CdState) : Option (Option CString × CdState) :=
  (split (rows (st.j + 1)) (st.j + 1) st.path slash).map fun r ↦
    (r.1, { st with path := r.2, j := st.j + 1 })

/-- The body of the loop up to the check of `path`, and whether the loop is left before it. -/
def step (token : CString) (st : CdState) : Option (CdState × Bool) :=
  if strcmpFrom token dotdot 0 = 0 then
    (parentDir st.tempbuf).map fun tempbuf ↦ ({ st with tempbuf := tempbuf }, false)
  else if st.path.head? = some slash then
    (absolutePath st.path).map fun tempbuf ↦ ({ st with tempbuf := tempbuf }, true)
  else if strcmpFrom token dot 0 = 0 then
    -- the next token is appended, whatever it is
    (st.nextToken rows).bind fun r ↦ r.1.bind fun token ↦
      (appendToken r.2.tempbuf token).map fun tempbuf ↦ ({ r.2 with tempbuf := tempbuf }, false)
  else (appendToken st.tempbuf token).map fun tempbuf ↦ ({ st with tempbuf := tempbuf }, false)

/-- The loop of `cd`. -/
def loop : Nat → Option CString → CdState → Option CdState
  | 0, _, _ => none
  | _ + 1, none, st => some st
  | fuel + 1, some token, st => (st.step rows token).bind fun r ↦
      if r.2 ∨ twoSlashes r.1.path then some r.1
      else (r.1.nextToken rows).bind fun r ↦ loop fuel r.1 r.2

end CdState

/-- `cd(buf, path)`; `rows` has what each call of `split` finds in its table. -/
def cd (rows : Nat → Rows) (fuel : Nat) (buf path : CString) : Option CdReply :=
  (cdStart buf).bind fun buf ↦
    if buf.length < 160 then
      (CdState.nextToken rows { tempbuf := buf, path := path }).bind fun r ↦
        (CdState.loop rows fuel r.1 r.2).map fun st ↦ ⟨st.tempbuf, buf, st.path⟩
    else none

end Sbunix
