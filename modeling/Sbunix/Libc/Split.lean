import Sbunix.Sys.Elf
import Sbunix.Sys.Kprintf

/-!
# Tokens (`libc/string.c`)

`split` copies the tokens of a string to the rows of a table that it allocates, and returns the row
of the token that was asked for.  Each call appends a separator to the string.
-/

namespace Sbunix

open Reasoning

/-- `_strcmp(a, b, len)`.  From behind the ends on the loop goes through what lies there, and the
index it stops at is no length of `a`. -/
def strcmpFrom (a b : CString) (len : Nat) : Int :=
  if a.length = b.length ∧ len + strcmpLoop (a.drop len) (b.drop len) = a.length then 0 else -1

/-- The rows of `argv2`: the first ten pointers of the twenty are initialised, and each row has 20
bytes. -/
abbrev Rows := Nat → Memory

/-- The variables of the loop. -/
structure SplitState where
  rows : Rows
  ss : Nat := 0
  d : Nat := 0
  d1 : Nat := 0
  fflag : Bool := false

namespace SplitState

/-- `argv2[ss][d] = c`; there is no row behind the tenth one, and no byte behind the twentieth. -/
def put (st : SplitState) (c : UInt8) : Option SplitState :=
  if st.ss < 10 ∧ st.d < 20 then
    some { st with rows := Function.update st.rows st.ss (Function.update (st.rows st.ss) st.d c) }
  else none

end SplitState

/-- The loop of `split` over the bytes of `argv1` that are left.  `puts` prints nothing: its `putchar`
returns the character only. -/
def splitLoop (argv1 : CString) (separator : UInt8) : CString → SplitState → Option SplitState
  | [], st => some st
  | c :: left, st =>
      if c = separator then
        (st.put 0).bind fun st ↦ splitLoop argv1 separator left
          { st with ss := st.ss + 1, d := 0, fflag := true, d1 := st.d1 + 1 }
      -- the other index stays behind
      else if c = 0 ∨ c = chr '0' then splitLoop argv1 separator left st
      else (st.put (argv1.getD st.d1 0)).bind fun st ↦ splitLoop argv1 separator left
        { st with d := st.d + 1, d1 := st.d1 + 1 }

/-- The string behind one more `argv1[_strlen_(argv1)]=separator`, in a buffer of zeros. -/
def withSeparator (argv1 : CString) (separator : UInt8) : CString :=
  if separator = 0 then argv1 else argv1 ++ [separator]

/-- `argv1=argv1+1` where the first byte is a separator. -/
def skipSeparator (argv1 : CString) (separator : UInt8) : CString :=
  if argv1.head? = some separator then argv1.tail else argv1

/-- `split(toknum, argv1, separator)`, with `rows` what `sb_malloc` leaves in the table: the token, or
NULL, and `argv1` behind the call. -/
def split (rows : Rows) (toknum : Nat) (argv1 : CString) (separator : UInt8) :
    Option (Option CString × CString) :=
  let buffer := withSeparator argv1 separator
  let argv1 := skipSeparator buffer separator
  (splitLoop argv1 separator argv1 { rows := rows }).bind fun st ↦
    if st.fflag = false then some (some argv1, buffer)
    else
      -- the rows from `ss - 1` on are emptied
      let ss := if st.ss = 1 ∨ st.ss = 0 then 2 else st.ss
      let rows : Rows := fun i ↦
        if ss - 1 ≤ i ∧ i < 10 then Function.update (st.rows i) 0 0 else st.rows i
      if toknum = 0 ∨ 10 < toknum then none
      else ((rows (toknum - 1)).cstring 20 0).map fun ans ↦
        (if strcmpFrom ans [] 1 ≠ 0 then some ans else none, buffer)

end Sbunix
