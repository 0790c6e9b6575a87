import JobProvenance.Common.Attr
import JobProvenance.Common.Soap

/-!
# Query records

The conditions of queries as both servers handle them, between the messages they
come from or go to.
-/

namespace JobProvenance

/-- The operators of a query record; a record that is not filled in has
    `UNDEF`. -/
inductive JpQueryOp
  | UNDEF
  | EQUAL
  | UNEQUAL
  | LESS
  | GREATER
  | WITHIN
  | EXISTS
  deriving DecidableEq

/-- A query record: `value` and `value2` are what the pointers point to, null or
    not. -/
structure QueryRec where
  attr : Bytes
  op : JpQueryOp
  value : Option Bytes
  value2 : Option Bytes
  binary : Bool
  size : ℕ
  size2 : ℕ
  origin : AttrOrig
  deriving DecidableEq

/-- A record of zeroes but for its attribute. -/
def QueryRec.zero (attr : Bytes) : QueryRec where
  attr := attr
  op := .UNDEF
  value := none
  value2 := none
  binary := false
  size := 0
  size2 := 0
  origin := .any

/-- The origin of a condition: any, where there is none. -/
def soapToAttrOrig : Option SoapAttrOrig → AttrOrig
  | none => .any
  | some .SYSTEM => .system
  | some .USER => .user
  | some .FILE => .file

/-- Copies bytes to where a pointer points: it must not be null, also when there
    is nothing to copy. -/
def memcpy (dst : Option Bytes) (src : Bytes) : Exec Bytes := do
  let buf ← Exec.deref dst
  if src.length ≤ buf.length then .ok (src ++ buf.drop src.length) else .error .fault

end JobProvenance
