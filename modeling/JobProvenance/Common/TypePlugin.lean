import JobProvenance.Common.Attr
import JobProvenance.Lib.DigitOrder

/-!
# Type plugins

The order of attribute values, and the conversion of a value to the text of its
column in the index database, and to its full text. A plugin handles the
attributes of a namespace; the fallback plugin the others, and whatever a plugin
leaves out.
-/

namespace JobProvenance

/-- A type plugin: the namespace of its attributes, the order of their values, if
    it has one, which may leave values uncompared, and the conversions it has; a
    conversion may return the null pointer. -/
structure TplugData where
  ns : Bytes
  cmp : Option (Attrval → Attrval → Option Ordering)
  toDbFull : Option (Attrval → Exec (Option Bytes))
  toDbIndex : Option (Attrval → ℕ → Option Bytes)

/-- The namespace of an attribute name: what stands before its last colon. -/
def nameSpace (name : Bytes) : Bytes := (name.reverse.dropWhile (· ≠ ch ':')).tail.reverse

/-- The plugin of an attribute; `none` is the fallback plugin. -/
def getPlugin (plugins : List TplugData) (name : Bytes) : Option TplugData :=
  plugins.find? fun p => nameSpace name = p.ns

/-- The order of two values: of bytes, then of sizes; a string is not compared
    with a binary value. -/
def fbCmp (a b : Attrval) : Option Ordering :=
  if a.binary ≠ b.binary then none
  else if a.binary then
    let size := min a.size b.size
    some ((strcmp (a.value.take size) (b.value.take size)).then (compare a.size b.size))
  else some (strcmp (cstr a.value) (cstr b.value))

/-- The order of two values of an attribute, by its plugin. -/
def attrvalCmp (plugins : List TplugData) (a b : Attrval) : Option Ordering :=
  if a.name ≠ b.name then none
  else (((getPlugin plugins a.name).bind TplugData.cmp).getD fbCmp) a b

/-- The text of the column: binary values are not told apart, and strings are
    cut to its length. -/
def fbToDbIndex (a : Attrval) (len : ℕ) : Option Bytes :=
  if a.binary then some (ascii "XXX") else some ((cstr a.value).take len)

/-- The text of the column, by the plugin of the attribute. -/
def attrvalToDbIndex (plugins : List TplugData) (a : Attrval) (len : ℕ) : Option Bytes :=
  (((getPlugin plugins a.name).bind TplugData.toDbIndex).getD fbToDbIndex) a len

/-- The full text, by the plugin of the attribute. -/
def attrvalToDbFull (plugins : List TplugData) (b64 : Base64) (a : Attrval) : Exec (Option Bytes) :=
  (((getPlugin plugins a.name).bind TplugData.toDbFull).getD (fbToDbFull b64)) a

end JobProvenance
