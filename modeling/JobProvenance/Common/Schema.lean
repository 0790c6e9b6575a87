import JobProvenance.Lib.CString
import JobProvenance.Lib.Table

/-!
# Names in the databases

What the databases of both servers have in common: users are stored under the
hash of their names, and an attribute of the index server has a table and a
column named by the hash of its name in lower case.
-/

namespace JobProvenance

/-- A row of the table `users`. -/
structure UserRow where
  userid : Bytes
  certSubj : Bytes
  deriving DecidableEq

/-- The keys of `users`. -/
def UserRow.Clash (a b : UserRow) : Prop := a.userid = b.userid ∨ a.certSubj = b.certSubj

instance : DecidableRel UserRow.Clash := fun _ _ => inferInstanceAs (Decidable (_ ∨ _))

instance : Std.Symm UserRow.Clash := ⟨fun _ _ => Or.imp Eq.symm Eq.symm⟩

/-- A digit of a hash. -/
def isHexDigit (b : UInt8) : Bool :=
  (ch '0' ≤ b && b ≤ ch '9') || (ch 'a' ≤ b && b ≤ ch 'f')

/-- The text of an MD5 hash: 32 hexadecimal digits. -/
structure IsMd5 (md5 : Bytes → Bytes) : Prop where
  length : ∀ s, (md5 s).length = 32
  digits : ∀ s, ∀ b ∈ md5 s, isHexDigit b = true

/-- The hashes of two clients. -/
def sampleMd5 (s : Bytes) : Bytes :=
  if s = ascii "/CN=alice" then ascii "496dc9917875c0ef914af4751580f02d"
  else if s = ascii "/CN=bob" then ascii "969ccc59c320e44be0b7338b8be443f1"
  else ascii "ad921d60486366258809553a3db49a4a"

theorem isMd5_sampleMd5 : IsMd5 sampleMd5 where
  length s := by
    unfold sampleMd5
    split_ifs <;> decide
  digits s := by
    unfold sampleMd5
    split_ifs <;> exact List.all_eq_true.1 (by decide)

/-- The identifier of an attribute. -/
def attr2id (md5 : Bytes → Bytes) (name : Bytes) : Bytes := md5 (name.map tolower)

/-- The names of the attributes that are the job identifier, the owner and the
    time of the registration. -/
def GLITE_JP_ATTR_JOBID : Bytes := ascii "http://egee.cesnet.cz/en/Schema/JP/System:jobId"
def GLITE_JP_ATTR_OWNER : Bytes := ascii "http://egee.cesnet.cz/en/Schema/JP/System:owner"
def GLITE_JP_ATTR_REGTIME : Bytes := ascii "http://egee.cesnet.cz/en/Schema/JP/System:regtime"

end JobProvenance
