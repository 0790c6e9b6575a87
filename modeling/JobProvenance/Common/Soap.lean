import JobProvenance.Lib.CString

/-!
# Messages

The types of the messages the two servers and their clients exchange: values,
conditions, and the records of jobs a primary storage feeds an index server
with.
-/

namespace JobProvenance

/-- The operators of a condition. -/
inductive QueryOp
  | EQUAL
  | UNEQUAL
  | GREATER
  | LESS
  | WITHIN
  | EXISTS
  deriving DecidableEq

/-- A value: a string, some bytes, or malformed. -/
inductive StringOrBlob
  | string (s : Bytes)
  | blob (bytes : Bytes)
  | malformed
  deriving DecidableEq

/-- An origin. -/
inductive SoapAttrOrig
  | SYSTEM
  | USER
  | FILE
  deriving DecidableEq

/-- A condition on the jobs a primary storage feeds an index server with. -/
structure PrimaryQuery where
  attr : Bytes
  op : QueryOp
  origin : Option SoapAttrOrig
  value : Option StringOrBlob
  value2 : Option StringOrBlob
  deriving DecidableEq

/-- A request for a feed. -/
structure FeedRequest where
  destination : Option Bytes
  attributes : List Bytes
  conditions : List PrimaryQuery
  history : Bool
  continuous : Bool

/-- An attribute value of a message. -/
structure AttrValue where
  name : Bytes
  value : Option StringOrBlob
  timestamp : ℤ
  origin : SoapAttrOrig
  originDetail : Option Bytes
  deriving DecidableEq

/-- What is known of a job. -/
structure JobRecord where
  jobid : Option Bytes
  owner : Option Bytes
  attributes : List AttrValue
  remove : Option Bool
  deriving DecidableEq

/-- The message that feeds an index server. -/
structure UpdateJobs where
  feedId : Bytes
  feedDone : Bool
  jobAttributes : List JobRecord
  deriving DecidableEq

end JobProvenance
