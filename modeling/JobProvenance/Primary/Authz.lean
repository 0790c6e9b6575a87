import JobProvenance.Primary.FileHandles
import JobProvenance.Primary.Requests

/-!
# Authorization

Who may call the operations of a primary storage: trusted peers register jobs and
upload files, and what concerns a job is for its owner, unless the server was told not
to look. The peer of a connection is the name of its client, or the null pointer for a
client without one, and it is compared as it is.

* `authz`: the decision for an operation, of which `authzTrusted` and `authzOwner` are
  parts (`authz_registerJob`, `authz_recordTag`);
* `authzExact_iff`: it grants exactly what is to be granted when no name is compared
  with a missing one.
-/

namespace JobProvenance

/-! ## Connections -/

/-- The client of a connection. -/
structure GssPrinc where
  name : Bytes
  anon : Bool

/-- The peer of a new connection: there is none when the client is not known, or does not
    say who it is. -/
def newconnPeer (client : Option GssPrinc) : Option Bytes :=
  match client with
  | none => none
  | some client => if client.anon then none else some client.name

/-! ## Operations -/

/-- The code of an operation. -/
inductive AuthzOp
  | RegisterJob
  | StartUpload
  | CommitUpload
  | GetJobFiles
  | GetJobAttributes
  | RecordTag
  | unknown (op : ℤ)
  deriving DecidableEq

namespace AuthzOp

/-- The operation is for trusted peers. -/
def IsForTrusted (op : AuthzOp) : Prop := op = RegisterJob ∨ op = StartUpload ∨ op = CommitUpload

/-- The operation is for the owner of a job. -/
def IsForOwner (op : AuthzOp) : Prop :=
  op = GetJobFiles ∨ op = GetJobAttributes ∨ op = RecordTag

instance (op : AuthzOp) : Decidable op.IsForTrusted := inferInstanceAs (Decidable (_ ∨ _))

instance (op : AuthzOp) : Decidable op.IsForOwner := inferInstanceAs (Decidable (_ ∨ _))

end AuthzOp

/-- Looks for the peer in the list of trusted peers. -/
def authzPeers (ctx : PsContext) : Exec (ℤ × Option ErrorReport) := do
  if ← authzTrusted ctx then return (0, none)
  else
    let err : ErrorReport := ⟨some .EPERM, some (ascii "you are not a trusted peer")⟩
    return (retCode (stackError err), some err)

/-- Compares the peer with the owner of a job, who is given. -/
def authzJob (ctx : PsContext) (owner : Option Bytes) : Exec (ℤ × Option ErrorReport) := do
  let owner ← Exec.deref owner
  if ← authzOwner ctx owner then return (0, none)
  else return (1, some ⟨some .EPERM, some (ascii "you are not a job owner")⟩)

/-- Whether the peer may call an operation: zero if so, and the error otherwise. -/
def authz (ctx : PsContext) (op : AuthzOp) (owner : Option Bytes) :
    Exec (ℤ × Option ErrorReport) :=
  match op with
  | .RegisterJob => authzPeers ctx
  | .StartUpload => authzPeers ctx
  | .CommitUpload => authzPeers ctx
  | .GetJobFiles => authzJob ctx owner
  | .GetJobAttributes => authzJob ctx owner
  | .RecordTag => authzJob ctx owner
  | .unknown op =>
    let err : ErrorReport := ⟨some .EINVAL, some (printDec op ++ ascii ": unknown operation")⟩
    .ok (retCode (stackError err), some err)

/-- What is to be granted: to a trusted peer its operations, to the owner of a job those on
    it, and these to everyone on a server that does not look at the owner. -/
def Granted (ctx : PsContext) (op : AuthzOp) (owner : Option Bytes) : Prop :=
  op.IsForTrusted ∧ (∃ peer ∈ ctx.peer, peer ∈ ctx.trustedPeers) ∨
    op.IsForOwner ∧ (ctx.noauth = true ∨ ∃ peer ∈ ctx.peer, owner = some peer)

/-- The decision is made, and it is zero exactly for what is to be granted. -/
def AuthzExact (ctx : PsContext) (op : AuthzOp) (owner : Option Bytes) : Prop :=
  ∃ r, authz ctx op owner = .ok r ∧ (r.1 = 0 ↔ Granted ctx op owner)

/-! ## The parts -/

section Parts

variable {ctx : PsContext} {owner peer : Bytes}

/-- The peer is looked up, if it is known. -/
theorem authzTrusted_of_peer (h : ctx.peer = some peer) :
    authzTrusted ctx = .ok (ctx.trustedPeers.any (· = peer)) := by
  unfold authzTrusted
  rw [h]
  exact List.anyM_pure

/-- A peer that is not known is compared with the first one that is trusted. -/
theorem authzTrusted_anonymous (h : ctx.peer = none) :
    authzTrusted ctx = if ctx.trustedPeers = [] then .ok false else .error .fault := by
  unfold authzTrusted
  rw [h]
  cases ctx.trustedPeers with
  | nil => rfl
  | cons trusted rest => rfl

theorem authzOwner_of_peer (h : ctx.peer = some peer) :
    authzOwner ctx owner = .ok (ctx.noauth || decide (owner = peer)) := by
  unfold authzOwner
  rw [h]
  cases ctx.noauth <;> rfl

theorem authzOwner_anonymous (h : ctx.peer = none) :
    authzOwner ctx owner = if ctx.noauth then .ok true else .error .fault := by
  unfold authzOwner
  rw [h]
  rfl

/-- Jobs are registered by the peers that are found. -/
theorem authz_registerJob (ctx : PsContext) (owner : Option Bytes) :
    (authz ctx .RegisterJob owner).map (fun r => decide (r.1 = 0)) = authzTrusted ctx := by
  rw [authz, authzPeers]
  cases authzTrusted ctx with
  | error e => rfl
  | ok found => cases found <;> rfl

/-- Jobs are tagged by their owners. -/
theorem authz_recordTag (ctx : PsContext) (owner : Bytes) :
    (authz ctx .RecordTag (some owner)).map (fun r => decide (r.1 = 0)) = authzOwner ctx owner := by
  rw [authz, authzJob, Exec.deref, Exec.ok_bind]
  cases authzOwner ctx owner with
  | error e => rfl
  | ok same => cases same <;> rfl

/-- A decision that is made is zero exactly when the comparison says so. -/
theorem exists_authzPeers_iff {p : Prop} :
    (∃ r, authzPeers ctx = .ok r ∧ (r.1 = 0 ↔ p)) ↔
      ∃ found, authzTrusted ctx = .ok found ∧ (found = true ↔ p) := by
  unfold authzPeers
  cases authzTrusted ctx with
  | error e => exact iff_of_false (fun ⟨_, h, _⟩ => nomatch h) fun ⟨_, h, _⟩ => nomatch h
  | ok found =>
    cases found with
    | true => simp [pure, Except.pure]
    | false => simp [pure, Except.pure, retCode, stackError, Errno.code]

theorem exists_authzJob_iff {p : Prop} :
    (∃ r, authzJob ctx (some owner) = .ok r ∧ (r.1 = 0 ↔ p)) ↔
      ∃ same, authzOwner ctx owner = .ok same ∧ (same = true ↔ p) := by
  rw [authzJob, Exec.deref, Exec.ok_bind]
  cases authzOwner ctx owner with
  | error e => exact iff_of_false (by rintro ⟨_, ⟨⟩, _⟩) (by rintro ⟨_, ⟨⟩, _⟩)
  | ok same =>
    cases same with
    | true => simp [pure, Except.pure]
    | false => simp [pure, Except.pure]

end Parts

/-! ## Exactness -/

section Exact

variable {ctx : PsContext} {op : AuthzOp} {owner : Option Bytes}

theorem AuthzOp.not_isForOwner (h : op.IsForTrusted) : ¬op.IsForOwner := by
  obtain rfl | rfl | rfl := h <;> decide

theorem AuthzOp.isForTrusted_or (op : AuthzOp) :
    op.IsForTrusted ∨ op.IsForOwner ∨ ∃ n, op = .unknown n := by
  cases op with
  | RegisterJob => exact .inl (by decide)
  | StartUpload => exact .inl (by decide)
  | CommitUpload => exact .inl (by decide)
  | GetJobFiles => exact .inr (.inl (by decide))
  | GetJobAttributes => exact .inr (.inl (by decide))
  | RecordTag => exact .inr (.inl (by decide))
  | unknown n => exact .inr (.inr ⟨n, rfl⟩)

theorem AuthzOp.not_isForTrusted (h : op.IsForOwner) : ¬op.IsForTrusted :=
  fun h' => AuthzOp.not_isForOwner h' h

theorem authz_of_isForTrusted (h : op.IsForTrusted) : authz ctx op owner = authzPeers ctx := by
  obtain rfl | rfl | rfl := h <;> rfl

theorem authz_of_isForOwner (h : op.IsForOwner) : authz ctx op owner = authzJob ctx owner := by
  obtain rfl | rfl | rfl := h <;> rfl

/-- The operations of trusted peers, which need a known peer where someone is trusted. -/
theorem authzExact_iff_of_isForTrusted (h : op.IsForTrusted) :
    AuthzExact ctx op owner ↔ ctx.peer ≠ none ∨ ctx.trustedPeers = [] := by
  have hgranted : Granted ctx op owner ↔ ∃ peer ∈ ctx.peer, peer ∈ ctx.trustedPeers :=
    ⟨fun hg => (hg.resolve_right fun ho => AuthzOp.not_isForOwner h ho.1).2, fun hp => .inl ⟨h, hp⟩⟩
  rw [AuthzExact, authz_of_isForTrusted h, exists_authzPeers_iff, hgranted]
  cases hpeer : ctx.peer with
  | some peer =>
    refine iff_of_true ⟨_, authzTrusted_of_peer hpeer, ?_⟩ (.inl nofun)
    simp
  | none =>
    rw [authzTrusted_anonymous hpeer]
    split_ifs with hlist
    · exact iff_of_true ⟨false, rfl, by simp⟩ (.inr hlist)
    · exact iff_of_false (fun ⟨_, h, _⟩ => nomatch h) fun h => h.elim (· rfl) hlist

/-- The operations of owners, who have to be given, and which need a known peer unless the
    server does not look. -/
theorem authzExact_iff_of_isForOwner (h : op.IsForOwner) :
    AuthzExact ctx op owner ↔ owner ≠ none ∧ (ctx.peer ≠ none ∨ ctx.noauth = true) := by
  have hgranted : Granted ctx op owner ↔ ctx.noauth = true ∨ ∃ peer ∈ ctx.peer, owner = some peer :=
    ⟨fun hg => (hg.resolve_left fun ht => AuthzOp.not_isForTrusted h ht.1).2,
      fun hp => .inr ⟨h, hp⟩⟩
  rw [AuthzExact, authz_of_isForOwner h]
  cases howner : owner with
  | none => exact iff_of_false (fun ⟨_, h, _⟩ => nomatch h) fun h => h.1 rfl
  | some owner =>
    rw [howner] at hgranted
    rw [exists_authzJob_iff, hgranted]
    cases hpeer : ctx.peer with
    | some peer =>
      refine iff_of_true ⟨_, authzOwner_of_peer hpeer, ?_⟩ ⟨nofun, .inl nofun⟩
      simp
    | none =>
      rw [authzOwner_anonymous hpeer]
      split_ifs with hnoauth
      · exact iff_of_true ⟨true, rfl, by simp [hnoauth]⟩ ⟨nofun, .inr hnoauth⟩
      · exact iff_of_false (fun ⟨_, h, _⟩ => nomatch h) fun h => h.2.elim (· rfl) hnoauth

/-- What is granted is exactly what is to be granted when the owner is given to the
    operations that need one, and the peer of the connection is known, or is not looked at:
    nobody is trusted, the server does not look at the owner, or there is no such
    operation. -/
theorem authzExact_iff (ctx : PsContext) (op : AuthzOp) (owner : Option Bytes) :
    AuthzExact ctx op owner ↔ (op.IsForOwner → owner ≠ none) ∧
      (ctx.peer ≠ none ∨ (op.IsForTrusted → ctx.trustedPeers = []) ∧
        (op.IsForOwner → ctx.noauth = true)) := by
  rcases op.isForTrusted_or with h | h | ⟨n, rfl⟩
  · have hno := AuthzOp.not_isForOwner h
    rw [authzExact_iff_of_isForTrusted h]
    simp [h, hno]
  · have hno := AuthzOp.not_isForTrusted h
    rw [authzExact_iff_of_isForOwner h]
    simp [h, hno]
  · have htrusted : ¬(AuthzOp.unknown n).IsForTrusted := by rintro (h | h | h) <;> cases h
    have howner : ¬(AuthzOp.unknown n).IsForOwner := by rintro (h | h | h) <;> cases h
    refine iff_of_true ⟨_, rfl, ?_⟩
      ⟨fun h => absurd h howner, .inr ⟨fun h => absurd h htrusted, fun h => absurd h howner⟩⟩
    exact iff_of_false (show (22 : ℤ) ≠ 0 by decide) fun h =>
      h.elim (fun h => htrusted h.1) fun h => howner h.1

end Exact

/-- A slave with a client that does not say who it is. -/
def anonymousContext : PsContext where
  peer := newconnPeer (some ⟨ascii "<anonymous>", true⟩)
  noauth := false
  trustedPeers := []

/-- The request of such a client for the attributes of a job ends the slave. -/
theorem anonymous_getJobAttributes :
    authz anonymousContext .GetJobAttributes (some (ascii "/CN=owner")) = .error .fault ∧
      ¬AuthzExact anonymousContext .GetJobAttributes (some (ascii "/CN=owner")) :=
  ⟨rfl, fun ⟨_, h, _⟩ => nomatch h⟩

end JobProvenance
