import AgenticCore.Basic

/-!
# Invocations and owner results (`lib.rs`)

* `operationResult` : an owner's outcome against the effects its invocation declares.
* `admitInvocation` : a fresh invocation against a decision, or a retained one against its own
                      receipt.
-/

set_option autoImplicit false

namespace AgenticCore

open Json

def INVOCATION_KIND : String := "agentic-workspace/operation-invocation/v1"

structure Outcome where
  status : String
  effects : List String
  value : Value

def Outcome.ofValue (v : Value) : Result Outcome := do
  let field ← okOr (v.structFields ["status", "effects", "value"]) MALFORMED
  let status ← okOr ((field "status").bind Value.asStr) MALFORMED
  let effects ← match field "effects" with
    | none => pure []
    | some effects => do
      let items ← okOr effects.asArray MALFORMED
      items.mapM fun item => okOr item.asStr MALFORMED
  pure ⟨status, effects, (field "value").getD .null⟩

def operationResult (invocation outcome decision : Value) : Result Value := do
  let outcome ← Outcome.ofValue outcome
  check (outcome.status ∈ ["applied", "unchanged", "rejected"])
    "operation result status must be applied, unchanged, or rejected"
  let effects ← okOr (invocation.field "effects").asArray "invocation effects must be an array"
  check (∀ effect ∈ outcome.effects, Value.string effect ∈ effects)
    "operation result widened its declared effects"
  pure (.object [
    ("continuation_status", .string (if decision = .null then "unavailable" else "current")),
    ("dependency_revision", invocation.field "expected_dependency_revision"),
    ("effects", .strings outcome.effects),
    ("kind", .string "agentic-workspace/operation-result/v1"),
    ("next_decision", decision),
    ("operation_id", invocation.field "operation_id"),
    ("status", .string outcome.status),
    ("value", outcome.value)])

/-- Null is not an outcome. -/
theorem operationResult_ne_null {invocation outcome decision result : Value}
    (h : operationResult invocation outcome decision = .ok result) : outcome ≠ .null := by
  rintro rfl
  cases h

/-- The retained invocation's operation still means what it meant. -/
def retainedCurrent (decision invocation previous : Value) : Prop :=
  let revision := (previous.field "operation_revision").asStr
  revision ≠ none ∧ revision ≠ some "" ∧
    ((decision.field "operation_revisions").field
      ((previous.field "operation_id").asStr.getD "")).asStr = revision ∧
    (invocation.field "operation_revision").asStr = revision

instance (decision invocation previous : Value) :
    Decidable (retainedCurrent decision invocation previous) :=
  inferInstanceAs (Decidable (_ ∧ _ ∧ _ ∧ _))

/-- The invocation is one of the decision's ready actions. -/
def exactCurrent (decision invocation : Value) : Prop :=
  ∃ actions, (decision.field "ready_actions").asArray = some actions ∧ invocation ∈ actions

instance (decision invocation : Value) : Decidable (exactCurrent decision invocation) :=
  match h : (decision.field "ready_actions").asArray with
  | some actions => decidable_of_iff (invocation ∈ actions) (by simp [exactCurrent, h])
  | none => isFalse (by simp [exactCurrent, h])

def admitInvocation (decision invocation : Value) (previous : Option Value) : Result Value := do
  check ((invocation.field "kind").asStr = some INVOCATION_KIND) "unsupported invocation kind"
  check (∀ p ∈ previous, retainedCurrent decision invocation p)
    "retained result is incompatible with current operation semantics"
  check (previous = some invocation ∨ exactCurrent decision invocation)
    "invocation is stale or differs from the exact returned action"
  check (∀ p ∈ previous, p.get? "idempotency_key" = invocation.get? "idempotency_key")
    "receipt belongs to a different logical effect"
  pure (.object [
    ("disposition", .string (if previous.isSome then "replay" else "execute")),
    ("kind", .string "agentic-workspace/invocation-admission/v1")])

end AgenticCore
