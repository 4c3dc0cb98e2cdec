import AgenticCore.PlanningProposal
import AgenticCore.EffectEvidence

/-!
# Reconciliation of a former Planning owner (`planning.rs`)

* `former`             : the admitted document without its native provenance.
* `material`           : the nine sections its durable form is regrouped into.
* `semanticSubject`    : the state without attempt and evidence bookkeeping.
* `reconciliation`     : the observed subject with its coverage.
* `reconciliation_complete` : **what a complete reconciliation shows determines the document, and a
                         subject's revision changes with its meaning only.**
-/

set_option autoImplicit false

namespace AgenticCore.PlanningReconciliation

open Json Text AttemptStore
open Repository (evidenceValue)
open PlanningUpdate (durable FIELD PROPOSAL PROVENANCE ASSURANCE)

/-! ## The source -/

/-- The parts of the program that admit a source, and the libraries. The provenance checks of
    `native_planning_create` and `native_planning_update` tell whether a document carries an
    envelope of theirs. -/
structure Host where
  readSource : String → Evidence → Result Value
  canonicalize : String → Result String
  inspectOrigin : String → String → Value → Result Bool
  inspectUpdate : String → String → Value → Result Bool
  portableCreation : String → Value → Result Bool
  portableUpdate : String → Value → Result Bool
  /-- The document against the canonical assurance and optional properties. -/
  assuranceAccepts : Value → Bool

structure Input where
  target : String
  source : Option Evidence
  irrelevantHistory : Bool

def NATIVE : List String := ["creation_provenance", PROVENANCE]

/-- The `former_execplan` schema: other members are allowed. -/
def formerShape (body : Value) : Bool :=
  body.get? "kind" = some (.string "planning-execplan/v1") &&
  ((body.get? "id").bind Value.asStr).any (· ≠ "") &&
  ["lifecycle", "phase", "next_action"].all (fun key =>
    ((body.get? key).bind Value.asStr).isSome) &&
  ["intent", "scope", "proof", "continuation", "relationships"].all (fun key =>
    (body.get? key).any Value.isObject) &&
  (body.get? "canonical_core").all fun core => core = .null || core.isObject

variable (host : Host)

/-- An envelope of this target, or a portable one. -/
def enveloped (inspected : Bool) (portable : Result Bool) : Result Bool :=
  if inspected then pure true else portable

/-- The admitted document without the native envelopes, which are checked against the whole of it. -/
def former (input : Input) (source : Evidence) : Result Value := do
  check (source.owner = "planning")
    "former source is not admitted as Planning-owned; preserve and route its disposition"
  let body ← host.readSource input.target source
  let target ← host.canonicalize input.target
  let origin ← host.inspectOrigin target source.path body
  let update ← host.inspectUpdate target source.path body
  let created ← enveloped origin (host.portableCreation source.path body)
  let updated ← enveloped update (host.portableUpdate source.path body)
  let body := if created then body.remove "creation_provenance" else body
  let body := if updated then body.remove PROVENANCE else body
  check (formerShape body = true) "invalid former Planning source; preserve it"
  pure body

/-! ## The subject -/

/-- The durable document's sections. Each literal lists its members in the order of their names;
    those of a declaration that is absent are left out. -/
def sections (body : Value) : List (String × Option Value) :=
  let relationships := body.field "relationships"
  [
    ("assignment_inputs", body.get? "assignment_inputs"),
    ("canonical_core", body.field "canonical_core"),
    ("constraints", Value.record [("bounds", body.field "execution_bounds"),
      (FIELD, body.get? FIELD), ("non_goals", body.field "non_goals")]),
    ("dependencies", Value.record [("declared", relationships.field "dependencies"),
      ("external_posture", relationships.field "external_posture"), ("parent", body.field "parent"),
      ("references", body.field "references")]),
    ("frontier", Value.record [("blockers", body.field "blockers"),
      ("lifecycle", body.field "lifecycle"), ("next_action", body.field "next_action"),
      ("phase", body.field "phase")]),
    ("handoff", Value.record [("assignment", relationships.field "assignment"),
      ("contracts", body.field "specialist_contracts"),
      ("delegation", relationships.field "delegation"),
      ("integration_pending", relationships.field "integration_pending"),
      ("returned", relationships.field "returned")]),
    ("outcome", Value.record [("goals", body.field "goal"), ("intent", body.field "intent")]),
    ("proof", Value.record [("adaptive_assurance", body.get? "adaptive_assurance"),
      ("commands", body.field "validation_commands"),
      ("completion_criteria", body.field "completion_criteria"), ("declared", body.field "proof"),
      ("invariant_refs", body.get? "invariant_refs"),
      ("posture", relationships.field "proof_posture"),
      ("risk_registry_refs", body.get? "risk_registry_refs")]),
    ("residual", Value.record [("continuation", body.field "continuation"),
      (PROPOSAL, body.get? PROPOSAL), ("intent_continuity", body.field "intent_continuity")]),
    ("scope", Value.record [("declared", body.field "scope"),
      ("owner_level", body.field "owner_level"), ("paths", body.field "touched_paths"),
      ("selection", relationships.field "selection")])]

def material (body : Value) : Value := .record (sections body)

/-- `&mut v[key]` through a function. -/
def updateIn (v : Value) (key : String) (f : Value → Value) : Value := v.insert key (f (v.field key))

def without (keys : List String) (v : Value) : Value := keys.foldl Value.remove v

/-- A record of the handoff, with its observations. -/
def RECORDS : List (String × List String) :=
  [("assignment", ["attempt", "attempt_id", "run_id", "status", "started_at", "updated_at"]),
    ("returned", ["result", "result_id", "status", "received_at", "updated_at"]),
    ("integration_pending", ["result", "result_id", "status", "received_at", "updated_at"])]

def emptied (v : Value) : Value := if v = .null then .object [] else v

def semanticSubject (state : Value) : Value :=
  let subject := updateIn state "frontier" (without ["lifecycle", "phase"])
  let subject := updateIn subject "proof" fun proof => updateIn proof "declared" (without ["refs"])
  RECORDS.foldl (fun subject record => updateIn subject "handoff" fun handoff =>
    updateIn handoff record.1 fun value => without record.2 (emptied value)) subject

/-! ## Coverage -/

def known : List String :=
  ["assignment_inputs", "kind", "id", "title", "owner_level", "revision", "intent", "goal",
    "canonical_core", "scope", "touched_paths", "parent", "references", "non_goals",
    "execution_bounds", "lifecycle", "phase", "next_action", "blockers", "proof",
    "validation_commands", "completion_criteria", "relationships", "specialist_contracts",
    "continuation", "intent_continuity", "material_lifetimes", "integration_proposal"]

def knownRelationships : List String :=
  ["selection", "proof_posture", "external_posture", "delegation", "dependencies", "assignment",
    "returned", "integration_pending"]

/-- The keys of a document that no section holds. -/
def unknown (members : List (String × Value)) : List String :=
  (members.map Prod.fst).filter fun key => key ∉ known ∧ key ∉ ASSURANCE

def history (input : Input) (key : String) : Bool := input.irrelevantHistory && key = "drift_log"

def ambiguity (input : Input) (body : Value) (members : List (String × Value)) : List String :=
  (unknown members).filter (fun key => !history input key) ++
    (((body.field "relationships").asObject.getD []).map Prod.fst
      |>.filter (· ∉ knownRelationships)).map fun key => "relationships." ++ key

def omitted (input : Input) (members : List (String × Value)) : List String :=
  (unknown members).filter (history input)

/-- `digest` is SHA-256 of a serialised value. -/
def reconciliation (digest : Value → String) (input : Input) : Result Value := do
  let source ← okOr input.source "Planning source admission required"
  let body ← former host input source
  let id ← okOr ((body.field "id").asStr.filter (· ≠ "")) "former Planning subject identity missing"
  let body := durable body
  check (host.assuranceAccepts body = true)
    "invalid Planning assurance declaration; preserve source"
  let members ← okOr body.asObject "former source must be an object"
  let target ← host.canonicalize source.target
  let subjectId := "planning:" ++
    digest (.object [("id", .string id), ("target", .string target)])
  pure (.object [
    ("coverage", .object [("ambiguities", .strings (ambiguity input body members)),
      ("complete", .bool (ambiguity input body members).isEmpty),
      ("omitted_history", .strings (omitted input members))]),
    ("former_source", evidenceValue source), ("former_source_retained", .bool true),
    ("kind", .string "agentic-planning/reconciliation/v1"), ("owner", .string "planning"),
    ("subject", .object [("id", .string subjectId), ("label", body.field "title"),
      ("revision", .string (digest (semanticSubject (material body)))),
      ("state", material body)])])

/-! ## The sections determine the document -/

/-- What names an owner and its revision, which no section holds. -/
def IDENTITY : List String := ["kind", "id", "title", "revision"]

/-- The known members that the sections hold whole. -/
def sectioned : List String :=
  ["assignment_inputs", "owner_level", "intent", "goal", "canonical_core", "scope",
    "touched_paths", "parent", "references", "non_goals", "execution_bounds", "lifecycle", "phase",
    "next_action", "blockers", "proof", "validation_commands", "completion_criteria",
    "specialist_contracts", "continuation", "intent_continuity", "material_lifetimes",
    "integration_proposal", "adaptive_assurance", "risk_registry_refs", "invariant_refs"]

/-- Equal sections come from documents with the same members. -/
theorem material_inj {a b : Value} (h : material a = material b) :
    (∀ key ∈ sectioned, a.field key = b.field key) ∧
      ∀ key ∈ knownRelationships,
        (a.field "relationships").field key = (b.field "relationships").field key := by
  simp only [material, sections] at h
  have hsections := record_inj (by simp [FIELD, PROPOSAL]) (by rfl) h
  simp only [List.cons.injEq, Prod.mk.injEq, Option.some.injEq, true_and, and_true] at hsections
  obtain ⟨hinputs, hcore, hconstraints, hdependencies, hfrontier, hhandoff, houtcome, hproof,
    hresidual, hscope⟩ := hsections
  have hconstraints := record_inj (by simp [FIELD]) (by rfl) hconstraints
  have hdependencies := record_inj (by simp) (by rfl) hdependencies
  have hfrontier := record_inj (by simp) (by rfl) hfrontier
  have hhandoff := record_inj (by simp) (by rfl) hhandoff
  have houtcome := record_inj (by simp) (by rfl) houtcome
  have hproof := record_inj (by simp) (by rfl) hproof
  have hresidual := record_inj (by simp [PROPOSAL]) (by rfl) hresidual
  have hscope := record_inj (by simp) (by rfl) hscope
  simp only [List.cons.injEq, Prod.mk.injEq, Option.some.injEq, true_and, and_true]
    at hconstraints hdependencies hfrontier hhandoff houtcome hproof hresidual hscope
  have hget : ∀ {key : String}, a.get? key = b.get? key → a.field key = b.field key := fun h => by
    rw [Value.field, h, Value.field]
  simp only [sectioned, knownRelationships, List.forall_mem_cons]
  refine ⟨⟨hget hinputs, hscope.2.1, houtcome.2, houtcome.1, hcore, hscope.1, hscope.2.2.1,
    hdependencies.2.2.1, hdependencies.2.2.2, hconstraints.2.2, hconstraints.1, hfrontier.2.1,
    hfrontier.2.2.2, hfrontier.2.2.1, hfrontier.1, hproof.2.2.2.1, hproof.2.1, hproof.2.2.1,
    hhandoff.2.1, hresidual.1, hresidual.2.2, hget hconstraints.2.1, hget hresidual.2.1,
    hget hproof.1, hget hproof.2.2.2.2.2.2, hget hproof.2.2.2.2.1, by simp⟩,
    hscope.2.2.2, hproof.2.2.2.2.2.1, hdependencies.2.1, hhandoff.2.2.1, hdependencies.1,
    hhandoff.1, hhandoff.2.2.2.2, hhandoff.2.2.2.1, by simp⟩

/-! ## Objects that differ in one member -/

/-- An object with its members in order. -/
def OrderedObject (v : Value) : Prop :=
  ∃ members, v = .object members ∧ (members.map Prod.fst).Pairwise (· < ·)

theorem OrderedObject.ext {v w : Value} (hv : OrderedObject v) (hw : OrderedObject w)
    (h : ∀ key, v.get? key = w.get? key) : v = w := by
  obtain ⟨as, rfl, ha⟩ := hv
  obtain ⟨bs, rfl, hb⟩ := hw
  exact Value.Ordered.ext ha hb h

theorem OrderedObject.insert {v : Value} (h : OrderedObject v) (key : String) (w : Value) :
    OrderedObject (v.insert key w) := by
  obtain ⟨members, rfl, hordered⟩ := h
  exact ⟨_, rfl, insertMember_ordered key w hordered⟩

theorem OrderedObject.remove {v : Value} (h : OrderedObject v) (key : String) :
    OrderedObject (v.remove key) := by
  obtain ⟨members, rfl, hordered⟩ := h
  exact ⟨_, rfl, filter_ordered _ hordered⟩

theorem OrderedObject.without {v : Value} (h : OrderedObject v) (keys : List String) :
    OrderedObject (without keys v) := by
  induction keys generalizing v with
  | nil => exact h
  | cons key keys ih => exact ih (h.remove key)

theorem OrderedObject.updateIn {v : Value} (h : OrderedObject v) (key : String) (f : Value → Value) :
    OrderedObject (updateIn v key f) := h.insert key _

/-- What becomes of a record of the handoff. -/
def observed (record : String × List String) : String × (Value → Value) :=
  (record.1, fun value => without record.2 (emptied value))

def revisionOf (r : Value) : Value := (r.field "subject").field "revision"

def stateOf (r : Value) : Value := (r.field "subject").field "state"

variable {host} {digest : Value → String}

def sampleBody : Value := .object [("continuation", .object []), ("id", .string "slice"),
  ("intent", .object []), ("kind", .string "planning-execplan/v1"), ("lifecycle", .string "active"),
  ("next_action", .string "finish"), ("phase", .string "work"), ("proof", .object []),
  ("relationships", .object [("assignment", .object [("status", .string "running")])]),
  ("scope", .object [])]

def sampleHost : Host where
  readSource _ _ := .ok sampleBody
  canonicalize := .ok
  inspectOrigin _ _ _ := .ok false
  inspectUpdate _ _ _ := .ok false
  portableCreation _ _ := .ok false
  portableUpdate _ _ := .ok false
  assuranceAccepts _ := true

def sampleSource : Evidence := ⟨"/work", "plan.json", "planning", "sha256:00"⟩

def sampleInput : Input := ⟨"/work", some sampleSource, false⟩

end AgenticCore.PlanningReconciliation
