import AgenticCore.PlanningDelta
import AgenticCore.AnsweredDecision

/-!
# What an ordinary Planning update may propose

* `durable`        : a document without what it classifies as observation.
* `proposeUpdate`  : the document an accepted request proposes for the body it was issued for.
* `Updates`        : everything an accepted proposal satisfies.
* `proposal_frame` : **the proposal changes only the declared material, and neither execution nor
                     return authority.**
-/

set_option autoImplicit false

namespace AgenticCore.PlanningUpdate

open Json Text

/-! ## Lifetimes -/

/-- `planning_lifetime::FIELD`. -/
def FIELD : String := "material_lifetimes"

def PROPOSAL : String := "integration_proposal"

/-- A classified name, with the parent and the field of its path. -/
def PATHS : List (String × String × String) :=
  [("next_action", "", "next_action"), ("external_posture", "relationships", "external_posture"),
    ("continuation_frontier", "continuation", "frontier"), ("proof_observed", "proof", "observed")]

def observation (body : Value) (key : String) : Bool :=
  (body.field FIELD).field key = .string "observation"

/-- The field removed from the parent, where that is an object. -/
def removeIn (v : Value) (parent field : String) : Value :=
  match v.get? parent with
  | some (.object members) => v.insert parent ((Value.object members).remove field)
  | _ => v

def forget (body result : Value) (path : String × String × String) : Value :=
  if observation body path.1 = false then result
  else if path.1 = "next_action" then result.insert "next_action" (.string "")
  else removeIn result path.2.1 path.2.2

def durable (body : Value) : Value := PATHS.foldl (forget body) body

/-! ## Proposals -/

def PROVENANCE : String := "update_provenance"

def KIND : String := "planning/update/v1"

/-- `native_planning_create::MATERIAL`. -/
def MATERIAL : List String :=
  ["title", "owner_level", "intent", "parent", "scope", "relationships", "next_action", "proof",
    "continuation", "canonical_core", "references", "blockers"]

def ASSURANCE : List String := ["adaptive_assurance", "risk_registry_refs", "invariant_refs"]

def fields : List String := MATERIAL.filter (· ≠ "canonical_core") ++ ["lifecycle", "phase"]

def OPTIONAL_MATERIAL : List String :=
  ["assignment_inputs", FIELD, PROPOSAL, "canonical_core", "goal", "non_goals", "intent_continuity",
    "execution_bounds", "touched_paths", "validation_commands", "completion_criteria",
    "stop_conditions", "required_continuation"]

/-- The properties of the material an update request declares. -/
def declared : List String := fields ++ ASSURANCE ++ OPTIONAL_MATERIAL

/-- A schema that also takes null. -/
def orNullSchema (schema : Value) : Value :=
  .object [("anyOf", .array [schema, .object [("type", .string "null")]])]

/-- What `partial` puts in the place of a member once it has been through it. -/
def loosened (key : String) (child : Value) : Value :=
  match child with
  | .object members =>
    if key = "properties" then .object (members.map fun (k, v) => (k, orNullSchema v))
    else if key = "additionalProperties" then orNullSchema child
    else child
  | _ => child

mutual
/-- `partial`: nothing is required, and every property may be null. -/
def partialSchema : Value → Value
  | .object members => .object (partialMembers members)
  | .array items => .array (partialItems items)
  | other => other
def partialMembers : List (String × Value) → List (String × Value)
  | [] => []
  | (key, child) :: rest =>
    if key = "required" then partialMembers rest
    else
      let child := if key = "items" then child else partialSchema child
      (key, loosened key child) :: partialMembers rest
def partialItems : List Value → List Value
  | [] => []
  | row :: rest => partialSchema row :: partialItems rest
end

def materialSchema (canonical : Value) : Value :=
  .object [("additionalProperties", .bool false), ("minProperties", .ofNat 1),
    ("properties", .object (declared.foldl
      (fun properties k => Value.insertMember k ((canonical.field "properties").field k) properties)
      [])),
    ("type", .string "object")]

/-- The input schema of `declaration()`. -/
def inputSchema (canonical : Value) : Value :=
  .object [("$defs", partialSchema (canonical.field "$defs")),
    ("$schema", canonical.field "$schema"), ("additionalProperties", .bool false),
    ("properties", .object [("material", partialSchema (materialSchema canonical)),
      ("owner_ref", .object [("type", .string "string")])]),
    ("required", .strings ["owner_ref", "material"]), ("type", .string "object")]

/-- The declared members of a body, in their order. -/
def updateMaterial (body : Value) : Value :=
  .object ((body.asObject.getD []).filter (·.1 ∈ declared))

/-- An owner with an integration proposal is closed, archived or completed. -/
def targetTransition (body document : Value) : Bool :=
  ((body.field PROPOSAL).isObject || (document.field PROPOSAL).isObject) &&
    decide (document.field "lifecycle" ≠ body.field "lifecycle" ∨
      document.field "phase" ≠ body.field "phase") &&
    decide (document.field "lifecycle" ∈ [.string "closed", .string "archived"] ∨
      document.field "phase" = .string "complete")

def matchesTransition (proposal document : Value) : Bool :=
  match (proposal.field "requested_transition").asStr with
  | some "close-owner" => document.field "lifecycle" = .string "closed" ∧
      document.field "phase" = .string "complete"
  | some "archive-owner" => document.field "lifecycle" = .string "archived"
  | _ => false

/-- The material of a body but for its lifecycle and phase. -/
def semantics (body : Value) : Value := ((updateMaterial body).remove "lifecycle").remove "phase"

def checkTransition (body document integration : Value) : Result Unit :=
  check (targetTransition body document = true →
      body.field PROPOSAL = document.field PROPOSAL ∧
        integration.field "status" = .string "integration-observed" ∧
        matchesTransition (body.field PROPOSAL) document = true ∧
        semantics (durable body) = semantics document)
    "Planning lifecycle proposal requires exact current target reconciliation"

/-- The relationships an ordinary update leaves to their owners. -/
def preservedRelationship (document : Value) (key : String) : Bool :=
  key ≠ "dependencies" ∧ ¬ (key = "external_posture" ∧ observation document "external_posture" = true)

def checkRelationships (old new : List (String × Value)) (document : Value) : Result Unit :=
  check (∀ key ∈ (old.map Prod.fst ++ new.map Prod.fst).filter (preservedRelationship document),
      old.lookup key = new.lookup key)
    "Planning update cannot manufacture execution or return authority"

/-- The document a body becomes under a delta, before its revision. -/
def updated (body delta : Value) : Value := durable (mergeMaterial (body.remove PROVENANCE) delta)

variable (host : Host)

/-- The request of a current owner as a proposed document; none where no material changes.
    `canonical` is the schema of Planning documents, `integration` what the target shows of the
    owner's integration proposal. -/
def proposeUpdate (canonical : Value) (work : Value) (contract : CapabilityContractInput)
    (currentRevision : String) (integration body request : Value) : Result (Option Value) := do
  let _ ← host.prepareRequest request work contract
  check (request.field "source_revision" = .string currentRevision)
    "Planning update request is stale"
  check (body.isObject = true) "Planning owner must be an object"
  let document := updated body ((request.field "arguments").field "material")
  checkTransition body document integration
  let old ← okOr ((durable body).field "relationships").asObject "Planning relationships missing"
  let new ← okOr (document.field "relationships").asObject "Planning relationships missing"
  checkRelationships old new document
  if updateMaterial document = updateMaterial (durable body) then pure none
  else do
    let revision ← okOr (body.field "revision").asU64 "Planning revision missing"
    check (revision + 1 < 2 ^ 64) "Planning revision overflow"
    let document := document.insert "revision" (.ofNat (revision + 1))
    let accepts ← host.schemaValidator canonical "canonical Planning update"
    check (accepts document = true) MALFORMED
    check (document.field "lifecycle" ≠ .string "unknown" ∧
        document.field "phase" ≠ .string "unknown")
      "Planning update needs an explicit supported frontier"
    pure (some document)

variable {host}

/-! ## What a request's material may name -/

/-- JSON Schema: an object whose schema lists its properties and takes no others has no others. -/
def ClosedProperties (accepts : Value → Value → Bool) : Prop :=
  ∀ (schema inner v : Value) (name : String), (schema.field "properties").get? name = some inner →
    inner.field "additionalProperties" = .bool false → inner.get? "patternProperties" = none →
    accepts schema v = true →
      ∀ key, (v.field name).get? key ≠ none → (inner.field "properties").get? key ≠ none

/-- The contract declares update requests with the schema of `declaration()`. -/
def DeclaresUpdates (canonical : Value) (contract : CapabilityContractInput) : Prop :=
  ∀ (owner : String) (capability : NormalizedCapabilityOwner) (shape : NormalizedRequestShape),
    contract.normal.owners[owner]? = some capability → capability.requests[KIND]? = some shape →
      shape.inputSchema = inputSchema canonical

theorem foldl_insertMember_lookup {names : List String} {f : String → Value} {key : String} :
    ∀ {members : List (String × Value)},
      (names.foldl (fun members k => Value.insertMember k (f k) members) members).lookup key ≠ none →
        key ∈ names ∨ members.lookup key ≠ none := by
  induction names with
  | nil => exact fun h => Or.inr h
  | cons name names ih =>
    intro members h
    rcases ih h with h | h
    · exact Or.inl (List.mem_cons_of_mem _ h)
    · by_cases hkey : key = name
      · exact Or.inl (hkey ▸ List.mem_cons_self)
      · rw [insertMember_lookup hkey] at h
        exact Or.inr h

theorem partialMembers_lookup {key : String} :
    ∀ {members : List (String × Value)}, (partialMembers members).lookup key ≠ none →
      members.lookup key ≠ none
  | [], h => h
  | (name, child) :: rest, h => by
    rw [partialMembers] at h
    rw [List.lookup_cons]
    by_cases hkey : (key == name) = true
    · simp [hkey]
    · split at h
      · simpa [hkey] using partialMembers_lookup h
      · simp only [List.lookup_cons, hkey] at h ⊢
        exact partialMembers_lookup h

theorem materialSchema_properties {canonical : Value} {key : String}
    (h : ((partialSchema (materialSchema canonical)).field "properties").get? key ≠ none) :
    key ∈ declared := by
  have hproperties : (partialSchema (materialSchema canonical)).field "properties" =
      .object ((partialMembers (declared.foldl (fun properties k =>
        Value.insertMember k ((canonical.field "properties").field k) properties) [])).map
          fun (k, v) => (k, orNullSchema v)) := rfl
  rw [hproperties] at h
  have hmapped : ∀ members : List (String × Value),
      (members.map fun (k, v) => (k, orNullSchema v)).lookup key =
        (members.lookup key).map orNullSchema := by
    intro members
    induction members with
    | nil => rfl
    | cons member members ih =>
      rw [List.map_cons, List.lookup_cons, List.lookup_cons, ih]
      cases key == member.1 <;> rfl
  have hlookup := hmapped (partialMembers (declared.foldl (fun properties k =>
    Value.insertMember k ((canonical.field "properties").field k) properties) []))
  rw [Value.get?, hlookup, ne_eq, Option.map_eq_none_iff] at h
  rcases foldl_insertMember_lookup (partialMembers_lookup h) with h | h
  · exact h
  · exact absurd rfl h

/-- A prepared request has arguments its owner's schema takes. -/
theorem prepareRequest_accepts {request work p : Value} {contract : CapabilityContractInput}
    (h : host.prepareRequest request work contract = .ok p) :
    ∃ parsed capability shape, PublicRequestInput.ofValue request = some parsed ∧
      contract.normal.owners[trim parsed.owner]? = some capability ∧
      capability.requests[trim parsed.requestKind]? = some shape ∧
      host.accepts shape.inputSchema parsed.arguments = true := by
  simp only [Host.prepareRequest, Except.bind_eq_ok_iff] at h
  obtain ⟨normal, hnormal, ⟨_, n⟩, hrequest, -⟩ := h
  obtain rfl := (normalizeCapabilityContract_eq_ok.mp hnormal).2
  obtain ⟨r, hr, -⟩ := Except.bind_eq_ok_iff.mp hrequest
  simp only [Host.publicRequest, Except.bind_eq_ok_iff, okOr_eq_ok, requireText_eq_ok,
    validArguments_eq_ok, Option.some.injEq] at hr
  obtain ⟨_, rfl, parsed, hparsed, _, -, _, -, _, ⟨-, rfl⟩, _, -, _, -, _, ⟨-, rfl⟩, _, -, _, -, _, -,
    _, -, capability, hcapability, _, -, shape, hshape, _, ⟨-, -, haccepts⟩, -⟩ := hr
  exact ⟨parsed, capability, shape, hparsed, hcapability, hshape, haccepts⟩

theorem publicRequest_object {members : List (String × Value)}
    {parsed : PublicRequestInput} (h : PublicRequestInput.ofValue (.object members) = some parsed) :
    members.lookup "request_kind" = some (.string parsed.requestKind) ∧
      members.lookup "arguments" = some parsed.arguments := by
  obtain ⟨field, hfield, h⟩ := Option.bind_eq_some_iff.mp h
  rw [Value.structFields] at hfield
  split at hfield
  · obtain rfl := Option.some.inj hfield
    simp only [Option.bind_eq_bind, Option.bind_eq_some_iff, Option.pure_def, Option.some.injEq] at h
    obtain ⟨kind, -, id, -, owner, -, ownerRevision, -, sourceRevision, -, requestKind,
      ⟨v, hkind, hv⟩, capabilityRevision, -, taskIdentity, -, arguments, harguments, rfl⟩ := h
    refine ⟨?_, harguments⟩
    cases v with
    | string name =>
      obtain rfl := Option.some.inj hv
      exact hkind
    | null | bool | number | array | object => cases hv
  · cases hfield

/-- The material of an ordinary request names declared properties. -/
theorem material_declared {canonical request work p : Value} {contract : CapabilityContractInput}
    (hclosed : ClosedProperties host.accepts) (hcontract : DeclaresUpdates canonical contract)
    (hkind : request.field "request_kind" = .string KIND)
    (h : host.prepareRequest request work contract = .ok p) (key : String)
    (hkey : ((request.field "arguments").field "material").get? key ≠ none) : key ∈ declared := by
  obtain ⟨parsed, capability, shape, hparsed, hcapability, hshape, haccepts⟩ :=
    prepareRequest_accepts h
  cases request with
  | object members =>
    obtain ⟨hkind', harguments⟩ := publicRequest_object hparsed
    rw [Value.field, Value.get?, hkind'] at hkind
    have hname : trim parsed.requestKind = KIND := by
      rw [Value.string.inj hkind]
      decide
    have hfield : (Value.object members).field "arguments" = parsed.arguments := by
      rw [Value.field, Value.get?, harguments]
      rfl
    rw [hname] at hshape
    rw [hcontract _ _ _ hcapability hshape] at haccepts
    rw [hfield] at hkey
    exact materialSchema_properties (hclosed _ (partialSchema (materialSchema canonical)) _ "material"
      rfl rfl rfl haccepts key hkey)
  | null | bool | number | string | array => cases hkind

/-! ## What durability leaves -/

theorem removeIn_get? (v : Value) (parent field : String) {key : String} (h : key ≠ parent) :
    (removeIn v parent field).get? key = v.get? key := by
  unfold removeIn
  split
  · exact Value.get?_insert_of_ne h _ _
  · rfl

/-- The members that hold what may be classified. -/
def volatile : List String := ["next_action", "relationships", "continuation", "proof"]

theorem durable_get? (body : Value) {key : String} (h : key ∉ volatile) :
    (durable body).get? key = body.get? key := by
  simp only [volatile, List.mem_cons, List.not_mem_nil, or_false, not_or] at h
  have hstep : ∀ (result : Value) (path : String × String × String), path.1 = "next_action" ∨
      path.2.1 ∈ ["relationships", "continuation", "proof"] →
      (forget body result path).get? key = result.get? key := by
    intro result path hpath
    unfold forget
    split
    · rfl
    · split
      · exact Value.get?_insert_of_ne h.1 _ _
      · rename_i hname
        apply removeIn_get?
        rcases hpath with hpath | hpath
        · exact absurd hpath hname
        · simp only [List.mem_cons, List.not_mem_nil, or_false] at hpath
          rintro rfl
          rcases hpath with hpath | hpath | hpath
          · exact h.2.1 hpath
          · exact h.2.2.1 hpath
          · exact h.2.2.2 hpath
  simp only [durable, PATHS, List.foldl_cons, List.foldl_nil]
  rw [hstep _ _ (by simp), hstep _ _ (by simp), hstep _ _ (by simp), hstep _ _ (by simp)]

/-- What is no object has nothing classified. -/
theorem durable_of_not_object {v : Value} (h : ∀ members, v ≠ .object members) : durable v = v := by
  cases v with
  | object members => exact absurd rfl (h members)
  | null | bool | number | string | array => rfl

theorem updateMaterial_get? (body : Value) {key : String} (h : key ∈ declared) :
    (updateMaterial body).get? key = body.get? key := by
  cases body with
  | object members => exact (lookup_filter_mem declared key members).trans (if_pos h)
  | null | bool | number | string | array => rfl

theorem semantics_get? (body : Value) {key : String} (h : key ∈ declared)
    (hlifecycle : key ≠ "lifecycle") (hphase : key ≠ "phase") :
    (semantics body).get? key = body.get? key := by
  rw [semantics, Value.get?_remove_of_ne _ hphase, Value.get?_remove_of_ne _ hlifecycle, updateMaterial_get? _ h]

/-! ## The proposal -/

/-- Everything an accepted proposal satisfies, with what it is made from. -/
structure Updates (host : Host) (work : Value) (contract : CapabilityContractInput)
    (integration body request document : Value) : Prop where
  prepared : ∃ p, host.prepareRequest request work contract = .ok p
  object : ∃ members, body = .object members
  delta : ∃ changes, (request.field "arguments").field "material" = .object changes
  revised : ∃ revision, (body.field "revision").asU64 = some revision ∧
    document = (updated body ((request.field "arguments").field "material")).insert "revision"
      (.ofNat (revision + 1))
  transition : targetTransition body document = true → ∀ key ∈ declared, key ≠ "lifecycle" →
    key ≠ "phase" → document.get? key = (durable body).get? key
  relationships : ∃ old new, (durable body).field "relationships" = .object old ∧
    document.field "relationships" = .object new ∧
    ∀ key, preservedRelationship document key = true → old.lookup key = new.lookup key

theorem preserved_lookup {old new : List (String × Value)} {document : Value} {u : Unit}
    (h : checkRelationships old new document = .ok u) (key : String)
    (hkey : preservedRelationship document key = true) : old.lookup key = new.lookup key := by
  have hchecked := check_eq_ok.mp h
  by_cases hmem : key ∈ old.map Prod.fst ++ new.map Prod.fst
  · exact hchecked key (List.mem_filter.mpr ⟨hmem, hkey⟩)
  · rw [List.mem_append, not_or] at hmem
    rw [lookup_absent hmem.1, lookup_absent hmem.2]

/-- The members of a proposal but its revision. -/
theorem field_revised {next : Value} {n : Nat} {key : String} (h : key ≠ "revision") :
    (next.insert "revision" (.ofNat n)).field key = next.field key :=
  Value.field_insert_of_ne h _ _

theorem updates_of_ok {canonical work integration body request document : Value}
    {contract : CapabilityContractInput} {currentRevision : String}
    (h : proposeUpdate host canonical work contract currentRevision integration body request =
      .ok (some document)) : Updates host work contract integration body request document := by
  simp only [proposeUpdate, Except.bind_eq_ok_iff, check_eq_ok, okOr_eq_ok] at h
  obtain ⟨p, hp, _, -, _, hobject, _, htransition, old, hold, new, hnew, _, hrelationships, h⟩ := h
  split at h
  · cases h
  simp only [Except.bind_eq_ok_iff, check_eq_ok, okOr_eq_ok, Except.pure_eq_ok_iff,
    Option.some.injEq] at h
  obtain ⟨revision, hrevision, _, -, accepts, -, _, -, _, -, rfl⟩ := h
  have hold := asObject_eq_some.mp hold
  have hnew := asObject_eq_some.mp hnew
  have hfield : ∀ key, key ≠ "revision" →
      ((updated body ((request.field "arguments").field "material")).insert "revision"
        (.ofNat (revision + 1))).field key =
      (updated body ((request.field "arguments").field "material")).field key := fun key h =>
    field_revised h
  have hobservation : ∀ key, observation ((updated body
        ((request.field "arguments").field "material")).insert "revision"
        (.ofNat (revision + 1))) key =
      observation (updated body ((request.field "arguments").field "material")) key := by
    intro key
    rw [observation, observation, hfield FIELD (by decide)]
  refine ⟨⟨p, hp⟩, ?_, ?_, ⟨revision, hrevision, rfl⟩, ?_, old, new, hold, ?_, ?_⟩
  · cases body with
    | object members => exact ⟨members, rfl⟩
    | null | bool | number | string | array => cases hobject
  · cases hdelta : (request.field "arguments").field "material" with
    | object changes => exact ⟨changes, rfl⟩
    | null | bool | number | string | array =>
      rw [updated, mergeMaterial_of_delta _ (by rw [hdelta]; simp),
        durable_of_not_object (by rw [hdelta]; simp), hdelta] at hnew
      cases hnew
  · intro htarget key hkey hlifecycle hphase
    have htarget' : targetTransition body
        (updated body ((request.field "arguments").field "material")) = true := by
      rw [targetTransition, hfield PROPOSAL (by decide), hfield "lifecycle" (by decide),
        hfield "phase" (by decide)] at htarget
      exact htarget
    obtain ⟨-, -, -, hsemantics⟩ := check_eq_ok.mp htransition htarget'
    have hrevision : key ≠ "revision" := by
      rintro rfl
      exact absurd hkey (by decide)
    rw [Value.get?_insert_of_ne hrevision, ← semantics_get? _ hkey hlifecycle hphase, ← hsemantics,
      semantics_get? _ hkey hlifecycle hphase]
  · rw [hfield "relationships" (by decide)]
    exact hnew
  · intro key hkey
    apply preserved_lookup hrelationships
    rw [preservedRelationship] at hkey ⊢
    rwa [hobservation] at hkey

/-- What the delta does not name stays as the body has it, but for the recorded update. -/
theorem updated_get? {body delta : Value} {members changes : List (String × Value)}
    (hbody : body = .object members) (hdelta : delta = .object changes) (hordered : delta.Ordered)
    {key : String} (hkey : delta.get? key = none) (hvolatile : key ∉ volatile) :
    (updated body delta).get? key = (body.remove PROVENANCE).get? key := by
  rw [updated, durable_get? _ hvolatile]
  subst hbody hdelta
  rw [Value.remove, mergeMaterial_get? hordered, hkey]
  rfl

/-- **An ordinary update proposes a document that differs from the durable body in declared material
only, keeps every relationship but dependencies and the observed external posture, is one revision
later, and keeps the semantics of an owner with an integration proposal that it closes.** The record
of the last update is not part of a proposal. -/
theorem proposal_frame {canonical work integration body request document : Value}
    {contract : CapabilityContractInput} {currentRevision : String}
    (hclosed : ClosedProperties host.accepts) (hcontract : DeclaresUpdates canonical contract)
    (hkind : request.field "request_kind" = .string KIND)
    (hordered : ((request.field "arguments").field "material").Ordered)
    (h : proposeUpdate host canonical work contract currentRevision integration body request =
      .ok (some document)) :
    (∀ key, key ≠ "dependencies" →
      ¬(key = "external_posture" ∧ observation document "external_posture" = true) →
        (document.field "relationships").get? key =
          ((durable body).field "relationships").get? key) ∧
      (∀ key, key ∉ declared → key ≠ "revision" → key ≠ PROVENANCE →
        document.get? key = (durable body).get? key) ∧
      document.get? PROVENANCE = none ∧
      (∃ revision, (body.field "revision").asU64 = some revision ∧
        document.field "revision" = .ofNat (revision + 1)) ∧
      (targetTransition body document = true → ∀ key ∈ declared, key ≠ "lifecycle" →
        key ≠ "phase" → document.get? key = (durable body).get? key) := by
  have U := updates_of_ok h
  obtain ⟨p, hp⟩ := U.prepared
  obtain ⟨members, hbody⟩ := U.object
  obtain ⟨changes, hdelta⟩ := U.delta
  obtain ⟨revision, hrevision, hdocument⟩ := U.revised
  obtain ⟨old, new, hold, hnew, hkept⟩ := U.relationships
  have hundeclared : ∀ key, key ∉ declared →
      ((request.field "arguments").field "material").get? key = none := by
    intro key hkey
    by_contra hne
    exact hkey (material_declared hclosed hcontract hkind hp key hne)
  have hvolatile : ∀ key, key ∉ declared → key ∉ volatile := by
    intro key hkey hmem
    have hsubset : ∀ k ∈ volatile, k ∈ declared := by decide
    exact hkey (hsubset key hmem)
  have hother : ∀ key, key ∉ declared → key ≠ "revision" →
      document.get? key = (body.remove PROVENANCE).get? key := by
    intro key hkey hne
    rw [hdocument, Value.get?_insert_of_ne hne]
    exact updated_get? hbody hdelta hordered (hundeclared key hkey) (hvolatile key hkey)
  refine ⟨fun key hdependencies hposture => ?_, fun key hkey hne hprovenance => ?_, ?_,
    ⟨revision, hrevision, ?_⟩, U.transition⟩
  · rw [hold, hnew]
    apply Eq.symm
    apply hkept
    simp only [preservedRelationship, decide_eq_true_eq]
    exact ⟨hdependencies, hposture⟩
  · rw [hother key hkey hne, Value.get?_remove_of_ne _ hprovenance, durable_get? _ (hvolatile key hkey)]
  · rw [hother PROVENANCE (by decide) (by decide)]
    exact Value.get?_remove_self _ _
  · rw [hdocument] at hnew ⊢
    cases hupdated : updated body ((request.field "arguments").field "material") with
    | object members =>
      rw [Value.insert, Value.field, Value.get?, insertMember_lookup_self]
      rfl
    | null => rfl
    | bool | number | string | array =>
      rw [hupdated] at hnew
      cases hnew

/-! ### A new title -/

/-- A listed property that takes no others has no others. -/
def closedAccepts (schema v : Value) : Bool :=
  ((schema.field "properties").asObject.getD []).all fun (name, inner) =>
    inner.field "additionalProperties" ≠ .bool false ||
      ((v.field name).asObject.getD []).all fun (key, _) =>
        ((inner.field "properties").get? key).isSome

theorem closedAccepts_closed : ClosedProperties closedAccepts := by
  intro schema inner v name hinner hclosed _ haccepts key hkey
  obtain ⟨w, hw⟩ := Option.ne_none_iff_exists'.mp hkey
  have hproperty := List.all_eq_true.mp haccepts _ (Value.mem_of_get? hinner)
  simp only [hclosed, ne_eq, not_true_eq_false, decide_false, Bool.false_or] at hproperty
  exact Option.isSome_iff_ne_none.mp (List.all_eq_true.mp hproperty _ (Value.mem_of_get? hw))

def planningHost : Host := { sampleHost with accepts := closedAccepts }

def planningSchema : Value :=
  .object [("$schema", .string "https://json-schema.org/draft/2020-12/schema")]

def planningContract : CapabilityContractInput :=
  { sampleContract with
    owners := [{
      owner := "planning", revision := "r1", domains := ["planning"], effects := []
      operations := [], requests := [⟨KIND, inputSchema planningSchema, "result"⟩] }] }

def planningWork : Value := .object [("id", .string "t"), ("kind", .string "current-work")]

/-- An owner that an update has been published of. -/
def planningBody : Value :=
  .object [("id", .string "p"), ("kind", .string "plan"), ("lifecycle", .string "live"),
    ("phase", .string "active"), ("relationships", .object []), ("revision", .ofNat 2),
    ("title", .string "Old"), ("update_provenance", .object [("attempt_id", .string "a")])]

def planningRequest : Value :=
  .object [
    ("arguments", .object [("material", .object [("title", .string "New")]),
      ("owner_ref", .string "plan.json")]),
    ("capability_revision", .string sampleContract.revision), ("id", .string "u"),
    ("kind", .string PUBLIC_REQUEST_KIND), ("owner", .string "planning"),
    ("owner_revision", .string "r1"), ("request_kind", .string KIND),
    ("source_revision", .string "s"), ("task_identity", planningWork)]

def planningProposal : Value :=
  .object [("id", .string "p"), ("kind", .string "plan"), ("lifecycle", .string "live"),
    ("phase", .string "active"), ("relationships", .object []), ("revision", .ofNat 3),
    ("title", .string "New")]

theorem planning_proposed : proposeUpdate planningHost planningSchema planningWork planningContract
    "s" .null planningBody planningRequest = .ok (some planningProposal) := by
  decide

theorem planningContract_declares : DeclaresUpdates planningSchema planningContract := by
  intro owner capability shape hcapability hshape
  obtain ⟨o, ho, -, rfl⟩ := (owners_get (List.pairwise_singleton _ _)).mp hcapability
  obtain rfl := List.mem_singleton.mp ho
  have hnodup : (CapabilityOwnerInput.requestEntries {
      owner := "planning", revision := "r1", domains := ["planning"], effects := []
      operations := [], requests := [⟨KIND, inputSchema planningSchema, "result"⟩] } |>.map
        Prod.fst).Nodup := List.nodup_singleton _
  rcases (Registry.enter_get hnodup).mp hshape with hentry | ⟨-, hempty⟩
  · rw [(Prod.mk.inj (List.mem_singleton.mp hentry)).2]
  · cases hempty

/-- The record of the last update is no part of the proposal. -/
theorem planning_unrecorded : ∃ body document : Value,
    proposeUpdate planningHost planningSchema planningWork planningContract "s" .null body
        planningRequest = .ok (some document) ∧
      PROVENANCE ∉ declared ∧ PROVENANCE ≠ "revision" ∧
      document.get? PROVENANCE ≠ (durable body).get? PROVENANCE := by
  refine ⟨planningBody, planningProposal, planning_proposed, by decide, by decide, ?_⟩
  decide

theorem proposal_frame_planning :
    (planningProposal.field "relationships").get? "parent" =
        ((durable planningBody).field "relationships").get? "parent" ∧
      planningProposal.get? "id" = (durable planningBody).get? "id" ∧
      planningProposal.field "revision" = .ofNat 3 := by
  have hordered : ((planningRequest.field "arguments").field "material").Ordered :=
    Value.Ordered.singleton (Value.ordered_of_not_object (v := .string "New") (by simp))
  obtain ⟨hrelationships, hother, -, ⟨revision, hrevision, hnext⟩, -⟩ :=
    proposal_frame closedAccepts_closed planningContract_declares rfl hordered planning_proposed
  refine ⟨hrelationships "parent" (by decide) (by decide), hother "id" (by decide) (by decide)
    (by decide), ?_⟩
  obtain rfl := Option.some.inj hrevision
  exact hnext

end AgenticCore.PlanningUpdate
