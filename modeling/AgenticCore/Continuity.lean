import AgenticCore.Basic
import AgenticCore.Acyclic
import AgenticCore.Worklist

/-!
# Material decision context (`continuity.rs`)

* `Record` / `normalized` : one decision record, its checks and its material revision.
* `project`               : admission of a bounded selection of records, the supersession graph
                            and its lineage heads, and the states and consequences reported.

`digest` stands for the SHA-256 of the serialised value, written `sha256:<hex>`.
-/

set_option autoImplicit false

namespace AgenticCore.Continuity

open Json Text

structure Reference where
  owner : String
  reference : String
  revision : String
  deriving DecidableEq, Repr

/-- Derived order: the fields in their declared order. -/
def Reference.key (r : Reference) : String ×ₗ String ×ₗ String :=
  toLex (r.owner, toLex (r.reference, r.revision))

inductive ActorKind where
  | agent
  | human
  | unattributed
  deriving DecidableEq, Repr

def ActorKind.rank : ActorKind → Nat
  | .agent => 0
  | .human => 1
  | .unattributed => 2

def ActorKind.name : ActorKind → String
  | .agent => "agent"
  | .human => "human"
  | .unattributed => "unattributed"

structure Actor where
  kind : ActorKind
  id : String
  deriving DecidableEq, Repr

def Actor.key (a : Actor) : Nat ×ₗ String := toLex (a.kind.rank, a.id)

structure Authority where
  actor : Actor
  basis : List Reference
  deriving DecidableEq, Repr

structure Supersedes where
  id : String
  materialRevision : String
  scope : List String
  deriving DecidableEq, Repr

structure Record where
  id : String
  source : Reference
  decision : String
  consequence : String
  rationaleReference : String
  authors : List Actor
  contributors : List Actor
  authority : Authority
  scope : List String
  semanticRoutes : List String
  dependencies : List Reference
  context : List Reference
  supersedes : List Supersedes
  materialRevision : Option String
  deriving DecidableEq, Repr

structure Admission where
  rationaleReference : String
  id : String
  materialRevision : String
  source : Reference
  deriving DecidableEq, Repr

structure Dismissal where
  id : String
  materialRevision : String
  reason : String
  authority : Authority
  deriving DecidableEq, Repr

structure Reconciliation where
  residue : List String
  nativeOwner : Option String
  fallbackOwner : String
  destinations : List Admission
  dismissals : List Dismissal
  deriving DecidableEq, Repr

structure Context where
  records : List Record
  admissions : List Admission
  currentDependencies : List Reference
  applicableScope : List String
  reconciliation : Option Reconciliation
  deriving DecidableEq, Repr

/-! ## Serialisation -/

def Reference.toValue (r : Reference) : Value :=
  .object [("owner", .string r.owner), ("reference", .string r.reference),
    ("revision", .string r.revision)]

def Actor.toValue (a : Actor) : Value :=
  .object [("id", .string a.id), ("kind", .string a.kind.name)]

def Authority.toValue (a : Authority) : Value :=
  .object [("actor", a.actor.toValue), ("basis", .array (a.basis.map Reference.toValue))]

def Supersedes.toValue (s : Supersedes) : Value :=
  .object [("id", .string s.id), ("material_revision", .string s.materialRevision),
    ("scope", .strings s.scope)]

/-- The serialised record without `source`, `rationale_reference` and `material_revision`;
    empty `semantic_routes` are skipped. -/
def Record.material (r : Record) : Value :=
  .record [("authority", some r.authority.toValue),
    ("authors", some (.array (r.authors.map Actor.toValue))),
    ("consequence", some (.string r.consequence)),
    ("context", some (.array (r.context.map Reference.toValue))),
    ("contributors", some (.array (r.contributors.map Actor.toValue))),
    ("decision", some (.string r.decision)),
    ("dependencies", some (.array (r.dependencies.map Reference.toValue))),
    ("id", some (.string r.id)),
    ("scope", some (.strings r.scope)),
    ("semantic_routes", if r.semanticRoutes = [] then none else some (.strings r.semanticRoutes)),
    ("supersedes", some (.array (r.supersedes.map Supersedes.toValue)))]

/-! ## Normalisation of one record -/

def reference (r : Reference) : Result Unit := do
  let _ ← requireText r.owner "decision reference owner"
  let _ ← requireText r.reference "decision reference"
  let _ ← requireText r.revision "decision reference revision"
  pure ()

def scopeKinds : List String := ["path", "owner", "contract", "source", "operation"]

def scopeIdentity (value : String) : Result Unit :=
  match splitOnce ':' value with
  | none => fail "decision scope requires an exact typed identity"
  | some (kind, id) =>
    check (kind ∈ scopeKinds ∧ trim id ≠ "") "unsupported decision scope identity"

def scopes (values : List String) : Result (List String) := do
  values.forM scopeIdentity
  pure (sortDedup values)

def sortActors (actors : List Actor) : List Actor :=
  dedupRuns (actors.insertionSort fun a b => a.key ≤ b.key)

def sortReferences (refs : List Reference) : List Reference :=
  dedupRuns (refs.insertionSort fun a b => a.key ≤ b.key)

/-- Two neighbours that name one reference at different revisions. -/
def conflicting : List Reference → Bool
  | a :: b :: rest => (a.owner == b.owner && a.reference == b.reference) || conflicting (b :: rest)
  | _ => false

def references (refs : List Reference) : Result (List Reference) := do
  refs.forM reference
  let refs := sortReferences refs
  check (conflicting refs = false) "conflicting decision dependency revisions"
  pure refs

def supersession (recordId : String) (recordScope : List String) (relation : Supersedes) :
    Result Supersedes := do
  let _ ← requireText relation.id "superseded decision identity"
  let _ ← requireText relation.materialRevision "superseded material revision"
  let scope ← scopes relation.scope
  check (relation.id ≠ recordId ∧ scope ≠ [] ∧ ∀ s ∈ scope, s ∈ recordScope)
    "supersession must name a different decision within the new decision scope"
  pure { relation with scope }

def duplicateTarget : List Supersedes → Bool
  | a :: b :: rest => a.id == b.id || duplicateTarget (b :: rest)
  | _ => false

variable (digest : Value → String)

def normalized (record : Record) : Result Record := do
  let semanticRoutes ← routeIds record.semanticRoutes "decision semantic routes"
  let _ ← requireText record.id "identity"
  let _ ← requireText record.decision "decision"
  let _ ← requireText record.consequence "consequence"
  let _ ← requireText record.rationaleReference "rationale reference"
  reference record.source
  check (record.authority.actor.kind ≠ .unattributed)
    "Unattributed authorship cannot supply deciding authority"
  check (record.authors ≠ [] ∧ record.authority.basis ≠ [] ∧ record.scope ≠ [])
    "decision requires authors, deciding authority basis and scope"
  (record.authors ++ record.contributors ++ [record.authority.actor]).forM fun actor => do
    let _ ← requireText actor.id "decision actor identity"
    pure ()
  let scope ← scopes record.scope
  let basis ← references record.authority.basis
  let dependencies ← references record.dependencies
  let context ← references record.context
  let relations ← record.supersedes.mapM (supersession record.id scope)
  let supersedes := relations.insertionSort fun a b => a.id ≤ b.id
  check (duplicateTarget supersedes = false) "duplicate supersession target"
  let normal := { record with
    semanticRoutes, scope, dependencies, context, supersedes
    authors := sortActors record.authors
    contributors := sortActors record.contributors
    authority := { record.authority with basis } }
  let revision := digest normal.material
  check (∀ expected ∈ record.materialRevision, expected = revision)
    "decision material revision differs from its contents"
  pure { normal with materialRevision := some revision }

/-! ## Projection -/

/-- The current revision of a dependency, by owner and reference. -/
abbrev Current := String × String → Option String

abbrev Records := BTreeMap String Record

/-- The scopes of each record that some other record supersedes. -/
abbrev Replaced := BTreeMap String (BTreeSet String)

def Replaced.has (replaced : Replaced) (id scope : String) : Bool :=
  match replaced[id]? with
  | some scopes => scopes.contains scope
  | none => false

def admitRecord (records : Records) (record : Record) : Result Records :=
  insertFresh (normalized digest) (·.id) "duplicate material decision identity" records record

def admitAdmission (admissions : BTreeMap String Admission) (admission : Admission) :
    Result (BTreeMap String Admission) :=
  insertFresh pure (·.id) "duplicate decision admission" admissions admission

def admitDependency (current : Current) (item : Reference) : Result Current := do
  reference item
  check (current (item.owner, item.reference) = none) "duplicate current decision dependency"
  pure fun key => if key = (item.owner, item.reference) then some item.revision else current key

def replace (replaced : Replaced) (relation : Supersedes) : Replaced :=
  replaced.insert relation.id ((replaced.getD relation.id ∅).insertMany relation.scope)

def admitRelation (records : Records) (replaced : Replaced) (relation : Supersedes) :
    Result Replaced := do
  let prior ← okOr records[relation.id]? "supersession closure is incomplete"
  check (some relation.materialRevision = prior.materialRevision ∧
      ∀ s ∈ relation.scope, s ∈ prior.scope)
    "supersession target revision or scope differs"
  pure (replace replaced relation)

def admitProvenance (records : Records) (admissions : BTreeMap String Admission)
    (replaced : Replaced) (record : Record) : Result Replaced := do
  let admission ← okOr admissions[record.id]?
    "decision lacks independent host provenance admission"
  check (some admission.materialRevision = record.materialRevision ∧
      admission.source = record.source ∧ admission.rationaleReference = record.rationaleReference)
    "decision admission does not bind exact source and semantic provenance"
  record.supersedes.foldlM (admitRelation records) replaced

def successors (records : Records) (id : String) : List String :=
  match records[id]? with
  | some record => record.supersedes.map (·.id)
  | none => []

def scopedSuccessors (records : Records) (scope id : String) : List String :=
  match records[id]? with
  | some record => (record.supersedes.filter (scope ∈ ·.scope)).map (·.id)
  | none => []

def checkAcyclic (records : Records) : Result Unit :=
  match Acyclic.checkAll (successors records) (records.size + 1) records.keys with
  | .ok _ => .ok ()
  | .error .cyclic => fail "cyclic decision supersession"
  | .error .fuel => fail "supersession check exceeded its records"

/-- `(ancestor, scope)` to the head of its lineage. -/
abbrev LineageHeads := String × String → Option String

/-- One iteration of the worklist of a head in one scope. -/
def markAncestor (records : Records) (head scope ancestor : String) (heads : LineageHeads) :
    Result (LineageHeads × List String) := do
  check (∀ other ∈ heads (ancestor, scope), other = head)
    "competing decision supersession requires owner resolution"
  pure (fun key => if key = (ancestor, scope) then some head else heads key,
    scopedSuccessors records scope ancestor)

def markLineage (records : Records) (replaced : Replaced) (id : String) (heads : LineageHeads)
    (scope : String) : Result LineageHeads :=
  if replaced.has id scope then .ok heads
  else
    match Worklist.walk (markAncestor records id scope) (records.size + 1) [id] [] heads with
    | some (.ok (heads, _)) => .ok heads
    | some (.error e) => .error e
    | none => fail "lineage walk exceeded its records"

def lineageHeads (records : Records) (replaced : Replaced) : Result LineageHeads :=
  (valuesOf records).foldlM
    (fun heads record => record.scope.foldlM (markLineage records replaced record.id) heads)
    fun _ => none

/-! ### Residue -/

/-- A row of the reconciliation report. -/
structure ResidueRow where
  id : String
  materialRevision : Option String
  status : String
  owner : Option String
  reason : Option String
  authority : Option Authority
  source : Option Reference
  deriving DecidableEq, Repr

def ResidueRow.toValue (r : ResidueRow) : Value :=
  .record [("authority", r.authority.map Authority.toValue), ("id", some (.string r.id)),
    ("material_revision", some (.orNull (r.materialRevision.map .string))),
    ("owner", r.owner.map .string), ("reason", r.reason.map .string),
    ("source", r.source.map Reference.toValue), ("status", some (.string r.status))]

structure Resolved where
  rows : List ResidueRow
  sources : BTreeMap String (Reference × String)
  dismissed : BTreeSet String

def Resolved.empty : Resolved := ⟨[], ∅, ∅⟩

def reconcileDismissed (current : Current) (pending : ResidueRow) (dismissal : Dismissal)
    (result : Resolved) : Result Resolved := do
  let _ ← requireText dismissal.reason "decision dismissal reason"
  let _ ← requireText dismissal.authority.actor.id "dismissal deciding actor"
  check (some dismissal.materialRevision = pending.materialRevision ∧ dismissal.authority.basis ≠ [])
    "dismissal must bind the exact material decision and admitted authority basis"
  dismissal.authority.basis.forM reference
  if ∀ basis ∈ dismissal.authority.basis,
      current (basis.owner, basis.reference) = some basis.revision then
    let row := { pending with
      status := "dismissed", owner := none, reason := some dismissal.reason
      authority := some dismissal.authority }
    pure { result with
      rows := result.rows ++ [row], dismissed := result.dismissed.insert pending.id }
  else
    let row := { pending with reason := some "dismissal authority is stale or unavailable" }
    pure { result with rows := result.rows ++ [row] }

def reconcileDestination (input : Reconciliation) (current : Current) (preferred role : String)
    (pending : ResidueRow) (result : Resolved) : Result Resolved := do
  let candidates := input.destinations.filter fun d =>
    d.id = pending.id ∧ some d.materialRevision = pending.materialRevision ∧
      d.source.owner = preferred ∧
      current (d.source.owner, d.source.reference) = some d.source.revision
  check (candidates.length ≤ 1) "multiple current durable decision destinations"
  match candidates.head? with
  | some destination =>
    reference destination.source
    let _ ← requireText destination.rationaleReference "destination rationale reference"
    let row := { pending with status := role, source := some destination.source }
    pure { result with
      rows := result.rows ++ [row]
      sources := result.sources.insert pending.id
        (destination.source, destination.rationaleReference) }
  | none =>
    let row := { pending with
      reason := some
        "preferred owner has not currently admitted this exact material decision; preserve former source" }
    pure { result with rows := result.rows ++ [row] }

def reconcileResidue (input : Reconciliation) (records : Records) (current : Current)
    (replaced : Replaced) (preferred role : String) (state : Resolved × BTreeSet String)
    (id : String) : Result (Resolved × BTreeSet String) := do
  let (result, seen) := state
  check (seen.contains id = false) "duplicate decision residue"
  let record ← okOr records[id]? "known decision residue is missing its admitted record"
  let pending : ResidueRow := {
    id, materialRevision := record.materialRevision, status := "pending", owner := some preferred
    reason := none, authority := none, source := none }
  let dismissed := input.dismissals.filter (·.id = id)
  check (dismissed.length ≤ 1) "competing decision dismissals"
  let result ← match dismissed.head? with
    | some dismissal => reconcileDismissed current pending dismissal result
    | none =>
      if ∀ s ∈ record.scope, replaced.has id s = true then
        pure { result with rows := result.rows ++ [{ pending with status := "superseded" }] }
      else reconcileDestination input current preferred role pending result
  pure (result, seen.insert id)

def reconcile (input : Option Reconciliation) (records : Records) (current : Current)
    (replaced : Replaced) : Result Resolved := do
  match input with
  | none => pure .empty
  | some input =>
    let preferred := input.nativeOwner.getD input.fallbackOwner
    let _ ← requireText preferred "admitted durable owner"
    let role := if input.nativeOwner.isSome then "repo-native" else "fallback"
    let (result, _) ← input.residue.foldlM
      (reconcileResidue input records current replaced preferred role) (.empty, ∅)
    pure { result with rows := result.rows.insertionSort fun a b => a.id ≤ b.id }

/-! ### States and consequences -/

structure State where
  id : String
  materialRevision : Option String
  source : Reference
  status : String
  currentScope : List String
  supersededScope : Option (List String)
  staleDependencies : Option (List Reference)
  rationaleReference : String
  deriving DecidableEq, Repr

def State.toValue (s : State) : Value :=
  .record [("current_scope", some (.strings s.currentScope)), ("id", some (.string s.id)),
    ("material_revision", some (.orNull (s.materialRevision.map .string))),
    ("rationale_reference", some (.string s.rationaleReference)),
    ("source", some s.source.toValue),
    ("stale_dependencies", s.staleDependencies.map fun refs => .array (refs.map Reference.toValue)),
    ("status", some (.string s.status)), ("superseded_scope", s.supersededScope.map .strings)]

structure Consequence where
  id : String
  materialRevision : Option String
  scope : List String
  summary : String
  source : Reference
  authors : List Actor
  authority : Authority
  deriving DecidableEq, Repr

def Consequence.toValue (c : Consequence) : Value :=
  .object [("authority", c.authority.toValue), ("authors", .array (c.authors.map Actor.toValue)),
    ("id", .string c.id), ("material_revision", .orNull (c.materialRevision.map .string)),
    ("scope", .strings c.scope), ("source", c.source.toValue), ("summary", .string c.summary)]

/-- What the selected semantic routes say: `routes` is the normalised route fact. -/
def routeMatches (routes : Option Value) (record : Record) : Bool :=
  match routes with
  | none => false
  | some r =>
    r.field "status" = .string "current" &&
      match (r.field "routes").asArray with
      | some ids => record.semanticRoutes.any fun id => Value.string id ∈ ids
      | none => false

def routesUnresolved (routes : Option Value) : Bool :=
  match routes with
  | none => true
  | some r => r.field "status" ≠ .string "current" || r.field "posture" = .string "unresolved"

/-- The scopes of a record that the request selects: those it asks for, or all of them when a
    selected route names the record. -/
def selectedScope (applicable : List String) (routes : Option Value) (record : Record) :
    List String :=
  let selected := record.scope.filter (· ∈ applicable)
  if selected = [] ∧ record.semanticRoutes ≠ [] ∧ routeMatches routes record = true then record.scope
  else selected

def unresolvedState (applicable : List String) (routes : Option Value) (record : Record) :
    Option State :=
  if record.scope.filter (· ∈ applicable) = [] ∧ record.semanticRoutes ≠ [] ∧
      routeMatches routes record = false ∧ routesUnresolved routes = true then
    some {
      id := record.id, materialRevision := record.materialRevision
      status := "applicability-unresolved", currentScope := [], source := record.source
      rationaleReference := record.rationaleReference
      supersededScope := none, staleDependencies := none }
  else none

/-- Everything whose current revision the record is bound to. -/
def Record.restsOn (record : Record) : List Reference :=
  record.authority.basis ++ record.dependencies ++ record.context

def staleDependencies (current : Current) (record : Record) : List Reference :=
  sortReferences (record.restsOn.filter fun d => current (d.owner, d.reference) ≠ some d.revision)

/-- The status of a selected record, from its scopes that nothing supersedes and its stale
    dependencies. -/
def currency (remaining : List String) (stale : List Reference) : String :=
  if remaining = [] then "superseded" else if stale ≠ [] then "stale" else "current"

theorem currency_eq_current {remaining : List String} {stale : List Reference} :
    currency remaining stale = "current" ↔ remaining ≠ [] ∧ stale = [] := by
  unfold currency
  split
  · simp [*]
  split <;> simp_all

/-- The states and consequences one record adds to the report. -/
def projectRecord (applicable : List String) (routes : Option Value) (current : Current)
    (replaced : Replaced) (resolved : Resolved) (record : Record) :
    List State × List Consequence :=
  let unresolved := (unresolvedState applicable routes record).toList
  let selected := selectedScope applicable routes record
  if selected = [] then (unresolved, [])
  else
    let remaining := selected.filter fun s => replaced.has record.id s = false
    let stale := staleDependencies current record
    let status := currency remaining stale
    let place := resolved.sources.getD record.id (record.source, record.rationaleReference)
    let state : State := {
      id := record.id, materialRevision := record.materialRevision, source := place.1, status
      currentScope := if status = "current" then remaining else []
      supersededScope := some (selected.filter fun s => replaced.has record.id s = true)
      staleDependencies := some stale, rationaleReference := place.2 }
    let consequences : List Consequence :=
      if status = "current" ∧ resolved.dismissed.contains record.id = false then
        [{ id := record.id, materialRevision := record.materialRevision, scope := remaining
           summary := record.consequence, source := place.1, authors := record.authors
           authority := record.authority }]
      else []
    (unresolved ++ [state], consequences)

structure Projection where
  consequences : List Consequence
  states : List State
  reconciliation : List ResidueRow
  deriving DecidableEq, Repr

def Projection.toValue (p : Projection) : Value :=
  .record [("consequences", some (.array (p.consequences.map Consequence.toValue))),
    ("reconciliation",
      if p.reconciliation = [] then none
      else some (.array (p.reconciliation.map ResidueRow.toValue))),
    ("states", some (.array (p.states.map State.toValue)))]

/-- The admitted graph: everything `project` checks before it reports. -/
structure Admitted where
  applicableScope : List String
  records : Records
  current : Current
  replaced : Replaced

def admitContext (context : Context) : Result Admitted := do
  check (context.records.length ≤ 64)
    "decision context must be a bounded selection (at most 64 records)"
  let applicableScope ← scopes context.applicableScope
  let records ← context.records.foldlM (admitRecord digest) ∅
  let admissions ← context.admissions.foldlM admitAdmission ∅
  let current ← context.currentDependencies.foldlM admitDependency fun _ => none
  let replaced ← (valuesOf records).foldlM (admitProvenance records admissions) ∅
  checkAcyclic records
  let _ ← lineageHeads records replaced
  pure { applicableScope, records, current, replaced }

def project (context : Context) (routes : Option Value) : Result (Option Projection) := do
  let admitted ← admitContext digest context
  let resolved ← reconcile context.reconciliation admitted.records admitted.current
    admitted.replaced
  let rows := (valuesOf admitted.records).map
    (projectRecord admitted.applicableScope routes admitted.current admitted.replaced resolved)
  let states := rows.flatMap (·.1)
  if states = [] ∧ resolved.rows = [] then pure none
  else
    pure (some {
      consequences := rows.flatMap (·.2), states, reconciliation := resolved.rows })

end AgenticCore.Continuity
