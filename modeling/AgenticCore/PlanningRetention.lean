import AgenticCore.ClosedGroups
import AgenticCore.JsonBytes
import AgenticCore.CapabilityContract

/-!
# Which terminal planning sources may be retired (`native_planning_retention.rs`)

* `terminal`       : a source that poses the question whether it is finished.
* `classify`       : what one observed source is: a candidate, a proof receipt, and its names.
* `inventoryFor`   : the candidates on offer, each with the group that must be retired with it.
* `checkSelection` : the selections `view` turns into an action.
-/

set_option autoImplicit false

namespace AgenticCore.PlanningRetention

open Json Text

def HOME : String := ".agentic-workspace/planning/execplans/"
/-- `native_planning::STATE`. -/
def STATE : String := ".agentic-workspace/planning/state.toml"
def INDEX : String := ".agentic-workspace/proof/receipts/index.json"
def CARRIER : String := ".agentic-workspace/proof/current/index-custody.json"
def LIMIT : Nat := 32
def INCOMPLETE : String := "Planning closed group binding incomplete; preserved"

/-- The other parts of the program an inventory consults on the target, and the libraries. -/
structure Host where
  parse : ByteArray → Option Value
  /-- `String::from_utf8_lossy`. -/
  lossy : ByteArray → String
  /-- `native_intent::hash`. -/
  revision : ByteArray → String
  digest : Value → String
  /-- `std::fs::canonicalize(target)`. -/
  canonical : Result String
  /-- The status of `native_planning::legacy_disposition`. -/
  aggregate : Result String
  /-- `native_planning_create::inspect_origin` accepts the source. -/
  recognised : String → Value → Bool
  /-- Whether the update `native_planning_update::inspect` finds is committed. -/
  update : String → Value → Result (Option Bool)
  /-- `proof_publication::retention_planning_subject`, errors aside. -/
  planningSubject : Value → Option String
  /-- `proof_publication::retention_reusable`. -/
  reusable : Value → Result Bool
  /-- `proof_publication::retention_committed` accepts the receipt. -/
  committed : Value → Bool
  /-- An Aho-Corasick automaton: the patterns it finds in a text. -/
  matcher : List String → Result (String → List String)

/-- The owner Planning has admitted, a canonical execution plan. -/
structure SelectedOwner where
  ref : String
  canonical : startsWith HOME ref = true

/-- What was observed on disk: Planning's sources and their consumers, by path. -/
structure Observed where
  planning : BTreeMap String ByteArray
  consumers : BTreeMap String ByteArray

def Observed.sources (o : Observed) : BTreeMap String ByteArray :=
  o.planning.insertMany o.consumers.toList

variable (host : Host)

/-! ## Candidates and receipts -/

def CLOSABLE : List (String × String) :=
  [(".agentic-workspace/planning/decompositions/", "planning-decomposition/v1"),
    (".agentic-workspace/planning/lanes/", "planning-lane/v1")]

def HISTORICAL : List (String × String) :=
  [("reviews/", "planning-review/v1"),
    ("closeout-evidence/", "planning-closeout-evidence/v1"),
    ("integration-proposals/", "planning-integration-proposal/v1"),
    ("integration-receipts/", "planning-integration-receipt/v1"),
    ("assignments/", "agentic-workspace/planning-assignment/v1"),
    ("lanes/archive/", "planning-lane/v1")]

def terminal (path : String) (bytes : ByteArray) : Bool :=
  endsWith ".json" path && match host.parse bytes with
  | none => false
  | some body =>
    (startsWith HOME path &&
      (startsWith (HOME ++ "archive/") path || body.field "lifecycle" == .string "archived" ||
        (body.field "lifecycle" == .string "closed" && body.field "phase" == .string "complete"))) ||
    (CLOSABLE.any (fun (root, kind) => startsWith root path && body.field "kind" == .string kind) &&
      body.field "status" == .string "closed") ||
    HISTORICAL.any fun (root, kind) =>
      startsWith (".agentic-workspace/planning/" ++ root) path && body.field "kind" == .string kind

/-- The aggregate state is there and its owner has released it. -/
def aggregateReady (o : Observed) : Bool :=
  o.planning.contains STATE && match host.aggregate with
  | .ok status => status == "retirement-ready"
  | .error _ => false

variable (selected : Option SelectedOwner)

/-- A terminal source other than the selected owner. -/
def isPlan (path : String) (bytes : ByteArray) : Bool :=
  terminal host path bytes && selected.map (·.ref) ≠ some path

/-- Its producer's outcome is not known to be committed. -/
def uncertain (path : String) (body : Value) : Bool :=
  !host.recognised path body || match host.update path body with
  | .ok (some committed) => !committed
  | .ok none => false
  | .error _ => true

def isProof (path : String) (body : Value) : Bool :=
  startsWith ".agentic-workspace/proof/receipts/" path && endsWith ".json" path &&
    (body.field "kind").asStr.getD "" ∈
      ["agentic-workspace/proof-receipt/v1",
        "agentic-workspace/assignment-structural-proof-receipt/v1"]

def proofSubject (path : String) (body : Value) : Option String :=
  if isProof path body then host.planningSubject body else none

/-- A receipt that is only provenance: it is traversed to its own consumers. -/
def provenance (path : String) (body : Value) : Bool :=
  isProof path body &&
    ((proofSubject host path body).isSome ||
      !(match host.reusable body with | .ok reusable => reusable | .error _ => true)) &&
    (((body.field "proof_subject").field "runtime").field "implementation" ≠
        .string "native-aw-proof" || host.committed body) &&
    ((body.get? "publication_custody").isNone || host.committed body) &&
    (body.get? "custody").isNone && (body.get? "invocation").isNone

/-- The names under which a source may be referred to. -/
def names (path : String) (body : Value) : Result (List String) := do
  let ids := ["id", "assignment_id", "receipt_id"].filterMap fun field =>
    (body.field field).asStr.filter (· ≠ "")
  let identity ← transposeM (fun id => do
      let target ← host.canonical
      pure ("planning:" ++ host.digest (.object [("id", .string id), ("target", .string target)])))
    (if startsWith HOME path then (body.field "id").asStr else none)
  pure (path :: ids ++ identity.toList)

/-- Only plans and proof receipts are referred to. -/
def referenceNames (path : String) (bytes : ByteArray) (body : Value) : Result (List String) :=
  if isPlan host selected path bytes || isProof path body then names host path body else pure []

structure Source where
  path : String
  bytes : ByteArray
  eligible : Bool
  uncertain : Bool
  provenance : Bool
  subject : Option String
  names : List String

/-- One turn of the loop over the observed sources. -/
def classify (ready : Bool) (path : String) (bytes : ByteArray) : Result Source :=
  if path = STATE ∧ ready = true then
    pure ⟨path, bytes, true, false, false, none, [path]⟩
  else match host.parse bytes with
  | none => pure ⟨path, bytes, false, false, false, none, []⟩
  | some body => do
    let known ← referenceNames host selected path bytes body
    let plan := isPlan host selected path bytes
    let unsure := plan && uncertain host path body
    pure ⟨path, bytes, plan && !unsure, unsure, provenance host path body,
      proofSubject host path body, known⟩

/-! ## References -/

/-- A receipt's custody is no reference, and its committed publication names its subject. -/
def searchedBody (s : Source) (body : Value) : Value :=
  if s.provenance && body.isObject then
    let stripped := body.remove "publication_custody"
    match s.subject with
    | some subject => stripped.insert "planning_subject" (.string subject)
    | none => stripped
  else body

/-- The text in which references are searched for. -/
def searched (s : Source) : String :=
  match host.parse s.bytes with
  | some body => text (searchedBody s body)
  | none => host.lossy s.bytes

def searchable (path : String) : Bool := path ∉ [INDEX, CARRIER]

/-- The names found in each source. -/
def search (sources : List Source) : Result (List (Source × List String)) :=
  let patterns := sortDedup (sources.flatMap (·.names))
  if patterns = [] then pure []
  else do
    let find ← host.matcher patterns
    pure ((sources.filter (searchable ·.path)).map fun s => (s, find (searched host s)))

/-- Candidates, receipts that are only provenance, and who refers to whom. -/
def graph (sources : List Source) (found : List (Source × List String)) :
    ClosedGroups.Graph String where
  member path := sources.any fun s => s.path = path && s.eligible
  through path := sources.any fun s => s.path = path && s.provenance
  referrers path := sortDedup <| (found.filter fun (q, hits) => q.path ≠ path &&
    sources.any fun s => s.path = path && s.names.any (· ∈ hits)).map (·.1.path)

/-! ## The inventory -/

structure Inventory where
  sources : BTreeMap String String
  required : BTreeMap String (List String)
  guardRevision : Option String
  selected : Option SelectedOwner
  protected_ : List Value

def EXCEEDS : String := "terminal group exceeds current batch bound"

def preserved (source reason : String) : Value :=
  .object [("reason", .string reason), ("source", .string source)]

def refusal (refused : String × Bool × List String) : Value :=
  let (seed, exceeds, blockers) := refused
  let blockers := sortDedup (if exceeds then EXCEEDS :: blockers else blockers)
  .object [("consumers", .strings (blockers.take 8)), ("source", .string seed)]

/-- What is preserved: at most `LIMIT` entries after the aggregate's own. -/
def protectedOf (aggregate : List Value) (sources : List Source)
    (offer : ClosedGroups.Offer String) : List Value :=
  let unsure := (sources.filter (·.uncertain)).map fun s =>
    preserved s.path "producer outcome uncertain or provenance unrecognised"
  let listed := aggregate ++ unsure.take (LIMIT - aggregate.length)
  listed ++ (offer.refused.map refusal).take (LIMIT - listed.length)

def aggregateProtected (o : Observed) : List Value :=
  if o.planning.contains STATE then
    match host.aggregate with
    | .ok _ => []
    | .error e => [preserved STATE e.message]
  else []

/-- The seeds: all candidates, or the preferred ones among them. -/
def seeds (sources : List Source) (preferred : List String) : List String :=
  let eligible := (sources.filter (·.eligible)).map (·.path)
  if preferred = [] then eligible else preferred.filter (· ∈ eligible)

def inventoryFor (o : Observed) (preferred : List String) : Result Inventory :=
  let ready := aggregateReady host o
  if !ready && !o.planning.toList.any fun (path, bytes) => isPlan host selected path bytes then
    pure ⟨∅, ∅, none, selected, aggregateProtected host o⟩
  else do
    let sources ← o.sources.toList.mapM fun (path, bytes) => classify host selected ready path bytes
    let found ← search host sources
    let offer ← okOr (ClosedGroups.offerAll (graph sources found) LIMIT (sources.length + 1)
      (seeds sources preferred)) "the search has run out of fuel"
    let required : BTreeMap String (List String) := .ofList offer.required compare
    check (∀ path ∈ offer.offered, required.contains path = true) INCOMPLETE
    let guards := (sources.filter (·.path ∉ offer.offered)).map fun s =>
      (s.path, Value.string (host.revision s.bytes))
    pure {
      sources := .ofList ((sources.filter (·.path ∈ offer.offered)).map fun s =>
        (s.path, host.revision s.bytes)) compare
      required
      guardRevision := some (host.digest (.object guards))
      selected
      protected_ := protectedOf (aggregateProtected host o) sources offer }

/-! ## The judgement -/

structure Judgement where
  sources : List String
  terminal : Bool
  noUnresolvedIntent : Bool
  noContinuingValue : Bool
  reason : String

/-- Whether `view` turns a judgement into an action. -/
def checkSelection (binding : Inventory) (args : Judgement) : Result Bool :=
  if args.terminal = false ∨ args.noUnresolvedIntent = false ∨ args.noContinuingValue = false ∨
      trim args.reason = "" then pure false
  else do
    args.sources.forM fun path => do
      check (binding.sources.contains path = true) "Planning retirement source is not offered"
      check (∀ member ∈ (binding.required[path]?).getD [], member ∈ args.sources)
        "Planning retirement requires the complete closed group"
    pure true

end AgenticCore.PlanningRetention
