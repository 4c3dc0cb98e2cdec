import AgenticCore.AnsweredDecision
import AgenticCore.Paging

/-!
# Route requests and the discovery of routes (`semantic_routes.rs`)

* `discovery`           : the page of a branch's children behind a cursor.
* `Host.resolveRoutes`  : what a catalogue and up to two public requests resolve to.
* `resolveRoutes_discovery` : what is resolved shows the page the current discovery request asks for.
* `ImmediateChild`      : the children of a branch of the catalogue.
* `discovery_complete`  : **browsing a branch ends, and shows each of its children once, in order.**
-/

set_option autoImplicit false

namespace AgenticCore

namespace SemanticRoutes

open Json Text Paging

/-! ## Discovery -/

/-- What the identities of a branch's children start with. -/
def branchPrefix (parent : String) : String := if parent = "" then "" else parent ++ "/"

/-- The child of the branch that a route is or is below. -/
def childOf (pre route : String) : Option String :=
  if startsWith pre route = true then
    some (pre ++ String.ofList ((route.toList.drop pre.toList.length).takeWhile (· ≠ '/')))
  else none

/-- The children of a branch, as an ordered set. -/
def childrenOf (routes : List String) (parent : String) : List String :=
  sortDedup (routes.filterMap (childOf (branchPrefix parent)))

/-- A child's identity, and whether it is itself a route. -/
structure Child where
  leaf : Bool
  id : String
  deriving DecidableEq, Repr

/-- The page of the branch behind the cursor. -/
def discovery (routes : List String) (parent after : String) : Page String Child :=
  let remaining := (childrenOf routes parent).filter (after < ·)
  let children := (remaining.take 16).map fun id => { leaf := decide (id ∈ routes), id : Child }
  { items := children
    next := if 16 < remaining.length then children.getLast?.map (·.id) else none }

def Child.toValue (c : Child) : Value := .object [("id", .string c.id), ("leaf", .bool c.leaf)]

/-- The branch a client looks at: its identity, the cursor and a passive resource. -/
structure Looked where
  parent : String
  after : String
  resource : Value

def Looked.start : Looked := ⟨"", "", .null⟩

def discoveryValue (routes : List String) (looked : Looked) : Value :=
  let page := discovery routes looked.parent looked.after
  let shown := Value.object [
    ("children", .array (page.items.map Child.toValue)),
    ("next_after", .orNull (page.next.map .string)),
    ("parent", .string looked.parent)]
  if looked.resource = .null then shown else shown.insert "resource" looked.resource

/-! ## Requests -/

def DISCOVER : String := "semantic-routes/discover/v1"

def SELECT : String := "semantic-routes/select/v1"

def RESULT : String := "agentic-workspace/semantic-route-result/v1"

def OWNER : String := "semantic-routes"

structure Input where
  currentWork : CurrentWorkIdentity
  source : SemanticRouteSource
  request : Option Value

section Resolve

-- `source_schema()`, the checked schema of the requests' arguments
variable (host : Host) (schema : Value)

/-- The schema of a request's arguments, self-contained. -/
def requestSchema (definition : String) : Value :=
  let defs := schema.field "$defs"
  ((defs.field definition).insert "$schema"
      (.string "https://json-schema.org/draft/2020-12/schema")).insert "$defs"
    (.object [("route_id", defs.field "route_id")])

def requestShapes : List RequestShapeInput :=
  [⟨DISCOVER, requestSchema schema "semantic_route_discovery", RESULT⟩,
    ⟨SELECT, requestSchema schema "semantic_route_choice", RESULT⟩]

def shapeValue (shape : RequestShapeInput) : Value :=
  .object [
    ("input_schema", shape.inputSchema),
    ("kind", .string shape.kind),
    ("result_kind", .string shape.resultKind)]

def requestsValue : Value := .array ((requestShapes schema).map shapeValue)

def ownerRevision : String := host.digest (requestsValue schema)

def contractValue (revision : String) : Value :=
  .object [
    ("kind", .string CAPABILITY_CONTRACT_KIND),
    ("owners", .array [.object [
      ("owner", .string OWNER),
      ("requests", requestsValue schema),
      ("revision", .string (ownerRevision host schema))]]),
    ("revision", .string revision)]

def contractRevision : String := host.digest (contractValue host schema "pending")

/-- The contract as it is read. -/
def routeContract : CapabilityContractInput where
  kind := CAPABILITY_CONTRACT_KIND
  revision := contractRevision host schema
  owners := [{
    owner := OWNER
    revision := ownerRevision host schema
    domains := []
    effects := []
    operations := []
    requests := requestShapes schema }]
  claimAuthorities := []
  restrictionAuthorities := []

/-- A request a client may send. -/
def requestTemplate (source work : Value) (kind : String) (arguments : Value) : Value :=
  .object [
    ("arguments", arguments),
    ("capability_revision", .string (contractRevision host schema)),
    ("id", .string kind),
    ("kind", .string PUBLIC_REQUEST_KIND),
    ("owner", .string OWNER),
    ("owner_revision", .string (ownerRevision host schema)),
    ("request_kind", .string kind),
    ("source_revision", source.field "revision"),
    ("task_identity", work)]

def templates (source work : Value) : List Value :=
  [requestTemplate host schema source work DISCOVER (.object [("parent", .string "")]),
    requestTemplate host schema source work SELECT
      (.object [("posture", .string "unresolved"), ("routes", .array [])])]

/-- The owner's answer to a current request. -/
def settledContribution (source requestIdentity : Value) : ContributionInput where
  restrictionBasis := none
  owner := OWNER
  revision := ((source.field "revision").asStr).getD ""
  relevant := true
  settled := true
  facts := .object []
  material := none
  blockers := []
  decisions := []
  actions := []
  claims := ⟨[], []⟩
  outcome := none
  requestResponse := some ⟨((requestIdentity.asStr).getD ""), [], "settled"⟩
  extra := []

/-- What the requests handled so far come to. -/
structure RouteState where
  intent : Value
  looked : Looked
  requestIdentity : Value
  stale : Bool
  kinds : List String
  contributions : List ContributionInput

/-- The selection a request makes, as the intent carries it. -/
def selectionOf (request : Value) : Value :=
  .object [
    ("authority_effect", .string "applicability-only"),
    ("posture", (request.field "arguments").field "posture"),
    ("provenance", .string "agent-selected"),
    ("routes", (request.field "arguments").field "routes"),
    ("source_revision", request.field "source_revision"),
    ("task_identity", request.field "task_identity")]

/-- A request about other work or another catalogue. -/
def requestStale (source work request : Value) : Bool :=
  request.field "task_identity" ≠ work ∨ request.field "source_revision" ≠ source.field "revision"

/-- The branch a discovery request asks for. The owner's schema makes its `parent` a text. -/
def lookedOf (request : Value) : Looked where
  parent := (((request.field "arguments").field "parent").asStr).getD ""
  after := (((request.field "arguments").field "after").asStr).getD ""
  resource := (request.field "arguments").field "resource"

/-- The request's effect on the intent and on the branch looked at, and whether it is stale. -/
def applyRequest (source work request : Value) (s : RouteState) :
    Result (Value × Looked × Bool) := do
  let stale := requestStale source work request
  if request.field "request_kind" = .string SELECT then
    let intent := s.intent.insert "semantic_task_routes" (selectionOf request)
    let (intent, fact) ← normalizeSemanticRoutes intent
    let fact ← okOr fact "route source supplied"
    pure (intent.insert "semantic_task_routes" (selectionOf request), s.looked,
      stale || decide (fact.field "status" ≠ .string "current"))
  else
    pure (s.intent, if stale then s.looked else lookedOf request, stale)

/-- One submitted request. -/
def Host.handleRequest (source work : Value) (s : RouteState) (request : Value) :
    Result RouteState := do
  let prepared ← host.prepareRequest request (request.field "task_identity")
    (routeContract host schema)
  check (request.field "owner" = .string OWNER) "route request names another owner"
  let kind := ((request.field "request_kind").asStr).getD ""
  check (kind ∉ s.kinds) "duplicate semantic route request kind"
  let requestIdentity := prepared.field "identity"
  let (intent, looked, stale) ← applyRequest source work request s
  let s := { s with
    intent, looked, requestIdentity, kinds := kind :: s.kinds, stale := s.stale || stale }
  if stale then pure s
  else pure { s with
    intent := s.intent.insert "public_request" (prepared.field "request")
    contributions := [settledContribution source requestIdentity] }

def submitted : Option Value → List Value
  | some (.array rows) => rows
  | some row => [row]
  | none => []

/-- `resolve`: the view, and the intent for the next resolution. -/
def Host.resolveRoutes (input : Input) : Result (Value × Value) := do
  let intent := Value.object [
    ("current_work", input.currentWork.toValue),
    ("semantic_route_source", .object [
      ("revision", .string input.source.revision),
      ("routes", .strings input.source.routes)])]
  let (intent, _) ← normalizeSemanticRoutes intent
  let source := intent.field "semantic_route_source"
  let work := intent.field "current_work"
  let intent := intent.remove "semantic_task_routes"
  let requests := submitted input.request
  check (requests.length ≤ 2) "route requests exceed bounded selection and discovery"
  let state ← requests.foldlM (Host.handleRequest host schema source work)
    ⟨intent, .start, .null, false, [], []⟩
  let decision ← host.compile {
    contributions := state.contributions
    decisionContext := none
    intent := state.intent
    capabilityContract := some (routeContract host schema) }
  pure (.object [
      ("authority_effect", .string "applicability-only"),
      ("capability_contract", contractValue host schema (contractRevision host schema)),
      ("decision", decision),
      ("discovery", discoveryValue input.source.routes state.looked),
      ("kind", .string RESULT),
      ("request_identity", state.requestIdentity),
      ("requests", .array (templates host schema source work)),
      ("status", .string (if state.stale then "stale" else "current"))],
    state.intent.remove "public_request")

end Resolve

/-! ## What a resolution shows -/

section Shown

variable {host : Host} {schema : Value}

/-- The branch looked at after a request: the one a current discovery request asks for. -/
def look (source work : Value) (looked : Looked) (request : Value) : Looked :=
  if request.field "request_kind" = .string SELECT ∨ requestStale source work request = true
  then looked else lookedOf request

theorem applyRequest_looked {source work request intent : Value} {s : RouteState}
    {looked : Looked} {stale : Bool}
    (h : applyRequest source work request s = .ok (intent, looked, stale)) :
    looked = look source work s.looked request := by
  unfold applyRequest at h
  unfold look
  by_cases hselect : request.field "request_kind" = .string SELECT
  · simp only [if_pos hselect, Except.bind_eq_ok_iff, Except.pure_eq_ok_iff] at h
    obtain ⟨_, -, _, -, heq⟩ := h
    rw [if_pos (Or.inl hselect)]
    exact (congrArg (·.2.1) heq).symm
  · simp only [if_neg hselect, Except.pure_eq_ok_iff] at h
    have hlooked := congrArg (·.2.1) h
    simp only at hlooked
    rw [← hlooked]
    simp [hselect]

theorem handleRequest_looked {source work request : Value} {s s' : RouteState}
    (h : Host.handleRequest host schema source work s request = .ok s') :
    s'.looked = look source work s.looked request := by
  simp only [Host.handleRequest, Except.bind_eq_ok_iff] at h
  obtain ⟨_, -, _, -, _, -, ⟨intent, looked, stale⟩, happly, heq⟩ := h
  have hlooked := applyRequest_looked happly
  split at heq
  · cases heq
    exact hlooked
  · cases heq
    exact hlooked

theorem handleRequests_looked {source work : Value} :
    ∀ {requests : List Value} {s s' : RouteState},
      requests.foldlM (Host.handleRequest host schema source work) s = .ok s' →
        s'.looked = requests.foldl (look source work) s.looked
  | [], s, s', h => by
    cases h
    rfl
  | request :: requests, s, s', h => by
    obtain ⟨mid, hmid, hrest⟩ := foldlM_cons_eq_ok.mp h
    rw [handleRequests_looked hrest, handleRequest_looked hmid, List.foldl_cons]

/-- **What is resolved shows the page of the branch that the current discovery request asks for.** -/
theorem resolveRoutes_discovery {input : Input} {view intent : Value}
    (h : Host.resolveRoutes host schema input = .ok (view, intent)) :
    ∃ source work, view.field "discovery" = discoveryValue input.source.routes
      ((submitted input.request).foldl (look source work) .start) := by
  simp only [Host.resolveRoutes, Except.bind_eq_ok_iff, Except.pure_eq_ok_iff] at h
  obtain ⟨⟨intent', _⟩, -, _, -, state, hstate, _, -, heq⟩ := h
  refine ⟨intent'.field "semantic_route_source", intent'.field "current_work", ?_⟩
  rw [← (Prod.mk.inj heq).1]
  show discoveryValue _ state.looked = _
  rw [handleRequests_looked hstate]

end Shown

/-! ## The children of a branch -/

/-- The identity extends the branch's by one segment, and is a route or the start of one. -/
def ImmediateChild (routes : List String) (parent id : String) : Prop :=
  ∃ route ∈ routes, ∃ segment : List Char, '/' ∉ segment ∧
    id = branchPrefix parent ++ String.ofList segment ∧
      (route = id ∨ startsWith (id ++ "/") route = true)

theorem childOf_eq_some {pre route id : String} :
    childOf pre route = some id ↔ ∃ rest, route = pre ++ String.ofList rest ∧
      id = pre ++ String.ofList (rest.takeWhile (· ≠ '/')) := by
  unfold childOf
  constructor
  · intro h
    split at h
    · rename_i hpre
      obtain ⟨rest, rfl⟩ := startsWith_iff.mp hpre
      refine ⟨rest, rfl, ?_⟩
      rw [String.toList_append, List.drop_left, String.toList_ofList] at h
      exact (Option.some.inj h).symm
    · cases h
  · rintro ⟨rest, rfl, rfl⟩
    rw [if_pos (startsWith_iff.mpr ⟨rest, rfl⟩), String.toList_append, List.drop_left,
      String.toList_ofList]

/-- What is left of a route behind a child's prefix starts with the child's segment. -/
theorem segment_iff {rest segment : List Char} :
    (segment = rest.takeWhile (· ≠ '/')) ↔
      '/' ∉ segment ∧ (rest = segment ∨ ∃ below, rest = segment ++ '/' :: below) := by
  constructor
  · rintro rfl
    refine ⟨fun hmem => ?_, ?_⟩
    · have := List.mem_takeWhile_imp hmem
      simp at this
    · have hsplit := List.takeWhile_append_dropWhile (p := (· ≠ '/')) (l := rest)
      cases hdrop : rest.dropWhile (· ≠ '/') with
      | nil =>
        rw [hdrop, List.append_nil] at hsplit
        exact Or.inl hsplit.symm
      | cons c below =>
        have hc : c = '/' := by
          have := List.head?_dropWhile_not (p := (· ≠ '/')) (l := rest)
          rw [hdrop] at this
          simpa using this
        rw [hdrop, hc] at hsplit
        exact Or.inr ⟨below, hsplit.symm⟩
  · rintro ⟨hfree, rfl | ⟨below, rfl⟩⟩
    · symm
      rw [List.takeWhile_eq_self_iff]
      intro c hc
      exact decide_eq_true (ne_of_mem_of_not_mem hc hfree)
    · rw [List.takeWhile_append_of_pos fun c hc => decide_eq_true (ne_of_mem_of_not_mem hc hfree)]
      simp

theorem mem_childrenOf {routes : List String} {parent id : String} :
    id ∈ childrenOf routes parent ↔ ImmediateChild routes parent id := by
  rw [childrenOf, mem_sortDedup, List.mem_filterMap]
  constructor
  · rintro ⟨route, hroute, hchild⟩
    obtain ⟨rest, rfl, rfl⟩ := childOf_eq_some.mp hchild
    obtain ⟨hfree, hrest⟩ := segment_iff.mp (rfl : rest.takeWhile (· ≠ '/') = _)
    refine ⟨_, hroute, _, hfree, rfl, ?_⟩
    rcases hrest with hrest | ⟨below, hrest⟩
    · exact Or.inl (congrArg (branchPrefix parent ++ String.ofList ·) hrest)
    · refine Or.inr (startsWith_iff.mpr ⟨below, ?_⟩)
      rw [String.append_assoc, String.append_assoc]
      refine congrArg (branchPrefix parent ++ ·) (String.toList_inj.mp ?_)
      simpa using hrest
  · rintro ⟨route, hroute, segment, hfree, rfl, hroute'⟩
    refine ⟨route, hroute, childOf_eq_some.mpr ?_⟩
    rcases hroute' with rfl | hbelow
    · exact ⟨segment, rfl, by rw [← segment_iff.mpr ⟨hfree, Or.inl rfl⟩]⟩
    · obtain ⟨below, rfl⟩ := startsWith_iff.mp hbelow
      refine ⟨segment ++ '/' :: below, ?_, ?_⟩
      · rw [String.append_assoc, String.append_assoc]
        refine congrArg (branchPrefix parent ++ ·) (String.toList_inj.mp ?_)
        simp
      · rw [← segment_iff.mpr ⟨hfree, Or.inr ⟨below, rfl⟩⟩]

/-! ## Browsing a branch -/

theorem discovery_eq_cutPage (routes : List String) (parent : String) :
    discovery routes parent = cutPage 16 (childrenOf routes parent)
      fun id => { leaf := decide (id ∈ routes), id : Child } := by
  funext after
  unfold discovery cutPage behind
  simp only [List.getLast?_map, Option.map_map, Function.comp_def, Option.map_id_fun', id]

theorem semanticRouteId_head {route : String} (h : semanticRouteId route = true) :
    ∃ c rest, route.toList = c :: rest ∧ c ≠ '/' := by
  unfold semanticRouteId at h
  cases hroute : route.toList with
  | nil =>
    rw [hroute] at h
    simp [List.splitOn, List.splitOnP_nil] at h
  | cons c rest =>
    refine ⟨c, rest, rfl, ?_⟩
    rintro rfl
    rw [hroute] at h
    simp [List.splitOn, List.splitOnP_cons_eq_if_modifyHead] at h

/-- The children of a branch of admitted routes stand behind the empty cursor. -/
theorem empty_lt_child {routes : List String} (h : ∀ r ∈ routes, semanticRouteId r = true)
    {parent id : String} (hid : id ∈ childrenOf routes parent) : "" < id := by
  rw [childrenOf, mem_sortDedup, List.mem_filterMap] at hid
  obtain ⟨route, hroute, hchild⟩ := hid
  obtain ⟨rest, hrest, rfl⟩ := childOf_eq_some.mp hchild
  have hne : (branchPrefix parent ++ String.ofList (rest.takeWhile (· ≠ '/'))).toList ≠ [] := by
    rw [String.toList_append, String.toList_ofList]
    by_cases hparent : parent = ""
    · have hpre : branchPrefix parent = "" := if_pos hparent
      obtain ⟨c, rest', hlist, hc⟩ := semanticRouteId_head (h route hroute)
      rw [hpre] at hrest
      rw [hrest] at hlist
      simp only [String.toList_append, String.toList_ofList] at hlist
      have : rest = c :: rest' := by simpa using hlist
      simp [this, hc]
    · have hpre : branchPrefix parent = parent ++ "/" := if_neg hparent
      rw [hpre]
      simp
  rw [String.lt_iff_toList_lt]
  cases hlist : (branchPrefix parent ++ String.ofList (rest.takeWhile (· ≠ '/'))).toList with
  | nil => exact absurd hlist hne
  | cons c cs => exact List.nil_lt_cons c cs

theorem pairwise_sortDedup (routes : List String) : (sortDedup routes).Pairwise (· < ·) :=
  pairwise_dedupRuns Function.injective_id (List.pairwise_insertionSort _ routes)

/-- **From the empty cursor on, the pages of a branch of an admitted catalogue end, and show each
    immediate child of the branch once, in ascending order, as a leaf where it is a route.** -/
theorem discovery_complete {routes admitted : List String} {field : String}
    (h : routeIds routes field = .ok admitted) (parent : String) :
    ∃ pages, Browse (discovery routes parent) "" pages ∧
      (∀ pages', Browse (discovery routes parent) "" pages' → pages' = pages) ∧
      ((pages.flatMap (·.items)).map (·.id)).Pairwise (· < ·) ∧
      (∀ id, id ∈ (pages.flatMap (·.items)).map (·.id) ↔ ImmediateChild routes parent id) ∧
      ∀ child ∈ pages.flatMap (·.items), (child.leaf = true ↔ child.id ∈ routes) := by
  obtain ⟨hids, -⟩ := routeIds_eq_ok.mp h
  have hall : behind (childrenOf routes parent) "" = childrenOf routes parent := by
    rw [behind, List.filter_eq_self]
    intro id hid
    exact decide_eq_true (empty_lt_child hids hid)
  obtain ⟨pages, hbrowse, hitems⟩ := browse_cutPage
    (show (childrenOf routes parent).Pairwise (· < ·) from pairwise_sortDedup _)
    (by decide : 0 < 16) (fun id => { leaf := decide (id ∈ routes), id : Child }) ""
  rw [hall] at hitems
  have hshown : (pages.flatMap (·.items)).map (·.id) = childrenOf routes parent := by
    rw [hitems, List.map_map]
    exact List.map_id _
  rw [← discovery_eq_cutPage] at hbrowse
  refine ⟨pages, hbrowse, fun pages' hbrowse' => hbrowse'.unique hbrowse, ?_, ?_, ?_⟩
  · rw [hshown]
    exact pairwise_sortDedup _
  · intro id
    rw [hshown]
    exact mem_childrenOf
  · intro child hchild
    rw [hitems] at hchild
    obtain ⟨id, -, rfl⟩ := List.mem_map.mp hchild
    exact decide_eq_true_iff

def sampleRoutes : List String := ["plan/start", "plan/start/fresh", "memory/read"]

theorem sampleRoutes_admitted : routeIds sampleRoutes "routes" = .ok (sortDedup sampleRoutes) :=
  routeIds_eq_ok.mpr ⟨by decide, by decide, rfl⟩

/-- The branch that has a route and a route below it shows one leaf. -/
theorem discovery_complete_sample :
    (∃ pages, Browse (discovery sampleRoutes "plan") "" pages ∧
      (∀ pages', Browse (discovery sampleRoutes "plan") "" pages' → pages' = pages) ∧
      ((pages.flatMap (·.items)).map (·.id)).Pairwise (· < ·) ∧
      (∀ id, id ∈ (pages.flatMap (·.items)).map (·.id) ↔ ImmediateChild sampleRoutes "plan" id) ∧
      ∀ child ∈ pages.flatMap (·.items), (child.leaf = true ↔ child.id ∈ sampleRoutes)) ∧
    discovery sampleRoutes "plan" "" = ⟨[⟨true, "plan/start"⟩], none⟩ :=
  ⟨discovery_complete sampleRoutes_admitted "plan", by decide⟩

end SemanticRoutes

end AgenticCore
