import AgenticCore.InstructionView
import AgenticCore.Registry

/-!
# Which assurance requirements apply (`assurance_applicability.rs`)

* `Host.requirementRow` : a requirement's status and reasons under the current facts.
* `Host.view`           : the rows of all requirements.
* `Facts`               : what a row's status is decided from.
* `statusOf`            : the status they come to.
* `HasStatus`           : the status a view reports for a requirement.
* `judgment_never_waives` : **two judgments tell apart only what no source fact settles, and more
                            changed paths keep what applies.**
-/

set_option autoImplicit false

namespace AgenticCore

namespace AssuranceApplicability

open Json Text InstructionApplicability

/-! ## A requirement's row -/

/-- The texts of an array; anything else has none. -/
def strings (v : Value) : List String := (v.asArray.getD []).filterMap Value.asStr

/-- A planning selector, the fact it is about and what a match is called. -/
structure PlanningSelector where
  selector : String
  fact : String
  label : String
  deriving DecidableEq, Repr

def planningSelectors : List PlanningSelector :=
  [⟨"applies_to_planning_refs", "refs", "planning ref"⟩,
    ⟨"applies_to_proof_profiles", "proof_profiles", "proof profile"⟩,
    ⟨"applies_to_risk_refs", "risk_refs", "risk ref"⟩,
    ⟨"applies_to_invariant_refs", "invariant_refs", "invariant ref"⟩]

section Row

variable (host : Host) (instructionSchema input : Value)

def freshnessReasons (requirement : Value) : List String :=
  if (requirement.get? "freshness").isSome then
    ["repository current-evidence freshness requirement"]
  else []

/-- The changed paths and the selectors that match them. -/
def pathMatches (requirement : Value) : List (String × String) :=
  (strings (input.field "changed_paths")).flatMap fun path =>
    ((strings (requirement.field "applies_to_paths")).filter (matchesPattern · path)).map
      fun pattern => (path, pattern)

def planningFact (fact : String) : Value := (input.field "planning_facts").field fact

/-- Some selector is about a fact that is not known. -/
def planningUnknown (requirement : Value) : Bool :=
  planningSelectors.any fun s =>
    strings (requirement.field s.selector) ≠ [] ∧ planningFact input s.fact = .null

def planningReasons (requirement : Value) : List String :=
  planningSelectors.flatMap fun s =>
    ((strings (requirement.field s.selector)).filter
      (· ∈ strings (planningFact input s.fact))).map fun value => s!"{s.label} matched {value}"

/-- The posture of the route selection; a selection that is not current is unresolved. -/
def posture : String :=
  let routeFact := input.field "route_fact"
  let stated := ((routeFact.field "posture").asStr).getD "unresolved"
  match (routeFact.field "status").asStr with
  | some s => if s ≠ "current" then "unresolved" else stated
  | none => stated

/-- What the requirement's route selectors are evaluated on. -/
def routeInput (requirement : Value) : Value :=
  .object [
    ("changed_paths", .array []),
    ("paths", .array []),
    ("route_posture", .string "selected"),
    ("routes", .strings (strings (requirement.field "applies_to_semantic_routes"))),
    ("selected_routes", (input.field "route_fact").field "routes")]

def Host.routeMatched (requirement : Value) : Result Bool :=
  if strings (requirement.field "applies_to_semantic_routes") ≠ [] ∧ posture input = "selected"
  then do
    let result ← InstructionApplicability.Host.instructionView host instructionSchema
      (routeInput input requirement)
    pure (decide (result.field "applies" = .bool true))
  else .ok false

/-- A former scope hint: a task marker, or a planning reference taken from prose. -/
def legacy (requirement : Value) : Bool :=
  strings (requirement.field "applies_to_task_markers") ≠ [] ∨
    (strings (requirement.field "applies_to_planning_refs")).any
      (· ∈ strings (planningFact input "legacy_refs")) = true

/-- Nothing settles whether the requirement's scope is met. -/
def semanticUnknown (requirement : Value) : Bool :=
  legacy input requirement || planningUnknown input requirement ||
    decide (strings (requirement.field "applies_to_semantic_routes") ≠ [] ∧
      posture input ∉ ["selected", "none"])

/-- The current judgment's decision on the requirement. -/
def answerOf (judgmentGap : Option String) (id : String) : Option String :=
  if judgmentGap = none then (((input.field "judgment").field "decisions").field id).asStr
  else none

/-- The status of a requirement. -/
def statusOf (matched planningUnknown semanticUnknown : Bool) (answer : Option String) : String :=
  if matched then "applicable"
  else if planningUnknown then "unresolved"
  else if semanticUnknown then answer.getD "unresolved"
  else "not-applicable"

def blockingClaims (requirement : Value) : Value :=
  if strings (requirement.field "blocking_claims") = [] ∧
      (requirement.field "force").asStr ∈ [some "blocking", some "required-before-closeout"] then
    .strings ["claim-work-complete", "close-parent-lane"]
  else requirement.field "blocking_claims"

/-- The source facts a requirement matches. -/
def sourceReasons (requirement : Value) (routeMatched : Bool) : List String :=
  freshnessReasons requirement ++
    (pathMatches input requirement).map (fun m => s!"changed path matched {m.2}") ++
    planningReasons input requirement ++
    if routeMatched then ["current semantic task route matched"] else []

/-- One iteration of the loop of `view`. -/
def Host.requirementRow (judgmentGap : Option String) (requirement : Value) : Result Value := do
  let id ← okOr (requirement.field "id").asStr MALFORMED
  let routeMatched ← Host.routeMatched host instructionSchema input requirement
  let reasons := sourceReasons input requirement routeMatched
  let planningUnknown := planningUnknown input requirement
  let semanticUnknown := semanticUnknown input requirement
  let answer := answerOf input judgmentGap id
  let status := statusOf (decide (reasons ≠ [])) planningUnknown semanticUnknown answer
  let judged := if reasons = [] ∧ semanticUnknown = true ∧ answer.isSome = true ∧
      planningUnknown = false then ["current agent applicability judgment"] else []
  pure (.object [
    ("applies_because", .strings (reasons ++ judged)),
    ("authority_refs", requirement.field "authority_refs"),
    ("blocking_claims", blockingClaims requirement),
    ("force", requirement.field "force"),
    ("gap", .string (if status = "unresolved" then
      judgmentGap.getD "assurance-semantic-scope-unresolved" else "")),
    ("id", .string id),
    ("legacy_scope", requirement.field "applies_to_task_markers"),
    ("matched_paths", .strings (sortDedup ((pathMatches input requirement).map (·.1)))),
    ("source_requirement", requirement),
    ("status", .string status)])

end Row

/-! ## The view -/

section View

-- the checked schemas of the view's own input and of the instruction view's
variable (host : Host) (schema instructionSchema : Value)

/-- A requirement's identity, which no other requirement may have. -/
def admitId (ids : List String) (requirement : Value) : Result (List String) := do
  let id ← okOr ((requirement.field "id").asStr.filter (· ≠ ""))
    "assurance requirement id must be nonempty"
  check (id ∉ ids) "duplicate assurance requirement id"
  pure (ids ++ [id])

/-- What keeps the judgment from being current, once it names known requirements only. -/
def judgmentGap (input : Value) (ids : List String) : Result (Option String) := do
  let judgment := input.field "judgment"
  if judgment = .null then pure none
  else do
    let decisions ← okOr (judgment.field "decisions").asObject MALFORMED
    check (∀ id ∈ decisions.map Prod.fst, id ∈ ids) "assurance judgment names unknown requirement"
    pure (if ["source_revision", "task_identity", "current_work"].any
        (fun key => input.field key ≠ judgment.field key) = true then
      some "assurance-applicability-judgment-stale" else none)

/-- `view`. -/
def Host.view (input : Value) : Result Value := do
  let accepts ← host.schemaValidator schema "assurance applicability"
  check (accepts input = true) MALFORMED
  let requirements ← okOr (input.field "requirements").asArray MALFORMED
  let ids ← requirements.foldlM admitId []
  let gap ← judgmentGap input ids
  let rows ← requirements.mapM (Host.requirementRow host instructionSchema input gap)
  pure (.object [
    ("authority_boundary", .string ("applicability-only; no waiver, evidence, execution or " ++
      "claim grants")),
    ("kind", .string "agentic-workspace/assurance-applicability/v1"),
    ("requirements", .array rows),
    ("revision", .string (host.digest input))])

end View

/-! ## What a status is decided from -/

section Facts

variable {host : Host} {schema instructionSchema input : Value}

/-- A source fact matches the requirement: its freshness declaration, a changed path, a planning
    fact or the current semantic route. -/
def Matched (host : Host) (instructionSchema input requirement : Value) : Prop :=
  (requirement.get? "freshness").isSome = true ∨
    (∃ path ∈ strings (input.field "changed_paths"),
      ∃ pattern ∈ strings (requirement.field "applies_to_paths"),
        matchesPattern pattern path = true) ∨
    (∃ s ∈ planningSelectors, ∃ value ∈ strings (requirement.field s.selector),
      value ∈ strings (planningFact input s.fact)) ∨
    Host.routeMatched host instructionSchema input requirement = .ok true

theorem pathMatches_ne_nil {requirement : Value} :
    pathMatches input requirement ≠ [] ↔
      ∃ path ∈ strings (input.field "changed_paths"),
        ∃ pattern ∈ strings (requirement.field "applies_to_paths"),
          matchesPattern pattern path = true := by
  rw [pathMatches, Ne, List.flatMap_eq_nil_iff]
  simp only [List.map_eq_nil_iff, List.filter_eq_nil_iff]
  push Not
  rfl

theorem planningReasons_ne_nil {requirement : Value} :
    planningReasons input requirement ≠ [] ↔
      ∃ s ∈ planningSelectors, ∃ value ∈ strings (requirement.field s.selector),
        value ∈ strings (planningFact input s.fact) := by
  rw [planningReasons, Ne, List.flatMap_eq_nil_iff]
  simp only [List.map_eq_nil_iff, List.filter_eq_nil_iff, decide_eq_true_eq]
  push Not
  rfl

/-- The source reasons are those of the facts that match. -/
theorem sourceReasons_ne_nil {requirement : Value} {b : Bool}
    (h : Host.routeMatched host instructionSchema input requirement = .ok b) :
    sourceReasons input requirement b ≠ [] ↔
      Matched host instructionSchema input requirement := by
  unfold Matched
  rw [← pathMatches_ne_nil, ← planningReasons_ne_nil, h]
  have hfresh : freshnessReasons requirement ≠ [] ↔
      (requirement.get? "freshness").isSome = true := by
    unfold freshnessReasons
    split <;> simp_all
  have hroute : (if b then ["current semantic task route matched"] else []) ≠ [] ↔
      (Except.ok b : Result Bool) = .ok true := by
    cases b <;> simp
  rw [← hfresh, ← hroute, sourceReasons]
  simp only [ne_eq, List.append_eq_nil_iff, List.map_eq_nil_iff]
  tauto

end Facts

/-! ## The status a view reports -/

/-- The status of the row of a requirement. -/
def statusIn (view : Value) (id : String) : Option String :=
  ((((view.field "requirements").asArray).getD []).find?
    (·.field "id" = .string id)).bind fun row => (row.field "status").asStr

section Report

variable {host : Host} {schema instructionSchema input view : Value}

/-- The requirements of an input. -/
def requirementsOf (input : Value) : List Value := ((input.field "requirements").asArray).getD []

theorem requirementRow_eq_ok {gap : Option String} {requirement row : Value}
    (h : Host.requirementRow host instructionSchema input gap requirement = .ok row) :
    ∃ id b, (requirement.field "id").asStr = some id ∧
      Host.routeMatched host instructionSchema input requirement = .ok b ∧
      row.field "id" = .string id ∧
      row.field "status" = .string (statusOf (decide (sourceReasons input requirement b ≠ []))
        (planningUnknown input requirement) (semanticUnknown input requirement)
        (answerOf input gap id)) := by
  simp only [Host.requirementRow, Except.bind_eq_ok_iff, okOr_eq_ok, Except.pure_eq_ok_iff] at h
  obtain ⟨id, hid, b, hb, rfl⟩ := h
  exact ⟨id, b, hid, hb, rfl, rfl⟩

/-- Admitted requirements have identities of their own. -/
theorem admitIds {requirements : List Value} {ids : List String}
    (h : requirements.foldlM admitId [] = .ok ids) :
    requirements.map (fun r => (r.field "id").asStr) = ids.map some ∧ ids.Nodup := by
  refine foldlM_ok_induction
    (fun done ids => done.map (fun r => (r.field "id").asStr) = ids.map some ∧ ids.Nodup)
    ?_ ⟨rfl, List.nodup_nil⟩ h
  intro done requirement ids ids' hdone hstep
  simp only [admitId, Except.bind_eq_ok_iff, okOr_eq_ok, check_eq_ok, Except.pure_eq_ok_iff,
    Option.filter_eq_some_iff] at hstep
  obtain ⟨id, ⟨hid, -⟩, _, hnew, rfl⟩ := hstep
  refine ⟨by simp [hdone.1, hid], ?_⟩
  rw [List.nodup_append]
  refine ⟨hdone.2, List.nodup_singleton id, ?_⟩
  intro a ha b hb
  rw [List.mem_singleton.mp hb]
  exact ne_of_mem_of_not_mem ha hnew

/-- Requirements under one admitted identity are the same. -/
theorem requirement_unique {requirements : List Value} {ids : List String}
    (h : requirements.foldlM admitId [] = .ok ids) {r r' : Value} (hr : r ∈ requirements)
    (hr' : r' ∈ requirements) (heq : (r.field "id").asStr = (r'.field "id").asStr) : r = r' := by
  obtain ⟨hmap, hnodup⟩ := admitIds h
  have hnodup' : (requirements.map fun r => (r.field "id").asStr).Nodup := by
    rw [hmap]
    exact hnodup.map (Option.some_injective _)
  exact List.inj_on_of_nodup_map hnodup' hr hr' heq

/-- What a view says about each of its requirements. -/
theorem view_status (h : Host.view host schema instructionSchema input = .ok view) :
    ∃ ids gap, (requirementsOf input).foldlM admitId [] = .ok ids ∧
      judgmentGap input ids = .ok gap ∧
      ∀ requirement ∈ requirementsOf input, ∀ id, (requirement.field "id").asStr = some id →
        ∃ matched : Bool,
          (matched = true ↔ Matched host instructionSchema input requirement) ∧
          statusIn view id = some (statusOf matched (planningUnknown input requirement)
            (semanticUnknown input requirement) (answerOf input gap id)) := by
  simp only [Host.view, Except.bind_eq_ok_iff, okOr_eq_ok, check_eq_ok,
    Except.pure_eq_ok_iff] at h
  obtain ⟨_, -, _, -, requirements, hreqs, ids, hids, gap, hgap, rows, hrows, rfl⟩ := h
  have hrequirements : requirementsOf input = requirements := by
    rw [requirementsOf, hreqs, Option.getD_some]
  rw [hrequirements]
  refine ⟨ids, gap, hids, hgap, fun requirement hmem id hid => ?_⟩
  obtain ⟨row, hrow, hok⟩ := mapM_ok_mem hrows requirement hmem
  obtain ⟨id', b, hid', hb, hrowId, hstatus⟩ := requirementRow_eq_ok hok
  obtain rfl : id' = id := Option.some.inj (hid'.symm.trans hid)
  refine ⟨_, decide_eq_true_iff.trans (sourceReasons_ne_nil hb), ?_⟩
  have hreported : ∀ row' ∈ rows, row'.field "id" = .string id' → row' = row := by
    intro row' hrow' heq
    obtain ⟨other, hother, hok'⟩ := List.Forall₂.exists_left (mapM_eq_ok.mp hrows) row' hrow'
    obtain ⟨otherId, _, hotherId, -, hrowId', -⟩ := requirementRow_eq_ok hok'
    rw [heq, Value.string.injEq] at hrowId'
    have := requirement_unique hids hother hmem (by rw [hotherId, ← hrowId', hid])
    subst this
    exact Except.ok.inj (hok'.symm.trans hok)
  have hfind : rows.find? (·.field "id" = .string id') = some row := by
    cases hcase : rows.find? (·.field "id" = .string id') with
    | none =>
      have := List.find?_eq_none.mp hcase row hrow
      exact absurd (decide_eq_true hrowId) this
    | some row' =>
      have hid := List.find?_some hcase
      rw [hreported row' (List.mem_of_find?_eq_some hcase) (of_decide_eq_true hid)]
  show (rows.find? (·.field "id" = .string id')).bind _ = _
  rw [hfind, Option.bind_some, hstatus]
  rfl

end Report

/-! ## Judgments and source facts -/

theorem statusOf_matched {planning semantic : Bool} {answer : Option String} :
    statusOf true planning semantic answer = "applicable" := rfl

theorem statusOf_planning {semantic : Bool} {answer : Option String} :
    statusOf false true semantic answer = "unresolved" := rfl

/-- Answers matter only where no fact matches, the planning facts are known and the scope is not. -/
theorem statusOf_answers {matched planning semantic : Bool} {answer answer' : Option String}
    (h : statusOf matched planning semantic answer ≠ statusOf matched planning semantic answer') :
    matched = false ∧ planning = false ∧ semantic = true := by
  cases matched <;> cases planning <;> cases semantic <;> simp_all [statusOf]

/-- What applies still applies when more facts match. -/
theorem statusOf_more {matched matched' planning semantic : Bool} {answer : Option String}
    (hmore : matched = true → matched' = true)
    (h : statusOf matched planning semantic answer = "applicable") :
    statusOf matched' planning semantic answer = "applicable" := by
  cases matched with
  | true =>
    rw [hmore rfl]
    rfl
  | false =>
    cases matched' with
    | true => rfl
    | false => exact h

/-- The inputs differ in this member only. -/
def AgreeBut (name : String) (input input' : Value) : Prop :=
  ∀ key, key ≠ name → input.field key = input'.field key

section Congruence

variable {input input' requirement : Value}

theorem planningUnknown_congr (h : input.field "planning_facts" = input'.field "planning_facts") :
    planningUnknown input requirement = planningUnknown input' requirement := by
  unfold planningUnknown planningFact
  rw [h]

theorem semanticUnknown_congr (hfacts : input.field "planning_facts" = input'.field "planning_facts")
    (hroute : input.field "route_fact" = input'.field "route_fact") :
    semanticUnknown input requirement = semanticUnknown input' requirement := by
  unfold semanticUnknown legacy
  rw [planningUnknown_congr hfacts]
  unfold planningFact posture
  rw [hfacts, hroute]

/-- More changed paths match no less. -/
theorem Matched.more {host : Host} {instructionSchema : Value}
    (hfacts : input.field "planning_facts" = input'.field "planning_facts")
    (hroute : input.field "route_fact" = input'.field "route_fact")
    (hpaths : strings (input.field "changed_paths") ⊆ strings (input'.field "changed_paths"))
    (h : Matched host instructionSchema input requirement) :
    Matched host instructionSchema input' requirement := by
  rcases h with hfresh | ⟨path, hpath, pattern, hpattern, hmatch⟩ | hplanning | hselected
  · exact Or.inl hfresh
  · exact Or.inr (Or.inl ⟨path, hpaths hpath, pattern, hpattern, hmatch⟩)
  · refine Or.inr (Or.inr (Or.inl ?_))
    unfold planningFact at hplanning ⊢
    rwa [← hfacts]
  · refine Or.inr (Or.inr (Or.inr ?_))
    unfold Host.routeMatched routeInput posture at hselected ⊢
    rwa [← hroute]

theorem matched_congr {host : Host} {instructionSchema : Value}
    (h : AgreeBut "judgment" input input') :
    Matched host instructionSchema input requirement ↔
      Matched host instructionSchema input' requirement := by
  have hfacts := h "planning_facts" (by decide)
  have hroute := h "route_fact" (by decide)
  have hpaths := h "changed_paths" (by decide)
  constructor
  · exact Matched.more hfacts hroute (by rw [hpaths]; exact List.Subset.refl _)
  · exact Matched.more hfacts.symm hroute.symm (by rw [hpaths]; exact List.Subset.refl _)

theorem judgmentGap_congr {ids : List String} (h : AgreeBut "changed_paths" input input') :
    judgmentGap input ids = judgmentGap input' ids := by
  unfold judgmentGap
  simp only [List.any_cons, List.any_nil, h "judgment" (by decide),
    h "source_revision" (by decide), h "task_identity" (by decide), h "current_work" (by decide)]
  rfl

end Congruence

section Main

variable {host : Host} {schema instructionSchema : Value}

/-- **Agent judgment never waives a source fact. Of two runs that differ in the judgment, a matched
    requirement applies in both, one that is not matched and has an unknown planning fact is
    unresolved in both, and they tell apart only requirements that no fact matches, whose planning
    facts are known and whose scope is semantically unknown. More changed paths turn no
    requirement that applies into another.** -/
theorem judgment_never_waives {input judged view view' : Value}
    (hagree : AgreeBut "judgment" input judged)
    (h : Host.view host schema instructionSchema input = .ok view)
    (h' : Host.view host schema instructionSchema judged = .ok view')
    {requirement : Value} (hmem : requirement ∈ requirementsOf input) {id : String}
    (hid : (requirement.field "id").asStr = some id) :
    (Matched host instructionSchema input requirement →
      statusIn view id = some "applicable" ∧ statusIn view' id = some "applicable") ∧
    (planningUnknown input requirement = true →
      ¬Matched host instructionSchema input requirement →
      statusIn view id = some "unresolved" ∧ statusIn view' id = some "unresolved") ∧
    (statusIn view id ≠ statusIn view' id →
      ¬Matched host instructionSchema input requirement ∧
        semanticUnknown input requirement = true ∧ planningUnknown input requirement = false) ∧
    ∀ more view'', AgreeBut "changed_paths" input more →
      strings (input.field "changed_paths") ⊆ strings (more.field "changed_paths") →
      Host.view host schema instructionSchema more = .ok view'' →
      statusIn view id = some "applicable" → statusIn view'' id = some "applicable" := by
  obtain ⟨ids, gap, hids, hgap, hstatus⟩ := view_status h
  obtain ⟨ids', gap', -, -, hstatus'⟩ := view_status h'
  obtain ⟨matched, hmatched, hview⟩ := hstatus requirement hmem id hid
  have hrequirements : requirementsOf input = requirementsOf judged := by
    unfold requirementsOf
    rw [hagree "requirements" (by decide)]
  obtain ⟨matched', hmatched', hview'⟩ :=
    hstatus' requirement (hrequirements ▸ hmem) id hid
  obtain rfl : matched = matched' := by
    rw [Bool.eq_iff_iff, hmatched, hmatched']
    exact matched_congr hagree
  have hfacts := hagree "planning_facts" (by decide)
  rw [← planningUnknown_congr hfacts,
    ← semanticUnknown_congr hfacts (hagree "route_fact" (by decide))] at hview'
  refine ⟨?_, ?_, ?_, ?_⟩
  · intro hfact
    rw [hview, hview', hmatched.mpr hfact]
    exact ⟨rfl, rfl⟩
  · intro hunknown hno
    have hfalse : matched = false := Bool.eq_false_iff.mpr fun htrue => hno (hmatched.mp htrue)
    rw [hview, hview', hunknown, hfalse]
    exact ⟨rfl, rfl⟩
  · intro hdiffer
    rw [hview, hview'] at hdiffer
    obtain ⟨hfalse, hknown, hsemantic⟩ :=
      statusOf_answers fun heq => hdiffer (congrArg some heq)
    refine ⟨fun hfact => ?_, hsemantic, hknown⟩
    rw [hmatched.mpr hfact] at hfalse
    cases hfalse
  · intro more view'' hmoreAgree hpaths hmore happlies
    obtain ⟨ids'', gap'', hids'', hgap'', hstatus''⟩ := view_status hmore
    have hsame : requirementsOf input = requirementsOf more := by
      unfold requirementsOf
      rw [hmoreAgree "requirements" (by decide)]
    rw [← hsame] at hids'' hstatus''
    obtain rfl : ids = ids'' := Except.ok.inj (hids.symm.trans hids'')
    obtain rfl : gap = gap'' := by
      rw [← judgmentGap_congr hmoreAgree, hgap] at hgap''
      exact Except.ok.inj hgap''
    obtain ⟨matched'', hmatched'', hview''⟩ := hstatus'' requirement hmem id hid
    have hfacts' := hmoreAgree "planning_facts" (by decide)
    have hroute' := hmoreAgree "route_fact" (by decide)
    have hanswer : answerOf input gap id = answerOf more gap id := by
      unfold answerOf
      rw [hmoreAgree "judgment" (by decide)]
    rw [← planningUnknown_congr hfacts', ← semanticUnknown_congr hfacts' hroute',
      ← hanswer] at hview''
    rw [hview] at happlies
    rw [hview'']
    refine congrArg some (statusOf_more ?_ (Option.some.inj happlies))
    intro htrue
    exact hmatched''.mpr (Matched.more hfacts' hroute' hpaths (hmatched.mp htrue))

end Main

/-! ## A run -/

def sampleHost : AgenticCore.Host where
  digest := fun _ => "digest"
  builds := fun _ => true
  accepts := fun _ _ => true
  activity := .ok

/-- A schema of the supported draft. -/
def sampleSchema : Value :=
  .object [("$schema", .string "https://json-schema.org/draft/2020-12/schema")]

def sampleRequirement : Value :=
  .object [
    ("applies_to_paths", .strings ["src/*"]),
    ("applies_to_task_markers", .strings ["proof"]),
    ("id", .string "r")]

def sampleInput (changed : List String) (judgment : Value) : Value :=
  .object [
    ("changed_paths", .strings changed),
    ("current_work", .object [("id", .string "work")]),
    ("judgment", judgment),
    ("planning_facts", .object []),
    ("requirements", .array [sampleRequirement]),
    ("route_fact", .null),
    ("source_revision", .string "s"),
    ("task_identity", .object [("id", .string "task")])]

def sampleJudgment : Value :=
  .object [
    ("current_work", .object [("id", .string "work")]),
    ("decisions", .object [("r", .string "not-applicable")]),
    ("source_revision", .string "s"),
    ("task_identity", .object [("id", .string "task")])]

def sampleView (changed : List String) (judgment : Value) : Value :=
  (Host.view sampleHost sampleSchema sampleSchema (sampleInput changed judgment)).toOption.getD
    .null

theorem sampleInput_agree (changed : List String) (judgment judgment' : Value) :
    AgreeBut "judgment" (sampleInput changed judgment) (sampleInput changed judgment') := by
  intro key hkey
  have hne : (key == "judgment") = false := beq_false_of_ne hkey
  simp only [sampleInput, Value.field, Value.get?, List.lookup_cons, hne]

/-- The judgment that the requirement does not apply waives no changed path. -/
theorem judgment_never_waives_sample :
    (statusIn (sampleView ["src/a"] .null) "r" = some "applicable" ∧
      statusIn (sampleView ["src/a"] sampleJudgment) "r" = some "applicable") ∧
    statusIn (sampleView [] .null) "r" ≠ statusIn (sampleView [] sampleJudgment) "r" := by
  have hnone : Host.view sampleHost sampleSchema sampleSchema (sampleInput ["src/a"] .null) =
      .ok (sampleView ["src/a"] .null) := rfl
  have hjudged : Host.view sampleHost sampleSchema sampleSchema
      (sampleInput ["src/a"] sampleJudgment) = .ok (sampleView ["src/a"] sampleJudgment) := rfl
  have hmem : sampleRequirement ∈ requirementsOf (sampleInput ["src/a"] .null) :=
    List.mem_cons_self
  refine ⟨(judgment_never_waives (sampleInput_agree ["src/a"] .null sampleJudgment) hnone hjudged
    hmem rfl).1 ?_, by decide⟩
  exact Or.inr (Or.inl ⟨"src/a", List.mem_cons_self, "src/*", List.mem_cons_self,
    by decide +kernel⟩)

end AssuranceApplicability

end AgenticCore
