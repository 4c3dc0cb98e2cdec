import AgenticCore.NativeClaimReview

/-!
# What a current claim review rests on

* `passed_not_failed`     : no evidence row is both a pass and a failure.
* `gaps_nil`              : a review without gaps, in terms of the rows and protocols.
* `gaps_failure`          : a failed row that is added closes no gap.
* `claim_review_current`  : **a current review hides no failure and no uncovered protocol, and no
                            further failed row makes a review current.**
-/

set_option autoImplicit false

namespace AgenticCore.NativeClaimReview

open Json Text

/-! ## Rows -/

theorem checkedScope_passed {o : Observation}
    (h : (checkedScope o).field "claim" = .string PASSED) :
    o.admission.field "result_class" = .string "passed" := by
  unfold checkedScope at h
  split at h
  · rename_i hchecked
    exact hchecked.2.2.1
  · cases h

/-- No evidence row is both a pass and a failure. -/
theorem passed_not_failed {r : Receipt} (h : passed (receiptView r) = true) :
    failed (receiptView r) = false := by
  cases r with
  | unadmitted reference gap => rfl
  | observed o =>
    have hclass := checkedScope_passed (o := o) (of_decide_eq_true h)
    have hfield : ((receiptView (.observed o)).field "receipt_admission").field "result_class" =
        o.admission.field "result_class" := rfl
    rw [failed, hfield, hclass]
    decide

theorem failed_not_passed {r : Receipt} (h : failed (receiptView r) = true) :
    passed (receiptView r) = false := by
  by_contra hpassed
  rw [passed_not_failed (by simpa using hpassed)] at h
  cases h

theorem field_withoutDuration {key : String} (h : key ≠ "runtime_admission") (row : Value) :
    (withoutDuration row).field key = row.field key := by
  unfold withoutDuration
  split
  · exact Value.field_insert_of_ne h row _
  · rfl

theorem runtime_withoutDuration {key : String} (h : key ≠ "validation_duration_us")
    (row : Value) : ((withoutDuration row).field "runtime_admission").field key =
      (row.field "runtime_admission").field key := by
  unfold withoutDuration
  split
  · rename_i hobject
    obtain ⟨members, hmembers⟩ : ∃ members, row = .object members := by
      cases row with
      | object members => exact ⟨members, rfl⟩
      | null | bool | number | string | array => cases hobject
    rw [hmembers, Value.insert, Value.field, Value.field, Value.get?, insertMember_lookup_self,
      Option.getD_some]
    exact Value.field_remove_of_ne _ h
  · rfl

theorem coversProtocol_withoutDuration (row strategy : Value) (id : String) :
    coversProtocol (withoutDuration row) strategy id = coversProtocol row strategy id := by
  have hscope : (withoutDuration row).field "checked_scope" = row.field "checked_scope" :=
    field_withoutDuration (by decide) row
  have hcoverage : commandCoverage (withoutDuration row) = commandCoverage row :=
    runtime_withoutDuration (by decide) row
  have hcurrent : currentCoverage (withoutDuration row) strategy =
      currentCoverage row strategy := by
    rw [currentCoverage, currentCoverage, passed, passed, hscope, hcoverage]
  rw [coversProtocol, coversProtocol, hcurrent, runtime_withoutDuration (by decide) row]

/-- A row that counts for a protocol: it passed a command that a route linked to the protocol
    declares now. -/
structure Covers (row strategy : Value) (id : String) : Prop where
  passed : passed row = true
  current : (row.field "runtime_admission").field "sufficiency_currentness" = .string "current"
  route : ∃ route commands refs,
    (commandCoverage row).field "route_id" = .string route ∧
    ((commandCoverage row).field "command").asStr.isSome ∧
    (row.field "checked_scope").field "command" = (commandCoverage row).field "command" ∧
    (((strategy.field "proof_routes").field route).field "commands").asArray = some commands ∧
    (commandCoverage row).field "command" ∈ commands ∧
    (((strategy.field "proof_routes").field route).field "protocol_refs").asArray = some refs ∧
    .string id ∈ refs

theorem asStr_eq_some {v : Value} {s : String} (h : v.asStr = some s) : v = .string s := by
  cases v with
  | string t =>
    cases h
    rfl
  | null | bool | number | array | object => cases h

theorem covers_of_coversProtocol {row strategy : Value} {id : String}
    (h : coversProtocol row strategy id = true) : Covers row strategy id := by
  unfold coversProtocol at h
  rw [Bool.and_eq_true] at h
  obtain ⟨hcurrent, hroute⟩ := h
  split at hroute
  · cases hroute
  rename_i route command hcoverage
  rw [Bool.and_eq_true] at hroute
  obtain ⟨-, hrefs⟩ := hroute
  split at hrefs
  · cases hrefs
  rename_i refs hlist
  unfold currentCoverage at hcoverage
  split at hcoverage
  · cases hcoverage
  rename_i hpassed
  dsimp only at hcoverage
  split at hcoverage
  · cases hcoverage
  rename_i id' hid
  split at hcoverage
  · cases hcoverage
  rename_i hcommand
  split at hcoverage
  · cases hcoverage
  rename_i commands hcommands
  split at hcoverage
  · rename_i hdeclared
    cases hcoverage
    refine ⟨by simpa using hpassed, of_decide_eq_true hcurrent, route, commands, refs,
      asStr_eq_some hid, ?_, hdeclared.1, hcommands, hdeclared.2, hlist,
      of_decide_eq_true hrefs⟩
    rw [Option.isSome_iff_ne_none]
    simpa using hcommand
  · cases hcoverage

/-! ## Gaps -/

variable {host : Host} {context : Context}

theorem negativeGap_none {evidence : List Value} {strategy obligations : Value}
    {instructionChecks : List Value} {request : Option Value} {row : Value}
    (h : negativeGap (negativeRow host.parseTime evidence strategy obligations instructionChecks
      request row) = none) (hcurrent : currentFailure row = true) :
    superseded host.parseTime evidence request row = true ∨
      (disposition request row).field "disposition" = .string "not-material" ∧
        required strategy obligations instructionChecks row = false := by
  have hstatus : (negativeRow host.parseTime evidence strategy obligations instructionChecks
      request row).field "status" = .string (negativeStatus host.parseTime evidence strategy
        obligations instructionChecks request row) := rfl
  rw [negativeGap, hstatus] at h
  by_cases hsuperseded : superseded host.parseTime evidence request row = true
  · exact .inl hsuperseded
  right
  by_cases hrequired : required strategy obligations instructionChecks row = true
  · simp [negativeStatus, hcurrent, hsuperseded, hrequired] at h
  by_cases hjudged : (disposition request row).field "disposition" = .string "not-material"
  · exact ⟨hjudged, by simpa using hrequired⟩
  exfalso
  simp only [negativeStatus, hcurrent, hsuperseded, hrequired, hjudged, not_true_eq_false,
    Bool.false_eq_true, if_false] at h
  by_cases hmaterial : (disposition request row).field "disposition" = .string "material"
  · simp [hmaterial] at h
  by_cases hunproven : (disposition request row).field "disposition" = .string "superseded"
  · simp [hunproven] at h
  · simp [hmaterial, hunproven] at h

/-- A delegated judgment stands without an answer. -/
theorem view_delegated {request owner compiled : Value} {owners instructions : List Value}
    {sources : List (String × Value)}
    (howners : (context.contract.field "owners").asArray = some owners)
    (howner : owners.find? (fun o => o.field "owner" = .string "verification") = some owner)
    (hsources : context.postimages = .ok sources)
    (hinstructions : (context.instructions.field "sources").asArray = some instructions)
    (hcompiled : host.compileValue (compileInput context (decisions host context request sources
      (applicableSources instructions))) = .ok compiled)
    (hanswer : (arguments request).field "answer" = .null)
    (hdelegated : delegated context.config "verification" (sources.map Prod.fst) ≠ none) :
    ∃ v, view host context (some request) = .ok v ∧ v.field "status" =
      .string (if gaps host context request = [] then "current" else "insufficient") := by
  refine ⟨result (template context owner) ([("proposal",
      proposal host context request sources (applicableSources instructions)),
    ("protocol_coverage", coverageValue context request)] ++
      settled host context request sources (applicableSources instructions)), ?_,
    result_field (by simp [settled]) rfl⟩
  unfold view
  simp only [howners, howner, hsources, hinstructions, hcompiled, hanswer, hdelegated, okOr, bind,
    Except.bind, and_false, ne_eq, not_true_eq_false, if_false]
  rfl

/-- What a review without gaps says of judgment, failures and protocols. -/
structure Gapless (host : Host) (context : Context) (request : Value) : Prop where
  judged : (arguments request).field "disposition" = .string "satisfied"
  failures : ∀ row ∈ context.evidence, failed row = true → currentFailure row = true →
    superseded host.parseTime context.evidence (some request) row = true ∨
      (disposition (some request) row).field "disposition" = .string "not-material" ∧
        required context.strategy context.obligations context.instructionChecks row = false
  producers : ∀ entry ∈ membersOf (context.strategy.field "protocols"),
    entry.2.field "independent_required" ≠ .bool true ∧
      entry.2.field "manual_required" ≠ .bool true
  covered : ∀ entry ∈ membersOf (context.strategy.field "protocols"), manualOnly entry.2 = false →
    ∃ row ∈ context.evidence, (selected request row || stays row) = true ∧
      Covers row context.strategy entry.1

theorem gaps_nil {request : Value} (h : gaps host context request = []) :
    Gapless host context request := by
  simp only [gaps, List.append_eq_nil_iff, List.filterMap_eq_nil_iff, List.flatMap_eq_nil_iff] at h
  obtain ⟨⟨hjudged, hnegatives⟩, hprotocols⟩ := h
  refine ⟨?_, ?_, ?_, ?_⟩
  · by_contra hne
    rw [if_pos hne] at hjudged
    cases hjudged
  · intro row hrow hfailed hcurrent
    refine negativeGap_none (hnegatives _ ?_) hcurrent
    exact List.mem_map.mpr ⟨row, List.mem_filter.mpr ⟨hrow, hfailed⟩, rfl⟩
  · intro entry hentry
    have hgap := hprotocols entry hentry
    rw [protocolGaps, List.append_eq_nil_iff] at hgap
    have hproducer := hgap.1
    by_contra hne
    rw [if_pos (by tauto)] at hproducer
    cases hproducer
  · intro entry hentry hcommands
    have hgap := hprotocols entry hentry
    rw [protocolGaps, List.append_eq_nil_iff] at hgap
    have hevidence := hgap.2
    obtain ⟨row, hrow⟩ : ∃ row, row ∈ supporting (stableEvidence context request)
        context.strategy entry.1 := by
      by_contra hnone
      rw [if_pos ⟨List.eq_nil_iff_forall_not_mem.mpr fun row hrow => hnone ⟨row, hrow⟩,
        hcommands⟩] at hevidence
      cases hevidence
    obtain ⟨hstable, hcovers⟩ := List.mem_filter.mp hrow
    obtain ⟨observed, hobserved, rfl⟩ := List.mem_map.mp hstable
    obtain ⟨hlisted, hkept⟩ := List.mem_filter.mp hobserved
    rw [coversProtocol_withoutDuration] at hcovers
    exact ⟨observed, hlisted, hkept, covers_of_coversProtocol hcovers⟩

/-! ## One more failed row -/

/-- The context with one more row of evidence. -/
def Context.adding (context : Context) (row : Value) : Context :=
  { context with evidence := context.evidence ++ [row] }

theorem superseded_adding {row e : Value} (hpassed : passed row = false)
    (request : Option Value) :
    superseded host.parseTime (context.evidence ++ [row]) request e =
      superseded host.parseTime context.evidence request e := by
  have hnot : supersedes host.parseTime e row = false := by
    rw [supersedes, hpassed]
    rfl
  rw [superseded, superseded, List.any_append]
  simp [hnot]

theorem negatives_adding {row : Value} (hpassed : passed row = false) (hfailed : failed row = true)
    (request : Option Value) : ∃ last,
      negatives host (context.adding row) request = negatives host context request ++ [last] := by
  refine ⟨negativeRow host.parseTime (context.evidence ++ [row]) context.strategy
    context.obligations context.instructionChecks request row, ?_⟩
  simp only [negatives, negativeEvidence, Context.adding, List.filter_append, List.map_append]
  congr 1
  · refine List.map_congr_left fun e _ => ?_
    simp only [negativeRow, negativeStatus, superseded_adding hpassed]
  · simp [hfailed]

theorem supporting_adding {row : Value} (hpassed : passed row = false) (request : Value)
    (strategy : Value) (id : String) :
    supporting (stableEvidence (context.adding row) request) strategy id =
      supporting (stableEvidence context request) strategy id := by
  have hnot : coversProtocol row strategy id = false := by
    by_contra h
    have hcovers := covers_of_coversProtocol (by simpa using h)
    rw [hcovers.passed] at hpassed
    cases hpassed
  simp only [supporting, stableEvidence, Context.adding, List.filter_append, List.map_append]
  refine (congrArg _ (List.filter_eq_nil_iff.mpr ?_)).trans (List.append_nil _)
  intro e he
  obtain ⟨observed, hobserved, rfl⟩ := List.mem_map.mp he
  obtain rfl := List.mem_singleton.mp (List.mem_filter.mp hobserved).1
  rw [coversProtocol_withoutDuration, hnot]
  decide

/-- A failed row that is added closes no gap. -/
theorem gaps_failure {r : Receipt} (hfailed : failed (receiptView r) = true) {request : Value}
    (h : gaps host (context.adding (receiptView r)) request = []) :
    gaps host context request = [] := by
  have hpassed := failed_not_passed hfailed
  obtain ⟨last, hnegatives⟩ : ∃ last, negatives host (context.adding (receiptView r))
      (some request) = negatives host context (some request) ++ [last] :=
    negatives_adding hpassed hfailed (some request)
  have hprotocols : protocolGaps (context.adding (receiptView r))
      (stableEvidence (context.adding (receiptView r)) request) =
        protocolGaps context (stableEvidence context request) := by
    funext entry
    simp only [protocolGaps]
    rw [show (context.adding (receiptView r)).strategy = context.strategy from rfl,
      supporting_adding hpassed]
  unfold gaps at h ⊢
  rw [hnegatives, hprotocols, List.filterMap_append] at h
  simp only [List.append_eq_nil_iff] at h ⊢
  exact ⟨⟨h.1.1, h.1.2.1⟩, h.2⟩

/-! ## A current review -/

/-- The context whose evidence is read from these receipts. -/
def Context.of (context : Context) (receipts : List Receipt) : Context :=
  { context with evidence := receipts.map receiptView }

theorem Context.of_adding (receipts : List Receipt) (added : Receipt) :
    (context.of receipts).adding (receiptView added) = context.of (receipts ++ [added]) := by
  simp [Context.of, Context.adding]

/-- The answers of a claim request's schema. -/
def ANSWERS : List Value := [.string "confirm", .string "defer"]

/-- What a current review of a request rests on. -/
structure Current (host : Host) (context : Context) (request v : Value) : Prop where
  judged : (arguments request).field "disposition" = .string "satisfied"
  judgment : (v.field "claim").field "judgment" = .string "satisfied"
  authority : ∃ sources instructions, context.postimages = .ok sources ∧
    (context.instructions.field "sources").asArray = some instructions ∧
    (Confirms host context request sources (applicableSources instructions) ∨
      (arguments request).field "answer" = .null ∧
        (delegated context.config "verification" (sources.map Prod.fst)).isSome)
  answer : (arguments request).field "answer" ∈ ANSWERS →
    (arguments request).field "answer" = .string "confirm"
  producers : ∀ entry ∈ membersOf (context.strategy.field "protocols"),
    entry.2.field "independent_required" ≠ .bool true ∧
      entry.2.field "manual_required" ≠ .bool true
  covered : ∀ entry ∈ membersOf (context.strategy.field "protocols"), manualOnly entry.2 = false →
    ∃ row ∈ context.evidence, selected request row = true ∧ Covers row context.strategy entry.1
  failures : ∀ row ∈ context.evidence, failed row = true → currentFailure row = true →
    superseded host.parseTime context.evidence (some request) row = true ∨
      (disposition (some request) row).field "disposition" = .string "not-material" ∧
        required context.strategy context.obligations context.instructionChecks row = false

theorem current_gaps {request v : Value} (h : view host context (some request) = .ok v)
    (hstatus : v.field "status" = .string "current") :
    gaps host context request = [] ∧
      (v.field "claim").field "judgment" = (arguments request).field "disposition" ∧
      ∃ sources instructions, context.postimages = .ok sources ∧
        (context.instructions.field "sources").asArray = some instructions ∧
        (Confirms host context request sources (applicableSources instructions) ∨
          (arguments request).field "answer" = .null ∧
            (delegated context.config "verification" (sources.map Prod.fst)).isSome) := by
  obtain ⟨sources, instructions, hsources, hinstructions, R⟩ := view_reviewed h
  cases R with
  | asked unanswered undelegated status =>
    rw [status] at hstatus
    simp at hstatus
  | deferred answer status =>
    rw [status] at hstatus
    simp at hstatus
  | settled authority status judgment =>
    rw [status] at hstatus
    refine ⟨?_, judgment, sources, instructions, hsources, hinstructions, authority⟩
    by_contra hgaps
    rw [if_neg hgaps] at hstatus
    simp at hstatus

theorem current_of_view {receipts : List Receipt} {request v : Value}
    (h : view host (context.of receipts) (some request) = .ok v)
    (hstatus : v.field "status" = .string "current") :
    Current host (context.of receipts) request v := by
  obtain ⟨hgaps, hjudgment, sources, instructions, hsources, hinstructions, hauthority⟩ :=
    current_gaps h hstatus
  have G := gaps_nil hgaps
  refine ⟨G.judged, hjudgment.trans G.judged,
    ⟨sources, instructions, hsources, hinstructions, hauthority⟩, ?_, G.producers, ?_, G.failures⟩
  · intro hanswer
    simp only [ANSWERS, List.mem_cons, List.not_mem_nil, or_false] at hanswer
    rcases hanswer with hconfirm | hdefer
    · exact hconfirm
    rcases hauthority with hconfirms | ⟨hnull, -⟩
    · exact absurd hdefer hconfirms.not_deferred
    · rw [hnull] at hdefer
      cases hdefer
  · intro entry hentry hcommands
    obtain ⟨row, hrow, hkept, C⟩ := G.covered entry hentry hcommands
    refine ⟨row, hrow, ?_, C⟩
    obtain ⟨r, -, rfl⟩ := List.mem_map.mp hrow
    -- A row that counts for a protocol is a pass, so it stays only when it is selected.
    rw [Bool.or_eq_true] at hkept
    rcases hkept with hselected | hstays
    · exact hselected
    · rw [stays, passed_not_failed C.passed] at hstays
      cases hstays

theorem adding_not_current {receipts : List Receipt} {added : Receipt}
    (hfailed : failed (receiptView added) = true) {request : Option Value} {v v' : Value}
    (h : view host (context.of receipts) request = .ok v)
    (hstatus : v.field "status" ≠ .string "current")
    (h' : view host (context.of (receipts ++ [added])) request = .ok v') :
    v'.field "status" ≠ .string "current" := by
  intro hcurrent
  cases request with
  | none =>
    rw [view_unrequested h'] at hcurrent
    simp at hcurrent
  | some request =>
    obtain ⟨hgaps, -, sources, instructions, hsources, -, hauthority⟩ := current_gaps h' hcurrent
    rw [← Context.of_adding] at hgaps
    have hopen := gaps_failure hfailed hgaps
    obtain ⟨sources', instructions', hsources', -, R⟩ := view_reviewed h
    have hsame : sources' = sources := Except.ok.inj (hsources'.symm.trans hsources)
    cases R with
    | asked unanswered undelegated status =>
      rcases hauthority with hconfirms | ⟨-, hdelegated⟩
      · exact hconfirms.given unanswered
      · rw [← hsame] at hdelegated
        have hnone : delegated (context.of (receipts ++ [added])).config "verification"
            (sources'.map Prod.fst) = none := undelegated
        rw [hnone] at hdelegated
        cases hdelegated
    | deferred answer status =>
      rcases hauthority with hconfirms | ⟨hnull, -⟩
      · exact hconfirms.not_deferred answer
      · rw [hnull] at answer
        cases answer
    | settled authority status judgment =>
      rw [status, if_pos hopen] at hstatus
      exact hstatus rfl

/-- **A current review is confirmed for exactly its proposal or delegated, finds the claim
    satisfied, leaves no protocol uncovered and no current failure unexplained; and a failed row
    that is added never makes a review current.** -/
theorem claim_review_current (host : Host) (context : Context) (receipts : List Receipt)
    (request : Option Value) :
    (∀ v, view host (context.of receipts) request = .ok v →
      v.field "status" = .string "current" →
        ∃ r, request = some r ∧ Current host (context.of receipts) r v) ∧
    ∀ added, failed (receiptView added) = true →
      ∀ v v', view host (context.of receipts) request = .ok v →
        v.field "status" ≠ .string "current" →
        view host (context.of (receipts ++ [added])) request = .ok v' →
          v'.field "status" ≠ .string "current" := by
  constructor
  · intro v h hstatus
    cases request with
    | none =>
      rw [view_unrequested h] at hstatus
      simp at hstatus
    | some r => exact ⟨r, rfl, current_of_view h hstatus⟩
  · intro added hfailed v v' h hstatus h'
    exact adding_not_current hfailed h hstatus h'

/-! ## A failure superseded by a later pass -/

section Sample

/-- Times are compared by their length here, which is all that the two rows need. -/
def sampleHost : Host where
  digest _ := "sha256:0"
  parseTime s := some s.length
  compileValue _ := .ok .null
  producer := "sha256:0"

def sampleCoverage : Value := .object [("command", .string "cargo test"), ("route_id", .string "unit")]

def sampleFreshness : Value :=
  .object [("command_coverage", sampleCoverage), ("status", .string "reusable"),
    ("strategy_coverage", .string "selected-command-covered"),
    ("sufficiency_currentness", .string "current")]

def sampleReceipt (reference result recordedAt : String) : Receipt :=
  .observed {
    reference
    task := "task"
    receipt := .object [
      ("proof_subject", .object [("id", .string "subject"),
        ("runtime", .object [("implementation", .string "native-aw-proof")])]),
      ("recorded_at", .string recordedAt)]
    publication := .object [("status", .string "admitted")]
    admission := .object [("proof_sufficient", .bool true), ("result_class", .string result)]
    freshness := sampleFreshness
    judgment := .null
    detail := .object [("status", .string "current")]
    futureValueCandidate := .null
    assessmentArtifact := .null
    snapshot := false
    gaps := [] }

def sampleReceipts : List Receipt :=
  [sampleReceipt "proof:1" "failed" "1", sampleReceipt "proof:2" "passed" "22"]

/-- One protocol that the command of one route covers, and the claim delegated for one file. -/
def sampleContext : Context where
  task := "task"
  work := .null
  subject := .null
  postimages := .ok [("a", .null)]
  config := .object [("admissions", .object [("decision_delegations", .array [
    .object [("owner", .string "verification"), ("scope", .strings ["path:a"])]])])]
  instructions := .object [("sources", .array [])]
  strategy := .object [
    ("proof_routes", .object [("unit", .object [("commands", .strings ["cargo test"]),
      ("protocol_refs", .strings ["tests"])])]),
    ("protocols", .object [("tests", .object [("commands", .strings ["cargo test"])])])]
  evidence := []
  obligations := .array []
  instructionChecks := []
  executionRequest v := v
  sourceRevision := "sha256:0"
  contract := .object [("owners", .array [.object [("owner", .string "verification")]])]

def sampleRequest : Value :=
  .object [("arguments", .object [("disposition", .string "satisfied"),
    ("evidence_dispositions", .object [("proof:1", .object [
      ("disposition", .string "superseded"), ("superseding_ref", .string "proof:2")])]),
    ("evidence_refs", .strings ["proof:2"])])]

theorem sample_gaps : gaps sampleHost (sampleContext.of sampleReceipts) sampleRequest = [] := by
  rfl

theorem sample_delegated : (delegated sampleContext.config "verification" ["a"]).isSome = true := by
  decide

theorem sample_view : ∃ v, view sampleHost (sampleContext.of sampleReceipts) (some sampleRequest) =
    .ok v ∧ v.field "status" = .string "current" := by
  have hdelegated : delegated sampleContext.config "verification" ["a"] ≠ none := by
    intro hnone
    have h := sample_delegated
    rw [hnone] at h
    cases h
  have hview : ∃ v, view sampleHost (sampleContext.of sampleReceipts) (some sampleRequest) =
      .ok v ∧ v.field "status" = .string
        (if gaps sampleHost (sampleContext.of sampleReceipts) sampleRequest = [] then "current"
          else "insufficient") :=
    view_delegated rfl rfl rfl rfl rfl rfl hdelegated
  obtain ⟨v, h, hstatus⟩ := hview
  exact ⟨v, h, by rw [hstatus, sample_gaps]; rfl⟩

/-- The review of a failure that a later pass supersedes is current. -/
theorem claim_review_current_sample :
    ∃ v, v.field "status" = .string "current" ∧
      Current sampleHost (sampleContext.of sampleReceipts) sampleRequest v := by
  obtain ⟨v, h, hstatus⟩ := sample_view
  obtain ⟨r, hr, hcurrent⟩ := (claim_review_current sampleHost sampleContext sampleReceipts
    (some sampleRequest)).1 v h hstatus
  cases hr
  exact ⟨v, hstatus, hcurrent⟩

end Sample

end AgenticCore.NativeClaimReview
