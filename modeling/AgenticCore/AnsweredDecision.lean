import AgenticCore.OrderIndependence

/-!
# Answering a bounded decision (`lib.rs`)

* `prepareRequest`        : a public request prepared under the current contract.
* `answerDecision`        : an answer bound into the request its question asks for.
* `HexDigest`             : the digests identities end with.
* `DecisionOf.answer_iff` : an offered answer is prepared exactly when the owner's schema takes it.
* `offered_answerable_iff` : **the same for the questions and the choices a decision reports.**
-/

set_option autoImplicit false

namespace AgenticCore

open Json Text Registry

/-! ## Preparing and answering -/

/-- A prepared request: what is asked, its identity and the kind of its result. -/
def NormalizedPublicRequest.prepared (r : NormalizedPublicRequest) : Value :=
  .object [
    ("identity", .string r.identity),
    ("request", (r.toValue.remove "identity").remove "result_kind"),
    ("result_kind", .string r.resultKind)]

section Prepare

variable (host : Host)

/-- `prepare_request_value`. -/
def Host.prepareRequest (request work : Value) (contract : CapabilityContractInput) :
    Result Value := do
  let contract ← host.normalizeCapabilityContract contract
  let (_, normalized) ← host.normalizePublicRequest
    (.object [("current_work", work), ("public_request", request)]) (some contract)
  let normalized ← okOr normalized "request is present"
  pure normalized.prepared

/-- The first returned decision of the identity. -/
def questionOf (decision : Value) (question : String) : Option Value :=
  ((decision.field "pending_consequences").field "decisions").asArray.bind
    (·.find? fun item => item.field "consequence_id" = .string question)

/-- The request with the answer among its arguments. -/
def withAnswer (request answer : Value) : Value :=
  request.insert "arguments" ((request.field "arguments").insert "answer" answer)

/-- `answer_decision_value`. -/
def Host.answerDecision (decision : Value) (question : String) (answer : Value)
    (contract : CapabilityContractInput) : Result Value := do
  let item ← okOr (questionOf decision question) "answer references a stale or absent decision"
  check (∀ items ∈ (item.field "choices").asArray, items = [] ∨ ∃ c ∈ items, c.field "id" = answer)
    "answer is not a returned bounded choice"
  let request := item.field "response_request"
  check ((request.field "arguments").isObject = true) "current decision has no response request"
  let request := withAnswer request answer
  host.prepareRequest request (request.field "task_identity") contract

end Prepare

variable {host : Host}

/-! ## Digests -/

/-- Digests are told apart, and written as the algorithm and lower-case hexadecimal digits. -/
structure HexDigest (digest : Value → String) : Prop where
  injective : Function.Injective digest
  hex : ∀ v, ∃ digits : List Char, digest v = "sha256:" ++ String.ofList digits ∧ digits ≠ [] ∧
    ∀ c ∈ digits, lowerHexDigit c = true

theorem not_colon_of_lowerHexDigit {c : Char} (h : lowerHexDigit c = true) : c ≠ ':' := by
  rintro rfl
  cases h

/-- What follows the last colon of a text. -/
theorem takeWhile_reverse_append {before digits : List Char}
    (h : ∀ c ∈ digits, lowerHexDigit c = true) :
    (before ++ ':' :: digits).reverse.takeWhile (· ≠ ':') = digits.reverse := by
  rw [List.reverse_append, List.reverse_cons, List.append_assoc, List.takeWhile_append_of_pos]
  · simp
  · intro c hc
    exact decide_eq_true (not_colon_of_lowerHexDigit (h c (List.mem_reverse.mp hc)))

/-- The digest at the end of a text is the text's. -/
theorem HexDigest.append_inj {digest : Value → String} (H : HexDigest digest) {s t : String}
    {v w : Value} (h : s ++ digest v = t ++ digest w) : v = w := by
  obtain ⟨digits, hv, -, hdigits⟩ := H.hex v
  obtain ⟨digits', hw, -, hdigits'⟩ := H.hex w
  have hsuffix : ∀ (s : String) (ds : List Char), (s ++ ("sha256:" ++ String.ofList ds)).toList =
      (s.toList ++ "sha256".toList) ++ ':' :: ds := fun s ds => by simp
  have hreverse := congrArg (fun s : String => s.toList.reverse.takeWhile (· ≠ ':')) h
  simp only [hv, hw, hsuffix, takeWhile_reverse_append hdigits,
    takeWhile_reverse_append hdigits', List.reverse_inj] at hreverse
  apply H.injective
  rw [hv, hw, hreverse]

theorem not_isWhitespace_of_lowerHexDigit {c : Char} (h : lowerHexDigit c = true) :
    isWhitespace c = false := by
  simp only [lowerHexDigit, Bool.or_eq_true, Bool.and_eq_true, decide_eq_true_eq, Char.le_def,
    UInt32.le_iff_toNat_le] at h
  have hrange : 0x30 ≤ c.toNat ∧ c.toNat ≤ 0x66 := by
    show 48 ≤ c.val.toNat ∧ c.val.toNat ≤ 102
    rcases h with ⟨h₁, h₂⟩ | ⟨h₁, h₂⟩
    · exact ⟨h₁, h₂.trans (by decide)⟩
    · exact ⟨le_trans (by decide) h₁, h₂⟩
  simp only [isWhitespace, Bool.or_eq_false_iff, Bool.and_eq_false_iff, decide_eq_false_iff_not,
    beq_eq_false_iff_ne]
  omega

/-- A text that ends with a digest ends with no white space. -/
theorem HexDigest.trim_append {digest : Value → String} (H : HexDigest digest) {s : String}
    {v : Value} (hhead : ∀ c ∈ s.toList.head?, isWhitespace c = false) (hne : s ≠ "") :
    trim (s ++ digest v) = s ++ digest v := by
  obtain ⟨digits, hv, hne', hdigits⟩ := H.hex v
  have hlist : (s ++ digest v).toList = s.toList ++ ("sha256:".toList ++ digits) := by
    rw [hv]; simp
  apply trim_of_ends
  · intro c hc
    rw [hlist, List.head?_append_of_ne_nil _ fun h => hne (String.toList_eq_nil_iff.mp h)] at hc
    exact hhead c hc
  · intro c hc
    rw [hlist, ← List.append_assoc, List.getLast?_append_of_ne_nil _ hne'] at hc
    exact not_isWhitespace_of_lowerHexDigit (hdigits c (List.mem_of_getLast? hc))

/-! ## The current work -/

theorem CurrentWorkIdentity.ofValue_toValue (w : CurrentWorkIdentity) :
    CurrentWorkIdentity.ofValue w.toValue = some w := rfl

/-- A work identity as a request may name it. -/
structure CurrentWorkIdentity.Fit (w : CurrentWorkIdentity) : Prop where
  kind : w.kind = "current-work"
  id : w.id ≠ ""
  trimmed : trim w.id = w.id

theorem workIdentity_eq_ok {v : Value} {w : CurrentWorkIdentity} (h : workIdentity v = .ok w) :
    w.Fit := by
  simp only [workIdentity, Except.bind_eq_ok_iff, okOr_eq_ok, requireText_eq_ok, check_eq_ok,
    Except.pure_eq_ok_iff] at h
  obtain ⟨parsed, -, _, -, _, ⟨hid, rfl⟩, _, hkind, rfl⟩ := h
  exact ⟨hkind, hid, trim_trim _⟩

theorem workIdentity_toValue {w : CurrentWorkIdentity} (F : w.Fit) :
    workIdentity w.toValue = .ok w := by
  obtain ⟨kind, id⟩ := w
  obtain rfl : kind = "current-work" := F.kind
  have htrimmed : trim id = id := F.trimmed
  have hkind : ∀ field, requireText "current-work" field = .ok "current-work" := fun _ =>
    requireText_eq_ok.mpr ⟨by decide, by decide⟩
  have hid : ∀ field, requireText id field = .ok id := fun _ =>
    requireText_eq_ok.mpr ⟨by rw [htrimmed]; exact F.id, htrimmed.symm⟩
  simp only [workIdentity, Except.bind_eq_ok_iff]
  exact ⟨_, okOr_eq_ok.mpr (CurrentWorkIdentity.ofValue_toValue _), _, hkind _, _, hid _, (),
    check_eq_ok.mpr rfl, rfl⟩

theorem currentWork_fit {intent : Value} {w : CurrentWorkIdentity}
    (h : currentWork intent = .ok (some w)) : w.Fit := by
  unfold currentWork at h
  cases hwork : intent.get? "current_work" with
  | none =>
    rw [hwork] at h
    cases h
  | some v =>
    rw [hwork, transposeM] at h
    cases hv : workIdentity v with
    | error problem =>
      rw [hv] at h
      cases h
    | ok w' =>
      rw [hv] at h
      cases h
      exact workIdentity_eq_ok hv

/-! ## Where decisions come from -/

theorem mem_decisions {input : DecisionInput} {c : Composed} (C : Composes host input c)
    {n : NormalizedDecision} (hn : n ∈ c.decisions) :
    ∃ i ∈ input.contributions, ∃ d ∈ i.decisions, trim i.owner ≠ "" ∧ trim i.revision ≠ "" ∧
      DecisionOf host c.capabilities c.intent (trim i.owner) (trim i.revision) i.defaultBasis d n := by
  obtain ⟨routed, request, normalized, -, -, hnormalized, -, hrelevant⟩ := C.sources
  rw [Composed.decisions, List.mem_insertionSort, List.mem_flatMap] at hn
  obtain ⟨m, hm, hn⟩ := hn
  rw [hrelevant, List.mem_insertionSort, List.mem_filter] at hm
  obtain ⟨i, hi, N⟩ := hnormalized.exists_left m hm.1
  obtain ⟨ys, hys, hsorted⟩ := N.decisions
  rw [hsorted, List.mem_insertionSort] at hn
  obtain ⟨d, hd, D⟩ := hys.exists_left n hn
  exact ⟨i, hi, d, hd, N.named, N.revised, D⟩

/-- The decisions of one report are told apart by their identities. -/
theorem decisions_identified (H : HexDigest host.digest) {input : DecisionInput} {c : Composed}
    (C : Composes host input c) {n n' : NormalizedDecision} (hn : n ∈ c.decisions)
    (hn' : n' ∈ c.decisions) (hid : n.consequenceId = n'.consequenceId) : n = n' := by
  obtain ⟨i, -, d, -, -, -, b, -, F, rfl⟩ := mem_decisions C hn
  obtain ⟨i', -, d', -, -, -, b', -, F', rfl⟩ := mem_decisions C hn'
  rw [normalDecision_consequenceId, normalDecision_consequenceId] at hid
  exact (decisionSeal_inj F F' (H.append_inj hid)).2.2

/-- What an accepted contract declares of an owner. -/
structure OwnerDeclared (host : Host) (capability : NormalizedCapabilityOwner) : Prop where
  revision : trim capability.revision = capability.revision ∧ capability.revision ≠ ""
  requests : ∀ (kind : String) (shape : NormalizedRequestShape),
    capability.requests[kind]? = some shape →
      trim kind = kind ∧ kind ≠ "" ∧ host.SchemaFit shape.inputSchema

theorem CapabilityContractInput.Fit.declares {contract : CapabilityContractInput}
    (F : contract.Fit host) {owner : String} {capability : NormalizedCapabilityOwner}
    (h : contract.normal.owners[owner]? = some capability) : OwnerDeclared host capability := by
  obtain ⟨o, ho, -, rfl⟩ := (owners_get F.apart).mp h
  have O := F.owners o ho
  refine ⟨⟨trim_trim _, O.revision⟩, fun kind shape hshape => ?_⟩
  have hnodup : (o.requestEntries.map Prod.fst).Nodup := by
    rw [CapabilityOwnerInput.requestEntries, List.map_map]
    exact O.distinctRequests
  have hentry := (enter_get hnodup).mp hshape
  simp only [Std.ExtTreeMap.getElem?_empty, reduceCtorEq, and_false, or_false] at hentry
  obtain ⟨r, hr, heq⟩ := List.mem_map.mp hentry
  cases heq
  obtain ⟨hkind, hschema, -⟩ := O.requests r hr
  exact ⟨trim_trim _, hkind, hschema⟩

/-! ## The answered request -/

/-- What a decision's question asks, with the answer put in. -/
theorem withAnswer_responseRequest (owner revision : String) (b : DecisionBasis)
    (d : BoundedDecisionInput) (answer : Value) :
    withAnswer (host.normalDecision owner revision b d).responseRequest answer = .object [
      ("arguments", d.responseRequest.arguments.insert "answer" answer),
      ("capability_revision", .string b.contract.revision),
      ("id", .string s!"answer:{(host.normalDecision owner revision b d).consequenceId}"),
      ("kind", .string PUBLIC_REQUEST_KIND),
      ("owner", .string owner),
      ("owner_revision", .string b.capability.revision),
      ("request_kind", .string d.responseRequest.requestKind),
      ("source_revision", .string revision),
      ("task_identity", b.current.toValue)] := rfl

theorem validArguments_eq_ok {shape : NormalizedRequestShape} {arguments : Value} {u : Unit} :
    host.validArguments shape arguments = .ok u ↔
      arguments.isObject = true ∧ host.SchemaFit shape.inputSchema ∧
        host.accepts shape.inputSchema arguments = true := by
  simp only [Host.validArguments, Except.bind_eq_ok_iff, check_eq_ok, schemaValidator_eq_ok]
  constructor
  · rintro ⟨_, ho, _, ⟨hs, rfl⟩, ha⟩
    exact ⟨ho, hs, ha⟩
  · rintro ⟨ho, hs, ha⟩
    exact ⟨(), ho, _, ⟨hs, rfl⟩, ha⟩

theorem isObject_insert {v : Value} (h : v.isObject = true) (key : String) (w : Value) :
    (v.insert key w).isObject = true := by
  cases v with
  | object members => rfl
  | null | bool | number | string | array => cases h

/-- A decision of an owner under the contract it was made under. -/
structure Asked (host : Host) (contract : CapabilityContractInput) (owner revision : String)
    (b : DecisionBasis) (d : BoundedDecisionInput) : Prop where
  admitted : contract.Fit host ∧ b.contract = contract.normal
  named : trim owner = owner ∧ owner ≠ ""
  revised : trim revision = revision ∧ revision ≠ ""
  capability : b.contract.owners[owner]? = some b.capability
  shape : b.capability.requests[d.responseRequest.requestKind]? = some b.shape
  current : b.current.Fit
  arguments : d.responseRequest.arguments.isObject = true

section Answer

variable {contract : CapabilityContractInput} {owner revision : String} {b : DecisionBasis}
  {d : BoundedDecisionInput}

theorem Asked.declared (A : Asked host contract owner revision b d) :
    OwnerDeclared host b.capability :=
  A.admitted.1.declares (A.admitted.2 ▸ A.capability)

/-- The identity of the request has nothing to trim. -/
theorem HexDigest.trim_answer (H : HexDigest host.digest) (owner revision : String)
    (b : DecisionBasis) (d : BoundedDecisionInput) :
    trim s!"answer:{(host.normalDecision owner revision b d).consequenceId}" =
      s!"answer:{(host.normalDecision owner revision b d).consequenceId}" := by
  have hid : s!"answer:{(host.normalDecision owner revision b d).consequenceId}" =
      ("answer:" ++ ("decision:" ++ owner ++ ":" ++ revision ++ ":")) ++
        host.digest (decisionSeal owner revision b d) := String.append_assoc.symm
  rw [hid]
  apply H.trim_append
  · intro c hc
    rw [String.toList_append, List.head?_append_of_ne_nil _ (by decide)] at hc
    obtain rfl := Option.some.inj hc
    decide
  · intro h
    have hnil := String.toList_eq_nil_iff.mpr h
    rw [String.toList_append, List.append_eq_nil_iff] at hnil
    exact absurd hnil.1 (by decide)

theorem requireText_of_trimmed {value : String} (h : trim value = value) (hne : value ≠ "")
    (field : String) : requireText value field = .ok value :=
  requireText_eq_ok.mpr ⟨by rwa [h], h.symm⟩

/-- The request of a decision with an answer, as it is prepared. -/
def preparedRequest (host : Host) (owner revision : String) (b : DecisionBasis)
    (d : BoundedDecisionInput) (answer : Value) : NormalizedPublicRequest where
  id := s!"answer:{(host.normalDecision owner revision b d).consequenceId}"
  identity :=
    let identity := host.digest (.object [
      ("arguments", d.responseRequest.arguments.insert "answer" answer),
      ("capability_revision", .string b.contract.revision),
      ("id", .string s!"answer:{(host.normalDecision owner revision b d).consequenceId}"),
      ("owner", .string owner),
      ("owner_revision", .string b.capability.revision),
      ("request_contract", b.shape.toValue),
      ("request_kind", .string d.responseRequest.requestKind),
      ("source_revision", .string revision),
      ("task_identity", b.current.toValue)])
    s!"request:{identity}"
  owner := owner
  ownerRevision := b.capability.revision
  sourceRevision := revision
  requestKind := d.responseRequest.requestKind
  resultKind := b.shape.resultKind
  capabilityRevision := b.contract.revision
  taskIdentity := b.current
  arguments := d.responseRequest.arguments.insert "answer" answer

theorem preparedRequest_toValue (owner revision : String) (b : DecisionBasis)
    (d : BoundedDecisionInput) (answer : Value) :
    ((preparedRequest host owner revision b d answer).toValue.remove "identity").remove
        "result_kind" =
      withAnswer (host.normalDecision owner revision b d).responseRequest answer := rfl

/-- The answered request passes every check but that of its arguments. -/
theorem Asked.publicRequest_eq (H : HexDigest host.digest)
    (A : Asked host contract owner revision b d) (answer : Value) {intent : Value}
    (hintent : currentWork intent = .ok (some b.current)) :
    host.publicRequest intent
        (withAnswer (host.normalDecision owner revision b d).responseRequest answer)
        (some b.contract) =
      (host.validArguments b.shape (d.responseRequest.arguments.insert "answer" answer)).map
        fun _ => preparedRequest host owner revision b d answer := by
  obtain ⟨hkind, hkindNe, -⟩ := A.declared.requests _ _ A.shape
  obtain ⟨hrevision, hrevisionNe⟩ := A.declared.revision
  have hidNe : s!"answer:{(host.normalDecision owner revision b d).consequenceId}" ≠ "" := by
    intro h
    have hnil := String.toList_eq_nil_iff.mpr h
    rw [String.toList_append, List.append_eq_nil_iff] at hnil
    exact absurd hnil.1 (by decide)
  have hparsed : PublicRequestInput.ofValue
      (withAnswer (host.normalDecision owner revision b d).responseRequest answer) = some {
        kind := PUBLIC_REQUEST_KIND
        id := s!"answer:{(host.normalDecision owner revision b d).consequenceId}"
        owner, ownerRevision := b.capability.revision, sourceRevision := revision
        requestKind := d.responseRequest.requestKind, capabilityRevision := b.contract.revision
        taskIdentity := b.current
        arguments := d.responseRequest.arguments.insert "answer" answer } := rfl
  have hok : ∀ {α β : Type} (a : α) (f : α → Result β), (Except.ok a >>= f) = f a := fun _ _ => rfl
  unfold Host.publicRequest
  simp only [okOr, hparsed, hok, requireText_of_trimmed (H.trim_answer owner revision b d) hidNe,
    requireText_of_trimmed A.named.1 A.named.2, requireText_of_trimmed A.revised.1 A.revised.2,
    requireText_of_trimmed hrevision hrevisionNe, requireText_of_trimmed hkind hkindNe, hintent,
    A.capability, A.shape, check, require, if_true]
  rfl

/-- **The answered request is prepared as it was asked exactly when the owner's schema takes its
arguments.** -/
theorem Asked.prepared_iff (H : HexDigest host.digest)
    (A : Asked host contract owner revision b d) (answer : Value) :
    let request := withAnswer (host.normalDecision owner revision b d).responseRequest answer
    (∃ prepared, host.prepareRequest request (request.field "task_identity") contract =
        .ok prepared ∧ prepared.field "request" = request) ↔
      host.accepts b.shape.inputSchema (d.responseRequest.arguments.insert "answer" answer) =
        true := by
  intro request
  have hcontract : host.normalizeCapabilityContract contract = .ok b.contract :=
    normalizeCapabilityContract_eq_ok.mpr A.admitted
  have hcurrent : currentWork (.object [("current_work", b.current.toValue),
      ("public_request", request)]) = .ok (some b.current) := by
    show (some <$> workIdentity b.current.toValue) = _
    rw [workIdentity_toValue A.current]
    rfl
  have hrequest := A.publicRequest_eq H answer hcurrent
  have hschema := (A.declared.requests _ _ A.shape).2.2
  have hobject := isObject_insert A.arguments "answer" answer
  constructor
  · rintro ⟨prepared, hprepared, -⟩
    simp only [Host.prepareRequest, Except.bind_eq_ok_iff] at hprepared
    obtain ⟨_, hnormal, ⟨_, n⟩, hnormalized, -⟩ := hprepared
    obtain rfl := Except.ok.inj (hcontract.symm.trans hnormal)
    obtain ⟨r, hr, -⟩ := Except.bind_eq_ok_iff.mp hnormalized
    have hvalid := hrequest.symm.trans hr
    cases harguments : host.validArguments b.shape (d.responseRequest.arguments.insert "answer"
        answer) with
    | error problem =>
      rw [harguments] at hvalid
      cases hvalid
    | ok u => exact (validArguments_eq_ok.mp harguments).2.2
  · intro haccepts
    have hvalid : host.validArguments b.shape (d.responseRequest.arguments.insert "answer" answer) =
        .ok () := validArguments_eq_ok.mpr ⟨hobject, hschema, haccepts⟩
    rw [hvalid] at hrequest
    refine ⟨(preparedRequest host owner revision b d answer).prepared, ?_,
      preparedRequest_toValue owner revision b d answer⟩
    simp only [Host.prepareRequest, Except.bind_eq_ok_iff]
    exact ⟨_, hcontract, _, Except.bind_eq_ok_iff.mpr ⟨_, hrequest, rfl⟩, _, rfl, rfl⟩

end Answer

/-! ## The offered answers of a report -/

theorem compile_decisions {input : DecisionInput} {decision : Value}
    (h : host.compile input = .ok decision) : ∃ c, Composes host input c ∧
      (decision.field "pending_consequences").field "decisions" =
        .array (c.decisions.map NormalizedDecision.toValue) := by
  obtain ⟨c, answer, C, hanswer, rfl⟩ := compile_eq_ok.mp h
  simp only [Host.answer, Except.bind_eq_ok_iff, Except.pure_eq_ok_iff] at hanswer
  obtain ⟨revisions, -, rfl⟩ := hanswer
  refine ⟨c, C, ?_⟩
  rw [decisionOf_field (by decide) (by decide)]
  unfold Value.field
  rw [record_get? (by simp)]
  rfl

theorem NormalizedDecision.field_eq (n : NormalizedDecision) :
    n.toValue.field "consequence_id" = .string n.consequenceId ∧
      n.toValue.field "choices" = .array (n.choices.map Choice.toValue) ∧
      n.toValue.field "response_request" = n.responseRequest ∧
      n.toValue.field "response_schema" = n.responseSchema := by
  refine ⟨?_, ?_, ?_, ?_⟩
  all_goals
    rw [Value.field, NormalizedDecision.toValue, record_get? (by simp)]
    rfl

/-- A decision of a report is asked under its contract. -/
theorem asked_of_composes {input : DecisionInput} {contract : CapabilityContractInput} {c : Composed}
    (hcontract : input.capabilityContract = some contract) (C : Composes host input c)
    {n : NormalizedDecision} (hn : n ∈ c.decisions) : ∃ owner revision b d,
      Asked host contract owner revision b d ∧ n = host.normalDecision owner revision b d := by
  obtain ⟨i, -, d, -, hnamed, hrevised, b, -, F, rfl⟩ := mem_decisions C hn
  have hb : b.contract = contract.normal := by
    have hcapabilities := F.contract
    rw [C.capabilities, hcontract] at hcapabilities
    exact (Option.some.inj hcapabilities).symm
  exact ⟨_, _, b, d, ⟨⟨C.contract contract hcontract, hb⟩, ⟨trim_trim _, hnamed⟩,
    ⟨trim_trim _, hrevised⟩, F.capability, F.shape, currentWork_fit F.current, F.arguments⟩, rfl⟩

/-- The question a decision of the report answers to is the decision. -/
theorem questionOf_report (H : HexDigest host.digest) {input : DecisionInput} {c : Composed}
    (C : Composes host input c) {decision : Value}
    (hreport : (decision.field "pending_consequences").field "decisions" =
      .array (c.decisions.map NormalizedDecision.toValue))
    {n : NormalizedDecision} (hn : n ∈ c.decisions) :
    questionOf decision n.consequenceId = some n.toValue := by
  rw [questionOf, hreport]
  show (c.decisions.map NormalizedDecision.toValue).find? _ = _
  rw [List.find?_map]
  cases hfind : c.decisions.find? ((fun item : Value => decide (item.field "consequence_id" =
      .string n.consequenceId)) ∘ NormalizedDecision.toValue) with
  | none =>
    have hnone := List.find?_eq_none.mp hfind n hn
    simp [n.field_eq.1] at hnone
  | some n' =>
    have hid := List.find?_some hfind
    simp only [Function.comp_apply, n'.field_eq.1, decide_eq_true_eq, Value.string.injEq] at hid
    rw [decisions_identified H C (List.mem_of_find?_eq_some hfind) hn hid]
    rfl

/-- An answer offered for a decision of the report is prepared as the decision asks it exactly when
    the declared schema takes its arguments. -/
theorem reported_answer_iff (H : HexDigest host.digest) {input : DecisionInput}
    {contract : CapabilityContractInput} {c : Composed} {decision : Value}
    (hcontract : input.capabilityContract = some contract) (C : Composes host input c)
    (hreport : (decision.field "pending_consequences").field "decisions" =
      .array (c.decisions.map NormalizedDecision.toValue))
    {n : NormalizedDecision} (hn : n ∈ c.decisions) {ch : Choice} (hch : ch ∈ n.choices) :
    (∃ prepared, host.answerDecision decision n.consequenceId (.string ch.id) contract =
        .ok prepared ∧ prepared.field "request" = withAnswer n.responseRequest (.string ch.id)) ↔
      host.accepts n.responseSchema
        ((n.responseRequest.field "arguments").insert "answer" (.string ch.id)) = true := by
  have hquestion := questionOf_report H C hreport hn
  have hchoice : ∀ items ∈ (n.toValue.field "choices").asArray,
      items = [] ∨ ∃ c ∈ items, c.field "id" = .string ch.id := by
    intro items hitems
    rw [n.field_eq.2.1] at hitems
    obtain rfl := Option.some.inj hitems
    exact Or.inr ⟨ch.toValue, List.mem_map_of_mem hch, rfl⟩
  have hrequest := n.field_eq.2.2.1
  obtain ⟨owner, revision, b, d, A, rfl⟩ := asked_of_composes hcontract C hn
  refine Iff.trans ?_ (A.prepared_iff H (.string ch.id))
  simp only [Host.answerDecision, hquestion, Except.bind_eq_ok_iff, okOr_eq_ok, check_eq_ok,
    Option.some.injEq, exists_eq_left', hrequest]
  constructor
  · rintro ⟨prepared, ⟨_, -, _, -, hok⟩, hfield⟩
    exact ⟨prepared, hok, hfield⟩
  · rintro ⟨prepared, hok, hfield⟩
    exact ⟨prepared, ⟨(), hchoice, (), A.arguments, hok⟩, hfield⟩

/-- A choice published as it was declared is answerable. -/
theorem DecisionFit.accepts_of_trimmed {owner revision : String}
    {capabilities : Option NormalizedCapabilityContract} {intent : Value} {b : DecisionBasis}
    {d : BoundedDecisionInput} (F : DecisionFit host owner revision capabilities intent b d)
    {ch : Choice} (hch : ch ∈ d.choices) (htrimmed : trim ch.id = ch.id) :
    host.accepts b.shape.inputSchema (d.responseRequest.arguments.insert "answer"
      (.string (normalChoice ch).id)) = true := by
  rw [normalChoice, htrimmed]
  exact (validateOperationArguments_eq_ok.mp (F.offered ch hch)).2.2

/-- **An offered answer to a reported decision is prepared as the decision asks it exactly when the
declared schema takes its arguments with the published choice.** -/
theorem offered_answerable_iff (H : HexDigest host.digest) {input : DecisionInput}
    {contract : CapabilityContractInput} {decision d choice : Value} {decisions choices : List Value}
    (hcontract : input.capabilityContract = some contract) (h : host.compile input = .ok decision)
    (hdecisions : (decision.field "pending_consequences").field "decisions" = .array decisions)
    (hd : d ∈ decisions) (hchoices : d.field "choices" = .array choices) (hc : choice ∈ choices) :
    ∃ id answer, d.field "consequence_id" = .string id ∧ choice.field "id" = .string answer ∧
      ((∃ prepared, host.answerDecision decision id (.string answer) contract = .ok prepared ∧
          prepared.field "request" = withAnswer (d.field "response_request") (.string answer)) ↔
        host.accepts (d.field "response_schema")
          (((d.field "response_request").field "arguments").insert "answer" (.string answer)) =
            true) := by
  obtain ⟨c, C, hreport⟩ := compile_decisions h
  obtain rfl := Value.array.inj (hdecisions.symm.trans hreport)
  obtain ⟨n, hn, rfl⟩ := List.mem_map.mp hd
  obtain ⟨hid, hpublished, hrequest, hschema⟩ := n.field_eq
  obtain rfl := Value.array.inj (hchoices.symm.trans hpublished)
  obtain ⟨ch, hch, rfl⟩ := List.mem_map.mp hc
  refine ⟨_, ch.id, hid, rfl, ?_⟩
  rw [hrequest, hschema]
  exact reported_answer_iff H hcontract C hreport hn hch

/-! ### A choice with white space before it -/

/-- Each character as many zeros as its number, then a one. -/
def unaryCode (cs : List Char) : List Char :=
  cs.flatMap fun c => List.replicate c.toNat '0' ++ ['1']

theorem unaryCode_injective : Function.Injective unaryCode := by
  have hstep : ∀ (n m : Nat) (r s : List Char),
      List.replicate n '0' ++ '1' :: r = List.replicate m '0' ++ '1' :: s → n = m ∧ r = s := by
    intro n
    induction n with
    | zero =>
      intro m r s h
      cases m with
      | zero => exact ⟨rfl, (List.cons.inj h).2⟩
      | succ m => exact absurd (List.cons.inj h).1 (by decide)
    | succ n ih =>
      intro m r s h
      cases m with
      | zero => exact absurd (List.cons.inj h).1 (by decide)
      | succ m =>
        obtain ⟨rfl, rfl⟩ := ih m r s (List.cons.inj h).2
        exact ⟨rfl, rfl⟩
  intro cs ds h
  induction cs generalizing ds with
  | nil =>
    cases ds with
    | nil => rfl
    | cons d ds => simp [unaryCode] at h
  | cons c cs ih =>
    cases ds with
    | nil => simp [unaryCode] at h
    | cons d ds =>
      simp only [unaryCode, List.flatMap_cons, List.append_assoc, List.singleton_append] at h
      obtain ⟨hcd, hrest⟩ := hstep _ _ _ _ h
      rw [Char.toNat_inj.mp hcd, ih hrest]

/-- An answer is accepted where it is among those the schema lists. -/
def choosingHost : Host where
  digest v := "sha256:" ++ String.ofList ('0' :: unaryCode (text v).toList)
  builds _ := true
  accepts schema v :=
    match (((schema.field "properties").field "answer").field "enum").asArray with
    | some items => decide (v.field "answer" ∈ items)
    | none => true
  activity _ := .ok .null

theorem choosingHost_digest : HexDigest choosingHost.digest where
  injective v w h := by
    have hcode := String.ofList_injective ((String.append_right_inj _).mp h)
    exact text_injective (String.toList_injective (unaryCode_injective (List.cons.inj hcode).2))
  hex v := by
    refine ⟨_, rfl, List.cons_ne_nil _ _, fun c hc => ?_⟩
    rcases List.mem_cons.mp hc with rfl | hc
    · decide
    · obtain ⟨d, -, hd⟩ := List.mem_flatMap.mp hc
      rcases List.mem_append.mp hd with hd | hd
      · rw [List.eq_of_mem_replicate hd]
        decide
      · rw [List.mem_singleton.mp hd]
        decide

def choosingSchema : Value :=
  .object [("$schema", .string "https://json-schema.org/draft/2020-12/schema"),
    ("properties", .object [("answer", .object [("enum", .strings [" yes", "no"])])])]

def choosingContract : CapabilityContractInput :=
  { sampleContract with
    owners := [{ sampleOwner "a" with requests := [⟨"ask", choosingSchema, "result"⟩] }] }

/-- One decision with a choice that starts with white space and one that does not. -/
def choosingInput : DecisionInput where
  contributions := [{ sampleContribution "a" with
    actions := []
    decisions := [{
      basis := none, id := "d", question := "Proceed?", material := none, humanContext := none
      humanEligibility := none, responseRequest := ⟨"ask", .object []⟩
      choices := [⟨" yes", "Yes"⟩, ⟨"no", "No"⟩], affects := ["attestation:a"] }] }]
  decisionContext := none
  intent := .object [("current_work", .object [("id", .string "t"), ("kind", .string "current-work")])]
  capabilityContract := some choosingContract

theorem choosingInput_decisions : (choosingHost.compose choosingInput).toOption.map (fun c =>
      c.decisions.map fun n => (n.choices.map (·.id), n.responseSchema,
        n.responseRequest.field "arguments")) =
    some [(["yes", "no"], choosingSchema, .object [])] := by
  decide

theorem choosingInput_report : ∃ decision c n, choosingHost.compile choosingInput = .ok decision ∧
    Composes choosingHost choosingInput c ∧
    (decision.field "pending_consequences").field "decisions" = .array [n.toValue] ∧
    c.decisions = [n] ∧ n.choices.map (·.id) = ["yes", "no"] ∧ n.responseSchema = choosingSchema ∧
    n.responseRequest.field "arguments" = .object [] := by
  have hdecisions := choosingInput_decisions
  cases hcompose : choosingHost.compose choosingInput with
  | error problem =>
    rw [hcompose] at hdecisions
    cases hdecisions
  | ok c =>
    have C := compose_eq_ok.mp hcompose
    obtain ⟨answer, hanswer⟩ := @answer_ok choosingHost c
    have hcompile := compile_eq_ok.mpr ⟨c, answer, C, hanswer, rfl⟩
    obtain ⟨c', C', hreport⟩ := compile_decisions hcompile
    obtain rfl := Except.ok.inj ((compose_eq_ok.mpr C').symm.trans hcompose)
    rw [hcompose] at hdecisions
    obtain ⟨n, hn, hread⟩ := List.map_eq_singleton_iff.mp (Option.some.inj hdecisions)
    simp only [Prod.mk.injEq] at hread
    rw [hn] at hreport
    exact ⟨_, c', n, hcompile, C', hreport, hn, hread.1, hread.2.1, hread.2.2⟩

theorem offered_answerable_iff_choosing : ∃ (decision d choice : Value) (id answer : String),
    choosingHost.compile choosingInput = .ok decision ∧ d.field "consequence_id" = .string id ∧
      choice.field "id" = .string answer ∧
      ((∃ prepared, choosingHost.answerDecision decision id (.string answer) choosingContract =
          .ok prepared ∧
          prepared.field "request" = withAnswer (d.field "response_request") (.string answer)) ↔
        choosingHost.accepts (d.field "response_schema")
          (((d.field "response_request").field "arguments").insert "answer" (.string answer)) =
            true) := by
  obtain ⟨decision, c, n, hcompile, -, hdecisions, -, hchoices, -⟩ := choosingInput_report
  obtain ⟨ch, hch, -⟩ := List.mem_map.mp
    (hchoices ▸ List.mem_cons_self : "yes" ∈ n.choices.map (·.id))
  obtain ⟨id, answer, hid, hanswer, hiff⟩ := offered_answerable_iff choosingHost_digest rfl hcompile
    hdecisions (List.mem_singleton_self _) n.field_eq.2.1 (List.mem_map_of_mem hch)
  exact ⟨decision, n.toValue, ch.toValue, id, answer, hcompile, hid, hanswer, hiff⟩

/-- The choice is offered without its white space, and refused as an answer. -/
theorem spaced_choice_unanswerable : ∃ (decision d : Value) (choices : List Value) (choice : Value)
    (id : String),
    choosingHost.compile choosingInput = .ok decision ∧
      (decision.field "pending_consequences").field "decisions" = .array [d] ∧
      d.field "consequence_id" = .string id ∧ d.field "choices" = .array choices ∧
      choice ∈ choices ∧ choice.field "id" = .string "yes" ∧
      ¬∃ prepared, choosingHost.answerDecision decision id (.string "yes") choosingContract =
          .ok prepared ∧
        prepared.field "request" = withAnswer (d.field "response_request") (.string "yes") := by
  obtain ⟨decision, c, n, hcompile, C, hdecisions, hn, hchoices, hschema, harguments⟩ :=
    choosingInput_report
  obtain ⟨ch, hch, hid⟩ := List.mem_map.mp
    (hchoices ▸ List.mem_cons_self : "yes" ∈ n.choices.map (·.id))
  have hreport : (decision.field "pending_consequences").field "decisions" =
      .array (c.decisions.map NormalizedDecision.toValue) := by
    rw [hdecisions, hn]
    rfl
  have hiff := reported_answer_iff choosingHost_digest rfl C hreport
    (hn ▸ List.mem_singleton_self n) hch
  have hid' : ch.id = "yes" := hid
  rw [hid', hschema, harguments] at hiff
  refine ⟨decision, n.toValue, _, ch.toValue, _, hcompile, hdecisions, n.field_eq.1,
    n.field_eq.2.1, List.mem_map_of_mem hch, congrArg Value.string hid', ?_⟩
  rw [n.field_eq.2.2.1, hiff]
  decide

end AgenticCore
