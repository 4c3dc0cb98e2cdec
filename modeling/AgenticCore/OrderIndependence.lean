import AgenticCore.InvocationIdentity
import AgenticCore.Completion
import AgenticCore.Reordering

/-!
# The decision does not depend on the order of its input

* `DecisionInput.Permuted` : the same input with its lists reordered.
* `blockerOf_eq`           : equal identities mean equal blockers; `decisionOf_eq` for decisions.
* `Contributes.permuted`   : a reordered contribution has the same normal form.
* `order_independent`      : so the decision is the same value.
-/

set_option autoImplicit false

namespace AgenticCore

open Json Text Registry

/-! ## Reordered contributions -/

structure BlockerInput.Permuted (b b' : BlockerInput) : Prop where
  rest : { b' with affects := b.affects } = b
  affects : b.affects.Perm b'.affects

structure BoundedDecisionInput.Permuted (d d' : BoundedDecisionInput) : Prop where
  rest : { d' with affects := d.affects } = d
  affects : d.affects.Perm d'.affects

structure OutcomeInput.Permuted (o o' : OutcomeInput) : Prop where
  rest : { o' with requiredClaims := o.requiredClaims } = o
  requiredClaims : o.requiredClaims.Perm o'.requiredClaims

structure ContributionInput.Permuted (i j : ContributionInput) : Prop where
  rest : { j with blockers := i.blockers, decisions := i.decisions, actions := i.actions,
                  claims := i.claims, outcome := i.outcome } = i
  blockers : PermutedBy BlockerInput.Permuted i.blockers j.blockers
  decisions : PermutedBy BoundedDecisionInput.Permuted i.decisions j.decisions
  actions : i.actions.Perm j.actions
  allowed : i.claims.allowed.Perm j.claims.allowed
  blocked : i.claims.blocked.Perm j.claims.blocked
  outcome : Option.Rel OutcomeInput.Permuted i.outcome j.outcome

/-- The same input with its lists reordered. -/
structure DecisionInput.Permuted (input input' : DecisionInput) : Prop where
  decisionContext : input'.decisionContext = input.decisionContext
  intent : input'.intent = input.intent
  contract : Option.Rel CapabilityContractInput.Permuted input.capabilityContract
    input'.capabilityContract
  contributions : PermutedBy ContributionInput.Permuted input.contributions input'.contributions

theorem BlockerInput.Permuted.symm {b b' : BlockerInput} (P : b.Permuted b') : b'.Permuted b :=
  ⟨by rw [← P.rest], P.affects.symm⟩

theorem BoundedDecisionInput.Permuted.symm {d d' : BoundedDecisionInput} (P : d.Permuted d') :
    d'.Permuted d :=
  ⟨by rw [← P.rest], P.affects.symm⟩

theorem OutcomeInput.Permuted.symm {o o' : OutcomeInput} (P : o.Permuted o') : o'.Permuted o :=
  ⟨by rw [← P.rest], P.requiredClaims.symm⟩

theorem ContributionInput.Permuted.symm {i j : ContributionInput} (P : i.Permuted j) :
    j.Permuted i where
  rest := by rw [← P.rest]
  blockers := P.blockers.symm fun _ _ h => h.symm
  decisions := P.decisions.symm fun _ _ h => h.symm
  actions := P.actions.symm
  allowed := P.allowed.symm
  blocked := P.blocked.symm
  outcome := by
    have h := P.outcome
    generalize i.outcome = o, j.outcome = o' at h
    cases h with
    | none => exact .none
    | some h => exact .some h.symm

theorem DecisionInput.Permuted.symm {input input' : DecisionInput} (P : input.Permuted input') :
    input'.Permuted input where
  decisionContext := P.decisionContext.symm
  intent := P.intent.symm
  contract := by
    have h := P.contract
    generalize input.capabilityContract = k, input'.capabilityContract = k' at h
    cases h with
    | none => exact .none
    | some h => exact .some h.symm
  contributions := P.contributions.symm fun _ _ h => h.symm

section Contributions

variable {host : Host}

theorem imposes_perm {b : RestrictionBasis} {values values' : List String} {owner : String}
    (h : values.Perm values') (hb : b.Imposes values owner) : b.Imposes values' owner := by
  rcases hb with ⟨hkind, rfl⟩ | ⟨hkind, rfl⟩ | ⟨hkind, hne, hempty, hsupported⟩
  · exact Or.inl ⟨hkind, List.nil_perm.mp h⟩
  · exact Or.inr (Or.inl ⟨hkind, (List.singleton_perm.mp h).symm⟩)
  · refine Or.inr (Or.inr ⟨?_, fun v hv => hne v (h.mem_iff.mpr hv), ?_,
      fun v hv => hsupported v (h.mem_iff.mpr hv)⟩)
    · exact hkind.imp_left fun hguard => ⟨hguard.1, fun v hv => hguard.2 v (h.mem_iff.mpr hv)⟩
    · rwa [← sortDedup_eq_of_perm h]

theorem blockerOf_permuted {owner revision : String} {default : RestrictionBasis}
    {b b' : BlockerInput} (P : b.Permuted b') {n : NormalizedBlocker}
    (h : BlockerOf host owner revision default b n) : BlockerOf host owner revision default b' n := by
  obtain ⟨F, rfl⟩ := h
  obtain ⟨basis, code, message, owner', recovery, affects⟩ := b
  obtain ⟨basis', code', message', owner'', recovery', affects'⟩ := b'
  have hrest := P.rest
  simp only [BlockerInput.mk.injEq, and_true] at hrest
  obtain ⟨rfl, rfl, rfl, rfl, rfl⟩ := hrest
  have haffects : affects.Perm affects' := P.affects
  refine ⟨{ F with scopes := imposes_perm haffects F.scopes }, ?_⟩
  unfold Host.normalBlocker BlockerInput.recoveryText
  rw [sortDedup_eq_of_perm haffects]

theorem decisionOf_permuted {capabilities : Option NormalizedCapabilityContract} {intent : Value}
    {owner revision : String} {default : RestrictionBasis} {d d' : BoundedDecisionInput}
    (P : d.Permuted d') {n : NormalizedDecision}
    (h : DecisionOf host capabilities intent owner revision default d n) :
    DecisionOf host capabilities intent owner revision default d' n := by
  obtain ⟨b, hb, F, rfl⟩ := h
  obtain ⟨basis, id, question, material, humanContext, humanEligibility, responseRequest, choices,
    affects⟩ := d
  obtain ⟨basis', id', question', material', humanContext', humanEligibility', responseRequest',
    choices', affects'⟩ := d'
  have hrest := P.rest
  simp only [BoundedDecisionInput.mk.injEq, and_true] at hrest
  obtain ⟨rfl, rfl, rfl, rfl, rfl, rfl, rfl, rfl⟩ := hrest
  have haffects : affects.Perm affects' := P.affects
  refine ⟨b, hb, { F with scopes := imposes_perm haffects F.scopes }, ?_⟩
  simp only [Host.normalDecision, sortDedup_eq_of_perm haffects]

theorem RestrictionBasis.toValue_injective : Function.Injective RestrictionBasis.toValue := by
  intro a b h
  have hget : ∀ (r : RestrictionBasis) (key : String), r.toValue.get? key = _ :=
    fun r key => record_get? (by simp) key
  have hmember := fun key => (hget a key).symm.trans ((congrArg (Value.get? · key) h).trans
    (hget b key))
  have hstring : Function.Injective (Option.map Value.string) :=
    Option.map_injective fun _ _ h => Value.string.inj h
  have hbinding : a.bindingRevision = b.bindingRevision := hstring (hmember "binding_revision")
  have hdeclaration : a.declarationRevision = b.declarationRevision :=
    hstring (hmember "declaration_revision")
  have hkind : a.kind = b.kind := Value.string.inj (Option.some.inj (hmember "kind"))
  have hreference : a.reference = b.reference := hstring (hmember "reference")
  have hsource : a.sourceRevision = b.sourceRevision := hstring (hmember "source_revision")
  cases a
  cases b
  simp_all

/-- Blockers of one owner and revision are told apart by their identities. -/
theorem blockerOf_eq (hdigest : Function.Injective host.digest) {owner revision : String}
    {default : RestrictionBasis} {b b' : BlockerInput} {n n' : NormalizedBlocker}
    (h : BlockerOf host owner revision default b n) (h' : BlockerOf host owner revision default b' n')
    (hid : n.consequenceId = n'.consequenceId) : n = n' := by
  obtain ⟨-, rfl⟩ := h
  obtain ⟨-, rfl⟩ := h'
  simp only [Host.normalBlocker, String.append_right_inj, toString, hdigest.eq_iff,
    Value.object.injEq, List.cons.injEq, Prod.mk.injEq, true_and, and_true, strings_inj,
    Value.string.injEq, RestrictionBasis.toValue_injective.eq_iff,
    orNull_string_injective.eq_iff] at hid
  obtain ⟨haffects, hbasis, hcode, hmessage, hrecovery⟩ := hid
  simp only [Host.normalBlocker, haffects, hbasis, hcode, hmessage, hrecovery]

theorem Choice.toValue_injective : Function.Injective Choice.toValue := by
  rintro ⟨id, label⟩ ⟨id', label'⟩ h
  simpa [Choice.toValue] using h

theorem HumanEligibility.toValue_injective : Function.Injective HumanEligibility.toValue := by
  rintro ⟨⟩ ⟨⟩ h
  simp only [HumanEligibility.toValue, Value.object.injEq, List.cons.injEq, Prod.mk.injEq,
    true_and, and_true, Value.string.injEq] at h
  simp [h]

theorem HumanDecisionContext.toValue_injective :
    Function.Injective HumanDecisionContext.toValue := by
  rintro ⟨⟩ ⟨⟩ h
  simp only [HumanDecisionContext.toValue, Value.object.injEq, List.cons.injEq, Prod.mk.injEq,
    true_and, and_true, Value.string.injEq, mapValue_inj fun _ _ h => Value.string.inj h] at h
  simp [h]

theorem AnswerRequestInput.toValue_injective : Function.Injective AnswerRequestInput.toValue := by
  rintro ⟨⟩ ⟨⟩ h
  simp only [AnswerRequestInput.toValue, Value.object.injEq, List.cons.injEq, Prod.mk.injEq,
    true_and, and_true, Value.string.injEq] at h
  simp [h]

/-- What the identity of a bounded decision seals. -/
def decisionSeal (owner revision : String) (b : DecisionBasis) (d : BoundedDecisionInput) : Value :=
  .record [
    ("affects", some (.strings (sortDedup d.affects))),
    ("basis", some b.basis.toValue),
    ("capability_revision", some (.string b.contract.revision)),
    ("choices", some (.array ((d.choices.map normalChoice).map Choice.toValue))),
    ("current_work", some b.current.toValue),
    ("human_context", d.humanContext.map HumanDecisionContext.toValue),
    ("human_eligibility", d.humanEligibility.map HumanEligibility.toValue),
    ("id", some (.string (trim d.id))),
    ("material", d.material),
    ("owner", some (.string owner)),
    ("question", some (.string (trim d.question))),
    ("response_request", some d.responseRequest.toValue),
    ("response_schema", some b.shape.inputSchema),
    ("revision", some (.string revision))]

/-- Under one contract and for one task, what is sealed determines the decision. -/
theorem decisionSeal_inj {owner owner' revision revision' : String} {b b' : DecisionBasis}
    {d d' : BoundedDecisionInput} {capabilities : Option NormalizedCapabilityContract}
    {intent : Value} (F : DecisionFit host owner revision capabilities intent b d)
    (F' : DecisionFit host owner' revision' capabilities intent b' d')
    (h : decisionSeal owner revision b d = decisionSeal owner' revision' b' d') :
    owner = owner' ∧ revision = revision' ∧
      host.normalDecision owner revision b d = host.normalDecision owner' revision' b' d' := by
  have hget : ∀ (o r : String) (b : DecisionBasis) (d : BoundedDecisionInput) (key : String),
      (decisionSeal o r b d).get? key = _ := fun o r b d key => record_get? (by simp) key
  have hmember := fun key => (hget owner revision b d key).symm.trans
    ((congrArg (Value.get? · key) h).trans (hget owner' revision' b' d' key))
  have howner : owner = owner' := Value.string.inj (Option.some.inj (hmember "owner"))
  have hrevision : revision = revision' := Value.string.inj (Option.some.inj (hmember "revision"))
  have hcontract : b.contract = b'.contract :=
    Option.some.inj (F.contract.symm.trans F'.contract)
  have hcapability : b.capability = b'.capability :=
    Option.some.inj (F.capability.symm.trans (hcontract ▸ howner ▸ F'.capability))
  have hcurrent : b.current = b'.current :=
    Option.some.inj (Except.ok.inj (F.current.symm.trans F'.current))
  have haffects : sortDedup d.affects = sortDedup d'.affects :=
    strings_inj.mp (Option.some.inj (hmember "affects"))
  have hbasis : b.basis = b'.basis :=
    RestrictionBasis.toValue_injective (Option.some.inj (hmember "basis"))
  have hchoices : d.choices.map normalChoice = d'.choices.map normalChoice :=
    List.map_injective_iff.mpr Choice.toValue_injective
      (Value.array.inj (Option.some.inj (hmember "choices")))
  have hcontext : d.humanContext = d'.humanContext :=
    Option.map_injective HumanDecisionContext.toValue_injective (hmember "human_context")
  have heligibility : d.humanEligibility = d'.humanEligibility :=
    Option.map_injective HumanEligibility.toValue_injective (hmember "human_eligibility")
  have hid : trim d.id = trim d'.id := Value.string.inj (Option.some.inj (hmember "id"))
  have hmaterial : d.material = d'.material := hmember "material"
  have hquestion : trim d.question = trim d'.question :=
    Value.string.inj (Option.some.inj (hmember "question"))
  have hresponse : d.responseRequest = d'.responseRequest :=
    AnswerRequestInput.toValue_injective (Option.some.inj (hmember "response_request"))
  have hschema : b.shape.inputSchema = b'.shape.inputSchema :=
    Option.some.inj (hmember "response_schema")
  refine ⟨howner, hrevision, ?_⟩
  simp only [Host.normalDecision, howner, hrevision, haffects, hbasis, hcontract, hchoices,
    hcurrent, hcontext, heligibility, hid, hmaterial, hquestion, hresponse, hschema, hcapability]

theorem normalDecision_consequenceId (owner revision : String) (b : DecisionBasis)
    (d : BoundedDecisionInput) : (host.normalDecision owner revision b d).consequenceId =
      s!"decision:{owner}:{revision}:{host.digest (decisionSeal owner revision b d)}" := rfl

/-- Bounded decisions of one owner and revision are told apart by their identities. -/
theorem decisionOf_eq (hdigest : Function.Injective host.digest)
    {capabilities : Option NormalizedCapabilityContract} {intent : Value} {owner revision : String}
    {default : RestrictionBasis} {d d' : BoundedDecisionInput} {n n' : NormalizedDecision}
    (h : DecisionOf host capabilities intent owner revision default d n)
    (h' : DecisionOf host capabilities intent owner revision default d' n')
    (hid : n.consequenceId = n'.consequenceId) : n = n' := by
  obtain ⟨b, -, F, rfl⟩ := h
  obtain ⟨b', -, F', rfl⟩ := h'
  simp only [normalDecision_consequenceId, String.append_right_inj, toString, hdigest.eq_iff] at hid
  exact (decisionSeal_inj F F' hid).2.2

/-- Equal identities mean equal actions, within each contribution. -/
def DistinctActions (host : Host) (input : DecisionInput) : Prop :=
  ∀ contract ∈ input.capabilityContract, ∀ i ∈ input.contributions,
    ∀ capability, contract.normal.owners[trim i.owner]? = some capability →
    ∀ a ∈ i.actions, ∀ b ∈ i.actions, ∀ operation operation',
      capability.operations[trim a.operationId]? = some operation →
      capability.operations[trim b.operationId]? = some operation' →
      (host.normalAction (trim i.owner) capability operation a).consequenceId =
        (host.normalAction (trim i.owner) capability operation' b).consequenceId →
      host.normalAction (trim i.owner) capability operation a =
        host.normalAction (trim i.owner) capability operation' b

namespace ContributionInput.Permuted

variable {i j : ContributionInput} (P : i.Permuted j)
include P

theorem owner_eq : j.owner = i.owner := by rw [← P.rest]

theorem revision_eq : j.revision = i.revision := by rw [← P.rest]

theorem basis_eq : j.defaultBasis = i.defaultBasis := by
  unfold ContributionInput.defaultBasis
  rw [← P.rest]

theorem bearing_eq : j.authorityBearing = i.authorityBearing := by
  have hempty : ∀ {α : Type} {l l' : List α}, (l = [] ↔ l' = []) → l.isEmpty = l'.isEmpty :=
    fun h => Bool.eq_iff_iff.mpr (by rw [List.isEmpty_iff, List.isEmpty_iff, h])
  have hperm : ∀ {α : Type} {l l' : List α}, l.Perm l' → (l = [] ↔ l' = []) := fun h => by
    rw [← List.length_eq_zero_iff, ← List.length_eq_zero_iff, h.length_eq]
  have houtcome : j.outcome.isSome = i.outcome.isSome := by
    have h := P.outcome
    generalize i.outcome = o, j.outcome = o' at h
    cases h <;> rfl
  have hresponse : j.requestResponse = i.requestResponse := by rw [← P.rest]
  unfold ContributionInput.authorityBearing
  rw [hempty P.blockers.nil_iff, hempty P.decisions.nil_iff, hempty (hperm P.actions),
    hempty (hperm P.allowed), hempty (hperm P.blocked), houtcome, hresponse]

theorem outcome_eq {owner : String} {n : Option NormalizedOutcome}
    (h : transposeM (fun value => normalizeOutcome value owner) i.outcome = .ok n) :
    transposeM (fun value => normalizeOutcome value owner) j.outcome = .ok n := by
  have hrel := P.outcome
  generalize i.outcome = o, j.outcome = o' at h hrel
  cases hrel with
  | none => exact h
  | @some o o' Q =>
    rw [transposeM_eq_ok] at h ⊢
    obtain ⟨hnone, -⟩ | ⟨_, outcome, hsome, hnormal, rfl⟩ := h
    · cases hnone
    cases hsome
    refine Or.inr ⟨o', outcome, rfl, ?_, rfl⟩
    obtain ⟨required, id, status, claim, evidence, residual⟩ := o
    obtain ⟨required', id', status', claim', evidence', residual'⟩ := o'
    have hrest := Q.rest
    simp only [OutcomeInput.mk.injEq, true_and] at hrest
    obtain ⟨rfl, rfl, rfl, rfl, rfl⟩ := hrest
    have hperm : required.Perm required' := Q.requiredClaims
    simp only [normalizeOutcome, Except.bind_eq_ok_iff, uniqueStrings_eq_ok'] at hnormal ⊢
    obtain ⟨_, ⟨hnames, rfl⟩, hrest⟩ := hnormal
    exact ⟨_, ⟨nameList_perm hperm hnames, rfl⟩, sortDedup_eq_of_perm hperm ▸ hrest⟩

end ContributionInput.Permuted

/-- **A reordered contribution has the same normal form.** -/
theorem Contributes.permuted (hdigest : Function.Injective host.digest)
    {capabilities : Option NormalizedCapabilityContract} {intent : Value} {i j : ContributionInput}
    {n : NormalizedContribution} (P : i.Permuted j)
    (hdistinct : ∀ a ∈ i.actions, ∀ b ∈ i.actions, ∀ m m',
      ActionOf host capabilities intent (trim i.owner) a m →
      ActionOf host capabilities intent (trim i.owner) b m' →
      m.consequenceId = m'.consequenceId → m = m')
    (C : Contributes host capabilities intent i n) :
    Contributes host capabilities intent j n where
  named := P.owner_eq ▸ C.named
  owner := P.owner_eq ▸ C.owner
  revised := P.revision_eq ▸ C.revised
  revision := P.revision_eq ▸ C.revision
  unsettled := by
    have h := C.unsettled
    rwa [← P.rest] at h
  object := by
    have h := C.object
    rwa [← P.rest] at h
  bearing := by
    rw [P.bearing_eq, P.owner_eq]
    exact C.bearing
  actions := by
    obtain ⟨ys, hys, hsorted⟩ := C.actions
    obtain ⟨ys', hys', hperm⟩ := List.perm_comp_forall₂ P.actions.symm hys
    refine ⟨ys', P.owner_eq ▸ hys', ?_⟩
    rw [hsorted]
    refine insertionSort_key_eq_of_perm (·.consequenceId) hperm.symm fun m hm m' hm' heq => ?_
    obtain ⟨a, ha, hof⟩ := List.Forall₂.exists_left hys m hm
    obtain ⟨b, hb, hof'⟩ := List.Forall₂.exists_left hys m' hm'
    exact hdistinct a ha b hb m m' hof hof' heq
  basis := P.basis_eq ▸ C.basis
  blockers := by
    obtain ⟨ys, hys, hsorted⟩ := C.blockers
    obtain ⟨ys', hys', hperm⟩ :=
      P.blockers.images (Q := BlockerOf host (trim i.owner) (trim i.revision) i.defaultBasis)
        (fun _ _ _ Q h => blockerOf_permuted Q h) hys
    refine ⟨ys', by rwa [P.owner_eq, P.revision_eq, P.basis_eq], ?_⟩
    rw [hsorted]
    refine insertionSort_key_eq_of_perm (·.consequenceId) hperm.symm fun m hm m' hm' heq => ?_
    obtain ⟨a, -, hof⟩ := List.Forall₂.exists_left hys m hm
    obtain ⟨b, -, hof'⟩ := List.Forall₂.exists_left hys m' hm'
    exact blockerOf_eq hdigest hof hof' heq
  decisions := by
    obtain ⟨ys, hys, hsorted⟩ := C.decisions
    obtain ⟨ys', hys', hperm⟩ :=
      P.decisions.images (Q := DecisionOf host capabilities intent (trim i.owner)
        (trim i.revision) i.defaultBasis) (fun _ _ _ Q h => decisionOf_permuted Q h) hys
    refine ⟨ys', by rwa [P.owner_eq, P.revision_eq, P.basis_eq], ?_⟩
    rw [hsorted]
    refine insertionSort_key_eq_of_perm (·.consequenceId) hperm.symm fun m hm m' hm' heq => ?_
    obtain ⟨a, -, hof⟩ := List.Forall₂.exists_left hys m hm
    obtain ⟨b, -, hof'⟩ := List.Forall₂.exists_left hys m' hm'
    exact decisionOf_eq hdigest hof hof' heq
  blockedBasis := by
    intro hne
    rw [P.basis_eq]
    refine C.blockedBasis fun h => hne ?_
    have hperm := P.blocked
    rw [h] at hperm
    exact List.nil_perm.mp hperm
  blockedNames := fun v hv => C.blockedNames v (P.blocked.mem_iff.mpr hv)
  blocked := by rw [C.blocked, sortDedup_eq_of_perm P.blocked]
  allowedNames := fun v hv => C.allowedNames v (P.allowed.mem_iff.mpr hv)
  allowed := by rw [C.allowed, sortDedup_eq_of_perm P.allowed]
  authority := by
    intro contract hcontract
    obtain ⟨hclaims, hscopes⟩ := C.authority contract hcontract
    rw [P.owner_eq]
    exact ⟨fun claim hclaim => hclaims claim (P.allowed.mem_iff.mpr hclaim), hscopes⟩
  outcome := P.owner_eq ▸ P.outcome_eq C.outcome
  outcomeAuthority := P.owner_eq ▸ C.outcomeAuthority
  response := by
    have h := C.response
    rw [← P.owner_eq] at h
    rwa [← P.rest] at h
  relevant := by
    have h := C.relevant
    rwa [← P.rest] at h
  settled := by
    have h := C.settled
    rwa [← P.rest] at h
  facts := by
    have h := C.facts
    rwa [← P.rest] at h
  material := by
    have h := C.material
    rwa [← P.rest] at h

/-- The one answer to a request is found wherever it stands. -/
theorem resolvePublicRequest_perm {request : Option NormalizedPublicRequest}
    {ns ns' : List NormalizedContribution} (h : ns.Perm ns') {r : Option Value}
    (hr : resolvePublicRequest request ns = .ok r) : resolvePublicRequest request ns' = .ok r := by
  have hperm : (responses ns).Perm (responses ns') := h.filterMap _
  unfold resolvePublicRequest at hr ⊢
  generalize responses ns = rs at hr hperm
  generalize responses ns' = rs' at hperm ⊢
  cases request with
  | none =>
    cases rs with
    | nil => rwa [List.nil_perm.mp hperm]
    | cons => cases hr
  | some request =>
    match rs with
    | [] => cases hr
    | [answer] => rwa [List.singleton_perm.mp hperm |>.symm]
    | _ :: _ :: _ => cases hr

/-! ## The decision -/

variable {input input' : DecisionInput}

theorem DecisionInput.Permuted.capabilities_eq (P : input.Permuted input')
    (hfit : ∀ contract ∈ input.capabilityContract, contract.Fit host) :
    input'.capabilityContract.map (·.normal) = input.capabilityContract.map (·.normal) := by
  have h := P.contract
  generalize input.capabilityContract = k, input'.capabilityContract = k' at h hfit
  cases h with
  | none => rfl
  | some Q => rw [Option.map_some, Option.map_some, Q.normal_eq (hfit _ rfl)]

theorem DecisionInput.Permuted.fit (P : input.Permuted input')
    (hfit : ∀ contract ∈ input.capabilityContract, contract.Fit host) :
    ∀ contract ∈ input'.capabilityContract, contract.Fit host := by
  have h := P.contract
  generalize input.capabilityContract = k, input'.capabilityContract = k' at h hfit
  cases h with
  | none => exact hfit
  | some Q =>
    rintro _ ⟨⟩
    exact Q.fit (hfit _ rfl)

theorem DistinctActions.permuted (P : input.Permuted input')
    (hfit : ∀ contract ∈ input'.capabilityContract, contract.Fit host)
    (hdistinct : DistinctActions host input) : DistinctActions host input' := by
  intro contract' hcontract' j hj capability hcapability a ha b hb
  have hnormal := P.symm.capabilities_eq hfit
  rw [Option.mem_def.mp hcontract', Option.map_some, Option.map_eq_some_iff] at hnormal
  obtain ⟨contract, hcontract, heq⟩ := hnormal
  obtain ⟨i, hi, Q⟩ := P.symm.contributions.exists_right hj
  rw [← Q.owner_eq] at hcapability ⊢
  exact hdistinct contract hcontract i hi capability (heq ▸ hcapability) a
    (Q.actions.mem_iff.mp ha) b (Q.actions.mem_iff.mp hb)

/-- The actions a contribution is read as are told apart by their identities. -/
theorem DistinctActions.actionOf (hdistinct : DistinctActions host input) {intent : Value}
    {i : ContributionInput} (hi : i ∈ input.contributions) {a b : ActionInput} (ha : a ∈ i.actions)
    (hb : b ∈ i.actions) {m m' : NormalizedAction}
    (h : ActionOf host (input.capabilityContract.map (·.normal)) intent (trim i.owner) a m)
    (h' : ActionOf host (input.capabilityContract.map (·.normal)) intent (trim i.owner) b m')
    (hid : m.consequenceId = m'.consequenceId) : m = m' := by
  obtain ⟨declared, operation, hdeclared, hoperation, -, -, rfl⟩ := h
  obtain ⟨declared', operation', hdeclared', hoperation', -, -, rfl⟩ := h'
  obtain rfl : declared = declared' := Option.some.inj (hdeclared.symm.trans hdeclared')
  obtain ⟨contract, hcontract, howned⟩ := Option.bind_eq_some_iff.mp hdeclared
  obtain ⟨k, hk, rfl⟩ := Option.map_eq_some_iff.mp hcontract
  exact hdistinct k hk i hi declared howned a ha b hb operation operation' hoperation hoperation'
    hid

/-- A reordered input composes into the same parts. -/
theorem Composes.permuted (hdigest : Function.Injective host.digest) (P : input.Permuted input')
    (hdistinct : DistinctActions host input) {c : Composed} (C : Composes host input c) :
    Composes host input' c where
  supported := P.intent ▸ C.supported
  contract := P.fit C.contract
  capabilities := by rw [C.capabilities, P.capabilities_eq C.contract]
  context := P.decisionContext ▸ C.context
  sources := by
    obtain ⟨routed, request, normalized, hrouted, hrequested, hnormalized, hresolution, hrelevant⟩ :=
      C.sources
    obtain ⟨mid, hperm, hall⟩ := P.contributions
    obtain ⟨normalized', hmid, hperm'⟩ := List.perm_comp_forall₂ hperm.symm hnormalized
    refine ⟨routed, request, normalized', P.intent ▸ hrouted, hrequested, ?_,
      resolvePublicRequest_perm hperm'.symm hresolution, ?_⟩
    · have hmem : ∀ i ∈ mid, i ∈ input.contributions := fun i hi => hperm.mem_iff.mpr hi
      clear hperm hperm' hresolution hrelevant hnormalized
      generalize input'.contributions = contributions' at hall
      induction hall generalizing normalized' with
      | nil => exact hmid
      | cons Q _ ih =>
        rw [List.forall₂_cons_left_iff] at hmid
        obtain ⟨n, ns, hn, hns, rfl⟩ := hmid
        rw [List.forall_mem_cons] at hmem
        refine .cons (Contributes.permuted hdigest Q ?_ hn) (ih ns hns hmem.2)
        intro a ha b hb m m' hof hof' hid
        rw [C.capabilities] at hof hof'
        exact hdistinct.actionOf hmem.1 ha hb hof hof' hid
    · rw [hrelevant]
      refine insertionSort_key_eq_of_perm (·.owner) (hperm'.symm.filter _) fun m hm n hn heq => ?_
      refine C.owner_unique ?_ ?_ heq
      · rw [hrelevant, List.mem_insertionSort]
        exact hm
      · rw [hrelevant, List.mem_insertionSort]
        exact hn
  intended := C.intended
  authorised := C.authorised
  single := C.single

/-- **The order in which an input lists its parts changes neither its acceptance nor its
decision.** -/
theorem order_independent (hdigest : Function.Injective host.digest) (P : input.Permuted input')
    (hdistinct : DistinctActions host input) (decision : Value) :
    host.compile input' = .ok decision ↔ host.compile input = .ok decision := by
  rw [compile_eq_ok, compile_eq_ok]
  constructor
  · rintro ⟨c, answer, C, hanswer⟩
    refine ⟨c, answer, C.permuted hdigest P.symm ?_, hanswer⟩
    exact hdistinct.permuted P C.contract
  · rintro ⟨c, answer, C, hanswer⟩
    exact ⟨c, answer, C.permuted hdigest P hdistinct, hanswer⟩

end Contributions

def reorderedInput : DecisionInput where
  contributions := [sampleContribution "b", sampleContribution "a"]
  decisionContext := none
  intent := .object []
  capabilityContract := some { sampleContract with owners := [sampleOwner "a", sampleOwner "b"] }

theorem OperationCapabilityInput.Permuted.refl (op : OperationCapabilityInput) : op.Permuted op where
  rest := rfl
  effects := .refl _
  claims := .refl _
  reads := by
    cases op.reads with
    | none => exact .none
    | some => exact .some (.refl _)

theorem sampleOwner_permuted (name : String) :
    (sampleOwner name).Permuted (sampleOwner name) where
  owner := rfl
  revision := rfl
  domains := .refl _
  effects := .refl _
  operations := ⟨_, .refl _, .cons (.refl _) .nil⟩
  requests := .refl _

theorem sampleContribution_permuted (name : String) :
    (sampleContribution name).Permuted (sampleContribution name) where
  rest := rfl
  blockers := ⟨_, .refl _, .nil⟩
  decisions := ⟨_, .refl _, .nil⟩
  actions := .refl _
  allowed := .refl _
  blocked := .refl _
  outcome := .none

theorem reorderedInput_permuted : sampleInput.Permuted reorderedInput where
  decisionContext := rfl
  intent := rfl
  contract := .some {
    kind := rfl
    revision := rfl
    owners := ⟨_, .swap _ _ _,
      .cons (sampleOwner_permuted "a") (.cons (sampleOwner_permuted "b") .nil)⟩
    claims := .refl _
    restrictions := ⟨_, .refl _, .nil⟩ }
  contributions := ⟨_, .swap _ _ _,
    .cons (sampleContribution_permuted "b") (.cons (sampleContribution_permuted "a") .nil)⟩

theorem sampleInput_distinct : DistinctActions textHost sampleInput := by
  intro contract _ i hi capability _ a ha b hb operation operation' hoperation hoperation' _
  have hsingle : ∃ x, i.actions = [x] := by
    simp only [sampleInput, List.mem_cons, List.not_mem_nil, or_false] at hi
    rcases hi with rfl | rfl
    · exact ⟨_, rfl⟩
    · exact ⟨_, rfl⟩
  obtain ⟨x, hx⟩ := hsingle
  rw [hx, List.mem_singleton] at ha hb
  subst ha hb
  rw [hoperation, Option.some.injEq] at hoperation'
  rw [hoperation']

theorem order_independent_pair : ∃ decision, textHost.compile sampleInput = .ok decision ∧
    textHost.compile reorderedInput = .ok decision := by
  obtain ⟨decision, hdecision⟩ := Except.isOk_iff.mp textHost_accepts.2.1
  exact ⟨decision, hdecision, (order_independent text_injective reorderedInput_permuted
    sampleInput_distinct decision).mpr hdecision⟩

end AgenticCore
