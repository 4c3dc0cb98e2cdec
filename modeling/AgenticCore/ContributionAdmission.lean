import AgenticCore.Contribution
import AgenticCore.CapabilityAdmission

/-!
# What an accepted contribution contains

Each normalisation in closed form: when it succeeds, and what it then returns. The position of an
element in its list only labels errors.

* `normalizeBlocker_eq_ok`, `normalizeDecision_eq_ok`, `readAction_eq_ok` : one element.
* `normalizeContribution_eq_ok`                                           : the contribution.
-/

set_option autoImplicit false

namespace AgenticCore

open Json Text Registry

variable {host : Host}

/-- Positions that only label errors do not matter to a list of results. -/
theorem mapM_zipIdx_eq_ok {ε α β : Type} {f : α × Nat → Except ε β}
    (hf : ∀ a i j b, f (a, i) = .ok b → f (a, j) = .ok b) :
    ∀ {l : List α} {k : Nat} {r : List β}, (l.zipIdx k).mapM f = .ok r ↔
      List.Forall₂ (fun a b => f (a, 0) = .ok b) l r := by
  intro l
  induction l with
  | nil =>
    intro k r
    rw [mapM_eq_ok, List.zipIdx_nil, List.forall₂_nil_left_iff, List.forall₂_nil_left_iff]
  | cons a l ih =>
    intro k r
    have ih' := fun {r : List β} => @ih (k + 1) r
    simp only [mapM_eq_ok] at ih' ⊢
    rw [List.zipIdx_cons, List.forall₂_cons_left_iff, List.forall₂_cons_left_iff]
    simp only [ih']
    constructor
    · rintro ⟨b, bs, hb, hbs, rfl⟩
      exact ⟨b, bs, hf a k 0 b hb, hbs, rfl⟩
    · rintro ⟨b, bs, hb, hbs, rfl⟩
      exact ⟨b, bs, hf a 0 k b hb, hbs, rfl⟩

/-! ## Restrictions -/

/-- A basis may impose the scopes. -/
def RestrictionBasis.Imposes (b : RestrictionBasis) (values : List String) (owner : String) : Prop :=
  b.kind = "optional-work" ∧ values = [] ∨
    b.kind = "attestation-limit" ∧ values = [s!"attestation:{owner}"] ∨
    (b.kind = "operation-guard" ∧
        (∀ v ∈ values, startsWith "effect:" v = true ∨ startsWith "action:" v = true) ∨
      b.kind ∈ ["task-requirement", "unclassified"]) ∧
      (∀ v ∈ values, v ≠ "") ∧ sortDedup values ≠ [] ∧
        ∀ v ∈ values, supportedConsequence v = true

theorem scopes_eq_ok {b : RestrictionBasis} {values result : List String} {owner field : String} :
    b.scopes values owner field = .ok result ↔
      b.Imposes values owner ∧ result = sortDedup values := by
  have haffects : affects values field = .ok result ↔
      ((∀ v ∈ values, v ≠ "") ∧ sortDedup values ≠ [] ∧
        ∀ v ∈ values, supportedConsequence v = true) ∧ result = sortDedup values := by
    simp only [affects_eq_ok, mem_sortDedup, and_assoc]
  unfold RestrictionBasis.scopes RestrictionBasis.Imposes
  split
  · rename_i h
    obtain ⟨hkind, rfl⟩ := h
    rw [Except.ok.injEq]
    exact ⟨fun hr => ⟨Or.inl ⟨hkind, rfl⟩, hr.symm⟩, fun hr => hr.2.symm⟩
  rename_i hoptional
  split
  · rename_i h
    obtain ⟨hkind, rfl⟩ := h
    rw [Except.ok.injEq]
    exact ⟨fun hr => ⟨Or.inr (Or.inl ⟨hkind, rfl⟩), hr.symm⟩, fun hr => hr.2.symm⟩
  rename_i hattestation
  have hrest : ∀ {P : Prop}, P → (affects values field = .ok result ↔
      ((b.kind = "optional-work" ∧ values = [] ∨
        b.kind = "attestation-limit" ∧ values = [s!"attestation:{owner}"] ∨
        P ∧ (∀ v ∈ values, v ≠ "") ∧ sortDedup values ≠ [] ∧
          ∀ v ∈ values, supportedConsequence v = true) ∧ result = sortDedup values)) := by
    intro P hP
    rw [haffects]
    constructor
    · rintro ⟨hfit, rfl⟩
      exact ⟨Or.inr (Or.inr ⟨hP, hfit⟩), rfl⟩
    · rintro ⟨hoptional' | hattestation' | ⟨-, hfit⟩, rfl⟩
      · exact absurd hoptional' hoptional
      · exact absurd hattestation' hattestation
      · exact ⟨hfit, rfl⟩
  split
  · rename_i h
    exact hrest (Or.inl h)
  rename_i hguard
  split
  · rename_i h
    exact hrest (Or.inr h)
  · rename_i hkind
    rw [fail_eq_ok]
    constructor
    · exact False.elim
    · rintro ⟨hoptional' | hattestation' | ⟨hguard' | hkind', -⟩, -⟩
      · exact hoptional hoptional'
      · exact hattestation hattestation'
      · exact hguard hguard'
      · exact hkind hkind'

def BlockerInput.recoveryText (input : BlockerInput) : Option String :=
  input.recovery.filter (trim · ≠ "")

/-- A blocker under its basis. -/
structure BlockerFit (host : Host) (owner : String) (basis : RestrictionBasis)
    (input : BlockerInput) : Prop where
  valid : host.validateBasis basis = .ok ()
  code : trim input.code ≠ ""
  message : trim input.message ≠ ""
  owned : (input.owner.filter (· ≠ "")).getD owner = owner
  scopes : basis.Imposes input.affects owner

def Host.normalBlocker (host : Host) (owner revision : String) (basis : RestrictionBasis)
    (input : BlockerInput) : NormalizedBlocker where
  basis := basis
  resolution :=
    if input.recoveryText.isSome then "owner-recovery-required" else "owner-resolution-unavailable"
  consequenceId :=
    let identity := host.digest (.object [
      ("affects", .strings (sortDedup input.affects)),
      ("basis", basis.toValue),
      ("code", .string (trim input.code)),
      ("message", .string (trim input.message)),
      ("owner", .string owner),
      ("recovery", .orNull (input.recoveryText.map .string)),
      ("revision", .string revision)])
    s!"blocker:{owner}:{revision}:{identity}"
  code := trim input.code
  message := trim input.message
  owner := owner
  revision := revision
  affects := sortDedup input.affects
  recovery := input.recoveryText

theorem normalizeBlocker_eq_ok {input : BlockerInput} {owner revision : String} {index : Nat}
    {default : RestrictionBasis} {n : NormalizedBlocker} :
    host.normalizeBlocker { input with basis := some (input.basis.getD default) } owner revision
        index = .ok n ↔
      BlockerFit host owner (input.basis.getD default) input ∧
        n = host.normalBlocker owner revision (input.basis.getD default) input := by
  simp only [Host.normalizeBlocker, Except.bind_eq_ok_iff, requireText_eq_ok, check_eq_ok,
    scopes_eq_ok, Except.pure_eq_ok_iff, Option.getD_some]
  constructor
  · rintro ⟨_, hbasis, _, ⟨hcode, rfl⟩, _, ⟨hmessage, rfl⟩, _, howner, _, ⟨hscopes, rfl⟩, rfl⟩
    refine ⟨⟨hbasis, hcode, hmessage, howner, hscopes⟩, ?_⟩
    rw [howner]
    rfl
  · rintro ⟨F, rfl⟩
    refine ⟨(), F.valid, _, ⟨F.code, rfl⟩, _, ⟨F.message, rfl⟩, (), F.owned, _, ⟨F.scopes, rfl⟩, ?_⟩
    rw [F.owned]
    rfl

/-! ## Bounded decisions -/

def normalChoice (choice : Choice) : Choice := ⟨trim choice.id, trim choice.label⟩

theorem normalizeChoices_eq_ok {label : String} {choices result : List Choice} {k : Nat} :
    (choices.zipIdx k).mapM (normalizeChoice label) = .ok result ↔
      (∀ c ∈ choices, trim c.id ≠ "" ∧ trim c.label ≠ "") ∧ result = choices.map normalChoice := by
  have hone : ∀ (c : Choice) (i : Nat) (c' : Choice), normalizeChoice label (c, i) = .ok c' ↔
      (trim c.id ≠ "" ∧ trim c.label ≠ "") ∧ c' = normalChoice c := by
    intro c i c'
    simp only [normalizeChoice, Except.bind_eq_ok_iff, requireText_eq_ok, Except.pure_eq_ok_iff,
      normalChoice]
    constructor
    · rintro ⟨_, ⟨hid, rfl⟩, _, ⟨hlabel, rfl⟩, rfl⟩
      exact ⟨⟨hid, hlabel⟩, rfl⟩
    · rintro ⟨⟨hid, hlabel⟩, rfl⟩
      exact ⟨_, ⟨hid, rfl⟩, _, ⟨hlabel, rfl⟩, rfl⟩
  rw [mapM_zipIdx_eq_ok fun c i j c' h => (hone c j c').mpr ((hone c i c').mp h)]
  simp only [hone]
  induction choices generalizing result with
  | nil => simp [List.forall₂_nil_left_iff]
  | cons c choices ih =>
    rw [List.forall₂_cons_left_iff]
    simp only [@ih, List.forall_mem_cons, List.map_cons]
    constructor
    · rintro ⟨_, _, ⟨hc, rfl⟩, ⟨hcs, rfl⟩, rfl⟩
      exact ⟨⟨hc, hcs⟩, rfl⟩
    · rintro ⟨⟨hc, hcs⟩, rfl⟩
      exact ⟨_, _, ⟨hc, rfl⟩, ⟨hcs, rfl⟩, rfl⟩

theorem checkHumanContext_eq_ok {label label' : String} {choices : List Choice}
    {c : HumanDecisionContext} {u : Unit} :
    checkHumanContext label choices c = .ok u ↔ checkHumanContext label' choices c = .ok u := by
  simp only [checkHumanContext, Except.bind_eq_ok_iff, check_eq_ok, forM_eq_ok,
    requireText_eq_ok, Except.pure_eq_ok_iff]

/-- What a bounded decision is made from: its declared request and the current work. -/
structure DecisionBasis where
  basis : RestrictionBasis
  contract : NormalizedCapabilityContract
  capability : NormalizedCapabilityOwner
  shape : NormalizedRequestShape
  current : CurrentWorkIdentity

structure DecisionFit (host : Host) (owner revision : String)
    (capabilities : Option NormalizedCapabilityContract) (intent : Value) (b : DecisionBasis)
    (input : BoundedDecisionInput) : Prop where
  basis : host.validateBasis b.basis = .ok ()
  id : trim input.id ≠ ""
  question : trim input.question ≠ ""
  contract : capabilities = some b.contract
  capability : b.contract.owners[owner]? = some b.capability
  shape : b.capability.requests[input.responseRequest.requestKind]? = some b.shape
  current : currentWork intent = .ok (some b.current)
  arguments : input.responseRequest.arguments.isObject = true
  unanswered : input.responseRequest.arguments.get? "answer" = none
  offered : ∀ c ∈ input.choices,
    host.checkChoice input.responseRequest.arguments b.shape.inputSchema c = .ok ()
  choices : ∀ c ∈ input.choices, trim c.id ≠ "" ∧ trim c.label ≠ ""
  scopes : b.basis.Imposes input.affects owner
  human : input.humanContext.isSome = input.humanEligibility.isSome
  eligible : ∀ e ∈ input.humanEligibility,
    host.validateEligibility e owner revision b.current.toValue = .ok ()
  context : ∀ c ∈ input.humanContext,
    checkHumanContext "" (input.choices.map normalChoice) c = .ok ()

def Host.normalDecision (host : Host) (owner revision : String) (b : DecisionBasis)
    (input : BoundedDecisionInput) : NormalizedDecision :=
  let identity := host.digest (.record [
    ("affects", some (.strings (sortDedup input.affects))),
    ("basis", some b.basis.toValue),
    ("capability_revision", some (.string b.contract.revision)),
    ("choices", some (.array ((input.choices.map normalChoice).map Choice.toValue))),
    ("current_work", some b.current.toValue),
    ("human_context", input.humanContext.map HumanDecisionContext.toValue),
    ("human_eligibility", input.humanEligibility.map HumanEligibility.toValue),
    ("id", some (.string (trim input.id))),
    ("material", input.material),
    ("owner", some (.string owner)),
    ("question", some (.string (trim input.question))),
    ("response_request", some input.responseRequest.toValue),
    ("response_schema", some b.shape.inputSchema),
    ("revision", some (.string revision))])
  let consequenceId := s!"decision:{owner}:{revision}:{identity}"
  { basis := b.basis
    consequenceId, owner, revision
    id := trim input.id
    question := trim input.question
    choices := input.choices.map normalChoice
    resolution :=
      if input.humanContext.isSome then "bounded-human-answer" else "bounded-domain-answer"
    humanContext := input.humanContext
    humanEligibility := input.humanEligibility
    material := input.material
    responseRequest := .object [
      ("arguments", input.responseRequest.arguments),
      ("capability_revision", .string b.contract.revision),
      ("id", .string s!"answer:{consequenceId}"),
      ("kind", .string PUBLIC_REQUEST_KIND),
      ("owner", .string owner),
      ("owner_revision", .string b.capability.revision),
      ("request_kind", .string input.responseRequest.requestKind),
      ("source_revision", .string revision),
      ("task_identity", b.current.toValue)]
    responseSchema := b.shape.inputSchema
    affects := sortDedup input.affects }

theorem normalizeDecision_eq_ok {input : BoundedDecisionInput} {owner revision : String}
    {index : Nat} {default : RestrictionBasis} {capabilities : Option NormalizedCapabilityContract}
    {intent : Value} {n : NormalizedDecision} :
    host.normalizeDecision { input with basis := some (input.basis.getD default) } owner revision
        index capabilities intent = .ok n ↔
      ∃ b : DecisionBasis, b.basis = input.basis.getD default ∧
        DecisionFit host owner revision capabilities intent b input ∧
        n = host.normalDecision owner revision b input := by
  simp only [Host.normalizeDecision, Except.bind_eq_ok_iff, requireText_eq_ok, check_eq_ok,
    okOr_eq_ok, scopes_eq_ok, forM_eq_ok, normalizeChoices_eq_ok, forSome_eq_ok,
    Except.pure_eq_ok_iff, Option.getD_some]
  constructor
  · rintro ⟨_, hbasis, _, ⟨hid, rfl⟩, _, ⟨hquestion, rfl⟩, contract, hcontract, capability,
      hcapability, shape, hshape, work, hwork, current, rfl, _, harguments, _, hunanswered, _,
      hoffered, _, ⟨hchoices, rfl⟩, _, ⟨hscopes, rfl⟩, _, hhuman, _, heligible, _, hcontext, rfl⟩
    exact ⟨⟨input.basis.getD default, contract, capability, shape, current⟩, rfl,
      ⟨hbasis, hid, hquestion, hcontract, hcapability, hshape, hwork, harguments, hunanswered,
        hoffered, hchoices, hscopes, hhuman, heligible,
        fun c hc => checkHumanContext_eq_ok.mp (hcontext c hc)⟩, rfl⟩
  · rintro ⟨b, hb, F, rfl⟩
    refine ⟨(), hb ▸ F.basis, _, ⟨F.id, rfl⟩, _, ⟨F.question, rfl⟩, _, F.contract, _, F.capability,
      _, F.shape, _, F.current, _, rfl, (), F.arguments, (), F.unanswered, (), F.offered, _,
      ⟨F.choices, rfl⟩, _, ⟨hb ▸ F.scopes, rfl⟩, (), F.human, (), F.eligible, (),
      fun c hc => checkHumanContext_eq_ok.mp (F.context c hc), ?_⟩
    rw [← hb]
    rfl

/-! ## Actions -/

def ActionInput.authorityOf (input : ActionInput) (owner : String) : String :=
  (input.authority.filter (· ≠ "")).getD owner

/-- An action as its owner may ask for it. -/
structure ActionFit (host : Host)
    (capabilities : Option NormalizedCapabilityContract) (intent : Value) (input : ActionInput) :
    Prop where
  bounded : input.sourceRequests.length ≤ 16
  current : ∃ keys, input.sourceRequests.foldlM (host.checkSourceRequest capabilities intent) [] =
    .ok keys
  unranked : "priority" ∉ input.extra
  operationId : trim input.operationId ≠ ""
  arguments : input.arguments.isObject = true
  effects : ∀ e ∈ input.effects, e ≠ ""
  dependency : trim input.dependencyRevision ≠ ""

/-- The revision of a declared operation. -/
def Host.declaredRevision (host : Host) (owner id : String) (capability : NormalizedCapabilityOwner)
    (operation : NormalizedOperationCapability) : String :=
  host.digest (.object [("custody", custody (some capability) operation.effects),
    ("id", .string id), ("operation", operation.toValue), ("owner", .string owner)])

def Host.normalAction (host : Host) (owner : String) (capability : NormalizedCapabilityOwner)
    (operation : NormalizedOperationCapability) (input : ActionInput) : NormalizedAction :=
  let operationId := trim input.operationId
  let logicalEffectId :=
    host.logicalEffectId owner operationId (input.authorityOf owner) input
  let dependencyRevision := host.dependencyRevision
    (host.sourceDependency (trim input.dependencyRevision) input.sourceRequests) operationId
    input.effects (some capability)
  let consequence := host.digest (.object [("dependency_revision", .string dependencyRevision),
    ("logical_effect_id", .string logicalEffectId)])
  { dependencyRevision, logicalEffectId, operationId
    operationRevision := host.declaredRevision owner operationId capability operation
    effects := input.effects
    authority := input.authorityOf owner
    sourceRequests := input.sourceRequests
    consequenceId := s!"action:{owner}:{consequence}"
    arguments := input.arguments }

theorem readAction_eq_ok {input : ActionInput} {owner : String} {index : Nat}
    {capabilities : Option NormalizedCapabilityContract}
    {capability : Option NormalizedCapabilityOwner} {intent : Value} {n : NormalizedAction} :
    host.readAction owner capabilities capability intent (input, index) = .ok n ↔
      ∃ declared operation, capability = some declared ∧
        declared.operations[trim input.operationId]? = some operation ∧
        ActionFit host capabilities intent input ∧
        n = host.normalAction owner declared operation input := by
  simp only [Host.readAction, Host.normalizeAction, Host.operationRevision, Except.bind_eq_ok_iff,
    requireText_eq_ok, check_eq_ok, okOr_eq_ok, strings_eq_ok, Except.pure_eq_ok_iff,
    Bool.false_eq_true, if_false]
  constructor
  · rintro ⟨_, hbounded, keys, hkeys, _, hunranked, _, ⟨hid, rfl⟩, _, harguments, _,
      ⟨heffects, rfl⟩, _, ⟨hdependency, rfl⟩, declared, rfl, _, ⟨operation, hoperation, rfl⟩, rfl⟩
    exact ⟨declared, operation, rfl, hoperation,
      ⟨hbounded, ⟨keys, hkeys⟩, hunranked, hid, harguments, heffects, hdependency⟩, rfl⟩
  · rintro ⟨declared, operation, rfl, hoperation, F, rfl⟩
    obtain ⟨keys, hkeys⟩ := F.current
    exact ⟨(), F.bounded, keys, hkeys, (), F.unranked, _, ⟨F.operationId, rfl⟩, (), F.arguments, _,
      ⟨F.effects, rfl⟩, _, ⟨F.dependency, rfl⟩, declared, rfl, _, ⟨operation, hoperation, rfl⟩, rfl⟩

/-- An action within the declaration of its operation. -/
structure Declares (host : Host) (owner : String) (capability : NormalizedCapabilityOwner)
    (operation : NormalizedOperationCapability) (action : NormalizedAction) : Prop where
  declared : capability.operations[action.operationId]? = some operation
  authority : action.authority = owner
  object : action.arguments.isObject = true
  schema : host.SchemaFit operation.inputSchema
  accepts : host.accepts operation.inputSchema action.arguments = true
  effects : ∀ e ∈ action.effects, e ∈ operation.effects

theorem checkAction_eq_ok {owner : String} {capability : NormalizedCapabilityOwner}
    {action : NormalizedAction} {u : Unit} :
    host.checkAction owner capability action = .ok u ↔
      ∃ operation, Declares host owner capability operation action := by
  simp only [Host.checkAction, Except.bind_eq_ok_iff, okOr_eq_ok, check_eq_ok, refuse_eq_ok,
    validateOperationArguments_eq_ok, List.find?_eq_none, decide_eq_true_eq, not_not]
  constructor
  · rintro ⟨operation, hoperation, _, hauthority, _, ⟨hobject, hschema, haccepts⟩, heffects⟩
    exact ⟨operation, hoperation, hauthority, hobject, hschema, haccepts, heffects⟩
  · rintro ⟨operation, D⟩
    exact ⟨operation, D.declared, (), D.authority, (), ⟨D.object, D.schema, D.accepts⟩, D.effects⟩

/-! ## Contributions -/

def ContributionInput.defaultBasis (input : ContributionInput) : RestrictionBasis :=
  input.restrictionBasis.getD .legacy

/-- `n` is what the input's owner asks for when it asks for the action. -/
def ActionOf (host : Host) (capabilities : Option NormalizedCapabilityContract) (intent : Value)
    (owner : String) (input : ActionInput) (n : NormalizedAction) : Prop :=
  ∃ declared operation, capabilities.bind (·.owners[owner]?) = some declared ∧
    declared.operations[trim input.operationId]? = some operation ∧
    ActionFit host capabilities intent input ∧ Declares host owner declared operation n ∧
    n = host.normalAction owner declared operation input

def DecisionOf (host : Host) (capabilities : Option NormalizedCapabilityContract) (intent : Value)
    (owner revision : String) (default : RestrictionBasis) (input : BoundedDecisionInput)
    (n : NormalizedDecision) : Prop :=
  ∃ b : DecisionBasis, b.basis = input.basis.getD default ∧
    DecisionFit host owner revision capabilities intent b input ∧
    n = host.normalDecision owner revision b input

def BlockerOf (host : Host) (owner revision : String) (default : RestrictionBasis)
    (input : BlockerInput) (n : NormalizedBlocker) : Prop :=
  BlockerFit host owner (input.basis.getD default) input ∧
    n = host.normalBlocker owner revision (input.basis.getD default) input

/-- Everything an accepted contribution satisfies, with its normal form. -/
structure Contributes (host : Host) (capabilities : Option NormalizedCapabilityContract)
    (intent : Value) (input : ContributionInput) (n : NormalizedContribution) : Prop where
  named : trim input.owner ≠ ""
  owner : n.owner = trim input.owner
  revised : trim input.revision ≠ ""
  revision : n.revision = trim input.revision
  unsettled : "terminal" ∉ input.extra
  object : input.facts.isObject = true
  bearing : input.authorityBearing = true →
    (capabilities.bind (·.owners[trim input.owner]?)).isSome = true
  actions : ∃ ys, List.Forall₂ (ActionOf host capabilities intent (trim input.owner))
      input.actions ys ∧
    n.actions = ys.insertionSort fun a b => a.consequenceId ≤ b.consequenceId
  basis : host.validateBasis input.defaultBasis = .ok ()
  blockers : ∃ ys, List.Forall₂
      (BlockerOf host (trim input.owner) (trim input.revision) input.defaultBasis)
      input.blockers ys ∧
    n.blockers = ys.insertionSort fun a b => a.consequenceId ≤ b.consequenceId
  decisions : ∃ ys, List.Forall₂
      (DecisionOf host capabilities intent (trim input.owner) (trim input.revision)
        input.defaultBasis) input.decisions ys ∧
    n.decisions = ys.insertionSort fun a b => a.consequenceId ≤ b.consequenceId
  blockedBasis : input.claims.blocked ≠ [] →
    input.defaultBasis.kind ∈ ["task-requirement", "unclassified"]
  blockedNames : ∀ v ∈ input.claims.blocked, v ≠ ""
  blocked : n.blocked = sortDedup input.claims.blocked
  allowedNames : ∀ v ∈ input.claims.allowed, v ≠ ""
  allowed : n.allowed = (sortDedup input.claims.allowed).filter (· ∉ n.blocked)
  authority : ∀ contract ∈ capabilities,
    (∀ claim ∈ input.claims.allowed, contract.claimAuthorities[claim]? = some (trim input.owner)) ∧
      ∀ scope ∈ restrictedScopes n.blockers n.decisions n.blocked,
        checkRestriction (trim input.owner) contract scope = .ok ()
  outcome : transposeM (fun value => normalizeOutcome value (trim input.owner)) input.outcome =
    .ok n.outcome
  outcomeAuthority : ∀ contract ∈ capabilities, ∀ outcome ∈ n.outcome,
    checkOutcome (trim input.owner) contract outcome = .ok ()
  response : transposeM (fun response => normalizeRequestResponse response (trim input.owner))
    input.requestResponse = .ok n.requestResponse
  relevant : n.relevant = input.relevant
  settled : n.settled = input.settled
  facts : n.facts = input.facts
  material : n.material = input.material

theorem readActions_eq_ok {owner : String} {capabilities : Option NormalizedCapabilityContract}
    {intent : Value} {inputs : List ActionInput} {ys : List NormalizedAction}
    (hbearing : inputs ≠ [] → (capabilities.bind (·.owners[owner]?)).isSome = true) :
    inputs.zipIdx.mapM (host.readAction owner capabilities (capabilities.bind (·.owners[owner]?))
        intent) = .ok ys ∧
      (∀ c ∈ capabilities.bind (·.owners[owner]?),
        (ys.insertionSort fun a b => a.consequenceId ≤ b.consequenceId).forM
          (host.checkAction owner c) = .ok ()) ↔
      List.Forall₂ (ActionOf host capabilities intent owner) inputs ys := by
  rw [mapM_zipIdx_eq_ok fun a i j b h => readAction_eq_ok.mpr (readAction_eq_ok.mp h)]
  simp only [readAction_eq_ok, forM_eq_ok, List.mem_insertionSort, checkAction_eq_ok]
  constructor
  · rintro ⟨hread, hchecked⟩
    cases hcapability : capabilities.bind (·.owners[owner]?) with
    | none =>
      have hnil : inputs = [] := by
        by_contra hne
        simpa [hcapability] using hbearing hne
      subst hnil
      rw [List.forall₂_nil_left_iff] at hread
      rw [hread]
      exact .nil
    | some declared =>
      have hchecked' := hchecked declared (by rw [hcapability]; rfl)
      clear hchecked hbearing
      induction hread with
      | nil => exact .nil
      | cons h _ ih =>
        rw [List.forall_mem_cons] at hchecked'
        refine .cons ?_ (ih hchecked'.2)
        obtain ⟨d, operation, hd, hoperation, F, rfl⟩ := h
        rw [hcapability, Option.some.injEq] at hd
        subst hd
        obtain ⟨operation', D⟩ := hchecked'.1
        obtain rfl : operation' = operation :=
          Option.some.inj (D.declared.symm.trans hoperation)
        exact ⟨_, operation', hcapability, hoperation, F, D, rfl⟩
  · intro h
    refine ⟨h.imp fun a b => ?_, ?_⟩
    · rintro ⟨declared, operation, hd, hoperation, F, -, rfl⟩
      exact ⟨declared, operation, hd, hoperation, F, rfl⟩
    · intro c hc
      clear hbearing
      induction h with
      | nil => simp
      | cons h _ ih =>
        refine List.forall_mem_cons.mpr ⟨?_, ih⟩
        obtain ⟨declared, operation, hd, -, -, D, -⟩ := h
        rw [Option.mem_def, hd, Option.some.injEq] at hc
        exact ⟨operation, hc ▸ D⟩

theorem ContributionInput.bearing_actions {input : ContributionInput} (h : input.actions ≠ []) :
    input.authorityBearing = true := by
  cases hactions : input.actions with
  | nil => exact absurd hactions h
  | cons a rest => simp [ContributionInput.authorityBearing, hactions]

theorem readBlockers_eq_ok {owner revision : String} {default : RestrictionBasis}
    {inputs : List BlockerInput} {ys : List NormalizedBlocker} :
    inputs.zipIdx.mapM (fun (blocker, index) =>
        host.normalizeBlocker { blocker with basis := some (blocker.basis.getD default) }
          owner revision index) = .ok ys ↔
      List.Forall₂ (BlockerOf host owner revision default) inputs ys := by
  rw [mapM_zipIdx_eq_ok fun a i j b h => normalizeBlocker_eq_ok.mpr (normalizeBlocker_eq_ok.mp h)]
  simp only [normalizeBlocker_eq_ok]
  rfl

theorem readDecisions_eq_ok {owner revision : String} {default : RestrictionBasis}
    {capabilities : Option NormalizedCapabilityContract} {intent : Value}
    {inputs : List BoundedDecisionInput} {ys : List NormalizedDecision} :
    inputs.zipIdx.mapM (fun (decision, index) =>
        host.normalizeDecision { decision with basis := some (decision.basis.getD default) }
          owner revision index capabilities intent) = .ok ys ↔
      List.Forall₂ (DecisionOf host capabilities intent owner revision default) inputs ys := by
  rw [mapM_zipIdx_eq_ok fun a i j b h => normalizeDecision_eq_ok.mpr (normalizeDecision_eq_ok.mp h)]
  simp only [normalizeDecision_eq_ok]
  rfl

/-- **A contribution is accepted exactly when all it contains is in order.** -/
theorem normalizeContribution_eq_ok {capabilities : Option NormalizedCapabilityContract}
    {intent : Value} {input : ContributionInput} {n : NormalizedContribution} :
    host.normalizeContribution capabilities intent input = .ok n ↔
      Contributes host capabilities intent input n := by
  simp only [Host.normalizeContribution, Except.bind_eq_ok_iff, requireText_eq_ok, check_eq_ok,
    forSome_eq_ok, strings_eq_ok, if_true, Except.pure_eq_ok_iff, readBlockers_eq_ok,
    readDecisions_eq_ok]
  constructor
  · rintro ⟨_, ⟨hnamed, rfl⟩, _, ⟨hrevised, rfl⟩, _, hunsettled, _, hobject, _, hbearing, actions,
      hactions, _, hchecked, _, hbasis, blockers, hblockers, decisions, hdecisions, _,
      hblockedBasis, _, ⟨hblocked, rfl⟩, _, ⟨hallowed, rfl⟩, _, hauthority, outcome, houtcome, _,
      houtcomeAuthority, response, hresponse, rfl⟩
    have hall := (readActions_eq_ok fun hne => hbearing (ContributionInput.bearing_actions hne)).mp
      ⟨hactions, hchecked⟩
    refine {
      named := hnamed, owner := rfl, revised := hrevised, revision := rfl
      unsettled := hunsettled, object := hobject, bearing := hbearing
      actions := ⟨actions, hall, rfl⟩, basis := hbasis
      blockers := ⟨blockers, hblockers, rfl⟩, decisions := ⟨decisions, hdecisions, rfl⟩
      blockedBasis := hblockedBasis, blockedNames := hblocked, blocked := rfl
      allowedNames := hallowed, allowed := rfl, authority := ?_
      outcome := houtcome, outcomeAuthority := houtcomeAuthority, response := hresponse
      relevant := rfl, settled := rfl, facts := rfl, material := rfl }
    intro contract hcontract
    obtain ⟨_, hclaims, hscopes⟩ := hauthority contract hcontract
    refine ⟨fun claim hclaim => ?_, forM_eq_ok.mp hscopes⟩
    exact check_eq_ok.mp (forM_eq_ok.mp hclaims claim (mem_sortDedup.mpr hclaim))
  · intro C
    obtain ⟨actions, hall, hactions⟩ := C.actions
    obtain ⟨blockers, hblockers, hblockersEq⟩ := C.blockers
    obtain ⟨decisions, hdecisions, hdecisionsEq⟩ := C.decisions
    obtain ⟨hread, hchecked⟩ := (readActions_eq_ok fun hne =>
      C.bearing (ContributionInput.bearing_actions hne)).mpr hall
    refine ⟨_, ⟨C.named, rfl⟩, _, ⟨C.revised, rfl⟩, (), C.unsettled, (), C.object, (), C.bearing,
      actions, hread, (), hchecked, (), C.basis, blockers, hblockers, decisions, hdecisions, (),
      C.blockedBasis, _, ⟨C.blockedNames, rfl⟩, _, ⟨C.allowedNames, rfl⟩, (), ?_, _, C.outcome, (),
      C.outcomeAuthority, _, C.response, ?_⟩
    · intro contract hcontract
      obtain ⟨hclaims, hscopes⟩ := C.authority contract hcontract
      rw [hblockersEq, hdecisionsEq, C.blocked] at hscopes
      refine ⟨(), forM_eq_ok.mpr fun claim hclaim => ?_, forM_eq_ok.mpr hscopes⟩
      exact check_eq_ok.mpr (hclaims claim (mem_sortDedup.mp hclaim))
    · rw [← hactions, ← hblockersEq, ← hdecisionsEq, ← C.blocked, ← C.allowed, ← C.owner,
        ← C.revision, ← C.relevant, ← C.settled, ← C.facts, ← C.material]

end AgenticCore
