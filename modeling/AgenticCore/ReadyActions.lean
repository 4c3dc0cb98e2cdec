import AgenticCore.Composition

/-!
# What a ready action is entitled to

The guarantees are stated over the input as it arrived: the contributions, and the capability
contract's own lists.

* `Restricts`          : some relevant contribution restricts a scope.
* `Declares`           : the contract declares an operation for an owner.
* `ready_actions_safe` : every ready action is declared, validated, within its effects and
                         unrestricted, and no two of them can interfere.
-/

set_option autoImplicit false

namespace AgenticCore

open Json Text Registry

variable {host : Host} {input : DecisionInput} {c : Composed}

/-! ## Where the parts of a decision come from -/

/-- Every relevant contribution in normal form is one of the input's. -/
theorem Composes.origin (C : Composes host input c) {n : NormalizedContribution}
    (hn : n ∈ c.relevant) :
    ∃ i ∈ input.contributions, i.relevant = true ∧ Contributes host c.capabilities c.intent i n := by
  obtain ⟨_, _, normalized, -, -, hnormalized, -, hrelevant⟩ := C.sources
  rw [hrelevant, List.mem_insertionSort, List.mem_filter] at hn
  obtain ⟨i, hi, K⟩ := List.Forall₂.exists_left hnormalized n hn.1
  exact ⟨i, hi, K.relevant ▸ hn.2, K⟩

/-- Every relevant contribution of the input has its normal form among them. -/
theorem Composes.image (C : Composes host input c) {i : ContributionInput}
    (hi : i ∈ input.contributions) (hrelevant : i.relevant = true) :
    ∃ n ∈ c.relevant, Contributes host c.capabilities c.intent i n := by
  obtain ⟨_, _, normalized, -, -, hnormalized, -, hsorted⟩ := C.sources
  obtain ⟨n, hn, K⟩ := List.Forall₂.exists_right hnormalized i hi
  refine ⟨n, ?_, K⟩
  rw [hsorted, List.mem_insertionSort, List.mem_filter]
  exact ⟨hn, K.relevant.trans hrelevant⟩

/-- Some relevant contribution's blocker or bounded decision affects the scope. -/
def DecisionInput.Restricts (input : DecisionInput) (scope : String) : Prop :=
  ∃ i ∈ input.contributions, i.relevant = true ∧
    ((∃ b ∈ i.blockers, scope ∈ b.affects) ∨ ∃ d ∈ i.decisions, scope ∈ d.affects)

theorem Contributes.restricts {capabilities : Option NormalizedCapabilityContract} {intent : Value}
    {i : ContributionInput} {n : NormalizedContribution}
    (K : Contributes host capabilities intent i n) {scope : String} :
    (∃ b ∈ n.blockers, scope ∈ b.affects) ∨ (∃ d ∈ n.decisions, scope ∈ d.affects) ↔
      (∃ b ∈ i.blockers, scope ∈ b.affects) ∨ ∃ d ∈ i.decisions, scope ∈ d.affects := by
  obtain ⟨bs, hbs, hblockers⟩ := K.blockers
  obtain ⟨ds, hds, hdecisions⟩ := K.decisions
  refine or_congr ?_ ?_
  · simp only [hblockers, List.mem_insertionSort]
    constructor
    · rintro ⟨b, hb, hscope⟩
      obtain ⟨i, hi, -, rfl⟩ := List.Forall₂.exists_left hbs b hb
      exact ⟨i, hi, mem_sortDedup.mp hscope⟩
    · rintro ⟨i, hi, hscope⟩
      obtain ⟨b, hb, -, rfl⟩ := List.Forall₂.exists_right hbs i hi
      exact ⟨_, hb, mem_sortDedup.mpr hscope⟩
  · simp only [hdecisions, List.mem_insertionSort]
    constructor
    · rintro ⟨d, hd, hscope⟩
      obtain ⟨i, hi, _, -, -, rfl⟩ := List.Forall₂.exists_left hds d hd
      exact ⟨i, hi, mem_sortDedup.mp hscope⟩
    · rintro ⟨i, hi, hscope⟩
      obtain ⟨d, hd, _, -, -, rfl⟩ := List.Forall₂.exists_right hds i hi
      exact ⟨_, hd, mem_sortDedup.mpr hscope⟩

/-- **The constrained scopes are the restricted ones.** -/
theorem Composes.mem_constrained (C : Composes host input c) {scope : String} :
    scope ∈ c.constrained ↔ input.Restricts scope := by
  have hparts : scope ∈ c.constrained ↔ ∃ n ∈ c.relevant,
      (∃ b ∈ n.blockers, scope ∈ b.affects) ∨ ∃ d ∈ n.decisions, scope ∈ d.affects := by
    simp only [Composed.constrained, Composed.blockers, Composed.decisions, List.mem_append,
      List.mem_flatMap, List.mem_insertionSort]
    constructor
    · rintro (⟨b, ⟨n, hn, hb⟩, h⟩ | ⟨d, ⟨n, hn, hd⟩, h⟩)
      · exact ⟨n, hn, Or.inl ⟨b, hb, h⟩⟩
      · exact ⟨n, hn, Or.inr ⟨d, hd, h⟩⟩
    · rintro ⟨n, hn, ⟨b, hb, h⟩ | ⟨d, hd, h⟩⟩
      · exact Or.inl ⟨b, ⟨n, hn, hb⟩, h⟩
      · exact Or.inr ⟨d, ⟨n, hn, hd⟩, h⟩
  rw [hparts]
  constructor
  · rintro ⟨n, hn, h⟩
    obtain ⟨i, hi, hrelevant, K⟩ := C.origin hn
    exact ⟨i, hi, hrelevant, K.restricts.mp h⟩
  · rintro ⟨i, hi, hrelevant, h⟩
    obtain ⟨n, hn, K⟩ := C.image hi hrelevant
    exact ⟨n, hn, K.restricts.mpr h⟩

theorem mem_actions {owned : OwnedAction} :
    owned ∈ c.actions ↔ ∃ n ∈ c.relevant, ∃ a ∈ n.actions, owned = ⟨n.owner, a⟩ := by
  simp only [Composed.actions, List.mem_insertionSort, List.mem_flatMap, Composed.ownedActions,
    List.mem_map, eq_comm]

theorem mem_ready {owned : OwnedAction} (h : owned ∈ c.ready) :
    owned ∈ c.actions ∧ c.isAvailable owned = true ∧ c.independent = true := by
  unfold Composed.ready at h
  split at h
  · rename_i hindependent
    have := List.mem_filter.mp h
    exact ⟨this.1, this.2, hindependent⟩
  · cases h

theorem isAvailable_iff {owned : OwnedAction} : c.isAvailable owned = true ↔
    TASK ∉ c.constrained ∧ owned.action.consequenceId ∉ c.constrained ∧
      ∀ e ∈ owned.action.effects, s!"effect:{e}" ∉ c.constrained := by
  simp only [Composed.isAvailable, Bool.and_eq_true, decide_eq_true_eq, List.all_eq_true, and_assoc]

/-- An action of the decision is one its contribution's owner may ask for. -/
theorem Composes.action_origin (C : Composes host input c) {owned : OwnedAction}
    (h : owned ∈ c.actions) :
    ∃ i ∈ input.contributions, i.relevant = true ∧ owned.owner = trim i.owner ∧
      ∃ a ∈ i.actions, ActionOf host c.capabilities c.intent (trim i.owner) a owned.action := by
  obtain ⟨n, hn, action, haction, rfl⟩ := mem_actions.mp h
  obtain ⟨i, hi, hrelevant, K⟩ := C.origin hn
  obtain ⟨ys, hys, hsorted⟩ := K.actions
  rw [hsorted, List.mem_insertionSort] at haction
  obtain ⟨a, ha, hof⟩ := List.Forall₂.exists_left hys action haction
  exact ⟨i, hi, hrelevant, K.owner, a, ha, hof⟩

/-! ## Declarations -/

/-- The contract declares the operation for the owner. -/
structure CapabilityContractInput.Declares (contract : CapabilityContractInput) (owner id : String)
    (o : CapabilityOwnerInput) (op : OperationCapabilityInput) : Prop where
  listed : o ∈ contract.owners
  owner : trim o.owner = owner
  operation : op ∈ o.operations
  id : trim op.id = id

/-- The operation's declared effects write the domain. -/
def Writes (o : CapabilityOwnerInput) (op : OperationCapabilityInput) (domain : String) : Prop :=
  ∃ e ∈ o.effects, trim e.id ∈ op.effects ∧ trim e.domain = domain

/-- The operation declares what it reads, and the domain is read. -/
def Reads (op : OperationCapabilityInput) (domain : String) : Prop :=
  ∃ reads ∈ op.reads, domain ∈ reads

/-- Two declared operations cannot interfere: both declare their reads, and neither writes what
    the other reads or writes. -/
structure Apart.Footprints (o : CapabilityOwnerInput) (op : OperationCapabilityInput)
    (p : CapabilityOwnerInput) (oq : OperationCapabilityInput) : Prop where
  declared : op.reads ≠ none ∧ oq.reads ≠ none
  writes : ∀ d, Writes o op d → ¬Writes p oq d
  left : ∀ d, Writes o op d → ¬Reads oq d
  right : ∀ d, Writes p oq d → ¬Reads op d

theorem Composes.contract_some (C : Composes host input c) {k : NormalizedCapabilityContract}
    (h : c.capabilities = some k) :
    ∃ contract ∈ input.capabilityContract, contract.Fit host ∧ k = contract.normal := by
  rw [C.capabilities, Option.map_eq_some_iff] at h
  obtain ⟨contract, hcontract, rfl⟩ := h
  exact ⟨contract, hcontract, C.contract contract hcontract, rfl⟩

theorem operations_get {o : CapabilityOwnerInput} (F : o.Fit host) {id : String}
    {operation : NormalizedOperationCapability} :
    o.normal.operations[id]? = some operation ↔
      ∃ op ∈ o.operations, trim op.id = id ∧ normalOperation op = operation := by
  have hnodup : (o.operationEntries.map Prod.fst).Nodup := by
    rw [CapabilityOwnerInput.operationEntries, List.map_map]
    exact F.distinctOperations
  rw [CapabilityOwnerInput.normal, enter_get hnodup]
  simp [CapabilityOwnerInput.operationEntries]

theorem effects_get {o : CapabilityOwnerInput} (F : o.Fit host) {id domain : String} :
    o.normal.effects[id]? = some domain ↔ ∃ e ∈ o.effects, trim e.id = id ∧ trim e.domain = domain := by
  have hnodup : (o.effectEntries.map Prod.fst).Nodup := by
    rw [CapabilityOwnerInput.effectEntries, List.map_map]
    exact F.distinctEffects
  rw [CapabilityOwnerInput.normal, enter_get hnodup]
  simp [CapabilityOwnerInput.effectEntries]

/-- A declared operation of the normal form is declared by the contract. -/
theorem declares_of_normal {contract : CapabilityContractInput} (F : contract.Fit host)
    {owner id : String} {declared : NormalizedCapabilityOwner}
    {operation : NormalizedOperationCapability}
    (howner : contract.normal.owners[owner]? = some declared)
    (hoperation : declared.operations[id]? = some operation) :
    ∃ o op, contract.Declares owner id o op ∧ declared = o.normal ∧
      operation = normalOperation op := by
  obtain ⟨o, ho, hname, rfl⟩ := (owners_get F.apart).mp howner
  obtain ⟨op, hop, hid, rfl⟩ := (operations_get (F.owners o ho)).mp hoperation
  exact ⟨o, op, ⟨ho, hname, hop, hid⟩, rfl, rfl⟩

/-- An operation is declared at most once. -/
theorem declares_unique {contract : CapabilityContractInput} (F : contract.Fit host)
    {owner id : String} {o p : CapabilityOwnerInput} {op oq : OperationCapabilityInput}
    (h : contract.Declares owner id o op) (h' : contract.Declares owner id p oq) :
    o.normal = p.normal ∧ normalOperation op = normalOperation oq := by
  have hp := (owners_get F.apart).mpr ⟨p, h'.listed, h'.owner, rfl⟩
  have ho := (owners_get F.apart).mpr ⟨o, h.listed, h.owner, rfl⟩
  have heq : o.normal = p.normal := Option.some.inj (ho.symm.trans hp)
  have hop := (operations_get (F.owners o h.listed)).mpr ⟨op, h.operation, h.id, rfl⟩
  have hoq := (operations_get (F.owners p h'.listed)).mpr ⟨oq, h'.operation, h'.id, rfl⟩
  rw [heq] at hop
  exact ⟨heq, Option.some.inj (hop.symm.trans hoq)⟩

theorem mem_footprint_writes {o : CapabilityOwnerInput} (F : o.Fit host)
    {op : OperationCapabilityInput} {domain : String} :
    domain ∈ (normalOperation op).effects.filterMap (fun effect => o.normal.effects[effect]?) ↔
      Writes o op domain := by
  simp only [List.mem_filterMap, normalOperation, mem_sortDedup, effects_get F, Writes]
  constructor
  · rintro ⟨e, he, x, hx, rfl, hdomain⟩
    exact ⟨x, hx, he, hdomain⟩
  · rintro ⟨x, hx, he, hdomain⟩
    exact ⟨_, he, x, hx, rfl, hdomain⟩

theorem isDisjoint_iff {xs ys : List String} :
    Composed.isDisjoint xs ys = true ↔ ∀ x ∈ xs, x ∉ ys := by
  simp [Composed.isDisjoint]

/-- Independent actions are declared by the contract, with footprints apart. -/
theorem footprints_apart {contract : CapabilityContractInput} (F : contract.Fit host)
    (hcapabilities : c.capabilities = some contract.normal) {left right : OwnedAction}
    (h : c.independentActions left right = true) :
    ∃ o op p oq, contract.Declares left.owner left.action.operationId o op ∧
      contract.Declares right.owner right.action.operationId p oq ∧
      Apart.Footprints o op p oq := by
  have hone : ∀ {owned : OwnedAction} {reads writes : List String},
      Composed.footprint contract.normal owned = some (reads, writes) →
      ∃ o op, contract.Declares owned.owner owned.action.operationId o op ∧ op.reads ≠ none ∧
        (∀ d, d ∈ reads ↔ Reads op d) ∧ ∀ d, d ∈ writes ↔ Writes o op d := by
    intro owned reads writes hfootprint
    simp only [Composed.footprint, Option.bind_eq_bind, Option.bind_eq_some_iff, Option.pure_def,
      Option.some.injEq, Prod.mk.injEq] at hfootprint
    obtain ⟨declared, howner, operation, hoperation, r, hreads, rfl, rfl⟩ := hfootprint
    obtain ⟨o, op, hdeclares, rfl, rfl⟩ := declares_of_normal F howner hoperation
    have hreads' : op.reads.map sortDedup = some r := hreads
    obtain ⟨raw, hraw, rfl⟩ := Option.map_eq_some_iff.mp hreads'
    refine ⟨o, op, hdeclares, by simp [hraw], fun d => ?_, fun d => ?_⟩
    · simp [Reads, hraw, mem_sortDedup]
    · exact mem_footprint_writes (F.owners o hdeclares.listed)
  unfold Composed.independentActions at h
  rw [hcapabilities] at h
  simp only at h
  split at h
  · rename_i l r hl hr
    obtain ⟨o, op, hleft, hreads, hlr, hlw⟩ := hone hl
    obtain ⟨p, oq, hright, hreads', hrr, hrw⟩ := hone hr
    simp only [Composed.independentFootprints, Bool.and_eq_true, isDisjoint_iff, hlw, hlr, hrr,
      hrw] at h
    exact ⟨o, op, p, oq, hleft, hright, ⟨hreads, hreads'⟩, h.1.1, h.1.2, h.2⟩
  · cases h

theorem Apart.Footprints.symm {o p : CapabilityOwnerInput} {op oq : OperationCapabilityInput}
    (A : Apart.Footprints o op p oq) : Apart.Footprints p oq o op :=
  ⟨A.declared.symm, fun d hd hd' => A.writes d hd' hd, A.right, A.left⟩

/-! ## Ready actions -/

/-- What an entry of `ready_actions` says. -/
structure ReadyEntry where
  owner : String
  operationId : String
  consequenceId : String
  arguments : Value
  effects : List String

/-- The entry is read from the members of its invocation. -/
structure ReadyEntry.ReadFrom (e : ReadyEntry) (v : Value) : Prop where
  owner : v.field "source_owner" = .string e.owner
  operationId : v.field "operation_id" = .string e.operationId
  consequenceId : v.field "consequence_id" = .string e.consequenceId
  arguments : v.field "arguments" = e.arguments
  effects : v.field "effects" = .strings e.effects

/-- The entry is a relevant contribution's, within the declaration of its operation, and nothing
    restricts it. -/
structure ReadyEntry.Entitled (e : ReadyEntry) (host : Host) (input : DecisionInput) : Prop where
  relevant : ∃ i ∈ input.contributions, i.relevant = true ∧ trim i.owner = e.owner
  declared : ∃ contract ∈ input.capabilityContract, ∃ o op,
    contract.Declares e.owner e.operationId o op ∧
      host.accepts op.inputSchema e.arguments = true ∧ ∀ effect ∈ e.effects, effect ∈ op.effects
  task : ¬input.Restricts TASK
  consequence : ¬input.Restricts e.consequenceId
  effects : ∀ effect ∈ e.effects, ¬input.Restricts s!"effect:{effect}"

/-- The declared footprints of the two entries do not conflict. -/
def ReadyEntry.Apart (e e' : ReadyEntry) (input : DecisionInput) : Prop :=
  ∃ contract ∈ input.capabilityContract, ∃ o op p oq,
    contract.Declares e.owner e.operationId o op ∧
      contract.Declares e'.owner e'.operationId p oq ∧ Apart.Footprints o op p oq

def OwnedAction.entry (owned : OwnedAction) : ReadyEntry where
  owner := owned.owner
  operationId := owned.action.operationId
  consequenceId := owned.action.consequenceId
  arguments := owned.action.arguments
  effects := owned.action.effects

theorem invocation_entry (owned : OwnedAction) :
    owned.entry.ReadFrom (Composed.invocation owned) := by
  constructor
  all_goals
    rw [Composed.invocation, Value.field, record_get? (by simp)]
    rfl

theorem Composes.entitled (C : Composes host input c) {owned : OwnedAction} (h : owned ∈ c.ready) :
    owned.entry.Entitled host input := by
  obtain ⟨haction, havailable, -⟩ := mem_ready h
  obtain ⟨i, hi, hrelevant, howner, a, -, declared, operation, hdeclared, hoperation, -, D, hof⟩ :=
    C.action_origin haction
  obtain ⟨htask, hconsequence, heffects⟩ := isAvailable_iff.mp havailable
  simp only [C.mem_constrained] at htask hconsequence heffects
  refine ⟨⟨i, hi, hrelevant, howner.symm⟩, ?_, htask, hconsequence, heffects⟩
  obtain ⟨k, hk, hget⟩ := Option.bind_eq_some_iff.mp hdeclared
  obtain ⟨contract, hcontract, F, rfl⟩ := C.contract_some hk
  obtain ⟨o, op, hdeclares, rfl, rfl⟩ := declares_of_normal F hget D.declared
  refine ⟨contract, hcontract, o, op, ?_, D.accepts, fun e he => ?_⟩
  · rw [OwnedAction.entry, howner]
    exact hdeclares
  · exact mem_sortDedup.mp (D.effects e he)

theorem Composes.ready_apart (C : Composes host input c) {owned other : OwnedAction}
    (h : c.independentActions owned other = true) : owned.entry.Apart other.entry input := by
  cases hc : c.capabilities with
  | none => simp [Composed.independentActions, hc] at h
  | some k =>
    obtain ⟨contract, hcontract, F, rfl⟩ := C.contract_some hc
    obtain ⟨o, op, p, oq, hleft, hright, A⟩ := footprints_apart F hc h
    exact ⟨contract, hcontract, o, op, p, oq, hleft, hright, A⟩

/-- **Ready actions are safe.** Every entry of `ready_actions` belongs to a relevant contribution,
is declared by the contract with arguments its schema accepts and effects within its declaration,
and is restricted by no relevant contribution; entries at distinct positions have footprints
apart. -/
theorem ready_actions_safe {host : Host} {input : DecisionInput} {decision : Value}
    (h : host.compile input = .ok decision) :
    ∃ entries, decision.field "ready_actions" = .array entries ∧
      (∀ v ∈ entries, ∃ e : ReadyEntry, e.ReadFrom v ∧ e.Entitled host input) ∧
      ∀ (i j : Nat) (v w : Value), i ≠ j → entries[i]? = some v → entries[j]? = some w →
        ∃ e e' : ReadyEntry, e.ReadFrom v ∧ e'.ReadFrom w ∧ e.Apart e' input := by
  obtain ⟨c, C, R⟩ := compile_reports h
  refine ⟨c.readyActions, R.ready, ?_, ?_⟩
  · intro v hv
    obtain ⟨owned, howned, rfl⟩ := List.mem_map.mp hv
    exact ⟨owned.entry, invocation_entry owned, C.entitled howned⟩
  · intro i j v w hij hv hw
    have hpairs : c.ready.Pairwise fun left right => left.entry.Apart right.entry input := by
      unfold Composed.ready
      split
      · rename_i hindependent
        exact (of_decide_eq_true hindependent).imp fun h => C.ready_apart h
      · exact .nil
    rw [Composed.readyActions, List.getElem?_map, Option.map_eq_some_iff] at hv hw
    obtain ⟨a, ha, rfl⟩ := hv
    obtain ⟨b, hb, rfl⟩ := hw
    refine ⟨a.entry, b.entry, invocation_entry a, invocation_entry b, ?_⟩
    obtain ⟨hi, rfl⟩ := List.getElem?_eq_some_iff.mp ha
    obtain ⟨hj, rfl⟩ := List.getElem?_eq_some_iff.mp hb
    rw [List.pairwise_iff_getElem] at hpairs
    rcases Nat.lt_or_gt_of_ne hij with hlt | hlt
    · exact hpairs i j hi hj hlt
    · obtain ⟨contract, hcontract, o, op, p, oq, hleft, hright, A⟩ := hpairs j i hj hi hlt
      exact ⟨contract, hcontract, p, oq, o, op, hright, hleft, A.symm⟩

/-! ### A pair of independent actions -/

def sampleHost : Host where
  digest _ := "sha256:0000000000000000000000000000000000000000000000000000000000000000"
  builds _ := true
  accepts _ _ := true
  activity _ := .ok .null

def sampleSchema : Value :=
  .object [("$schema", .string "https://json-schema.org/draft/2020-12/schema")]

def sampleOwner (name : String) : CapabilityOwnerInput where
  owner := name
  revision := "r1"
  domains := [name]
  effects := [⟨"write-" ++ name, name⟩]
  operations := [{
    id := "op-" ++ name, semanticRevision := "s1", reads := some [], inputSchema := sampleSchema
    resultKind := "result", effects := ["write-" ++ name], claims := [] }]
  requests := []

def sampleContract : CapabilityContractInput where
  kind := CAPABILITY_CONTRACT_KIND
  revision := "sha256:0000000000000000000000000000000000000000000000000000000000000000"
  owners := [sampleOwner "b", sampleOwner "a"]
  claimAuthorities := []
  restrictionAuthorities := []

def sampleAction (name : String) : ActionInput where
  sourceRequests := []
  dependencyRevision := "d1"
  effectGeneration := ""
  operationId := "op-" ++ name
  arguments := .object []
  effects := ["write-" ++ name]
  authority := none
  extra := []

def sampleContribution (name : String) : ContributionInput where
  restrictionBasis := none
  owner := name
  revision := "c1"
  relevant := true
  settled := false
  facts := .object []
  material := none
  blockers := []
  decisions := []
  actions := [sampleAction name]
  claims := ⟨[], []⟩
  outcome := none
  requestResponse := none
  extra := []

def sampleInput : DecisionInput where
  contributions := [sampleContribution "a", sampleContribution "b"]
  decisionContext := none
  intent := .object []
  capabilityContract := some sampleContract

def readyCount (decision : Value) : Option Nat :=
  (decision.field "ready_actions").asArray.map List.length

theorem sampleInput_ready :
    (sampleHost.compile sampleInput).toOption.bind readyCount = some 2 := by
  decide

theorem ready_actions_safe_pair : ∃ decision entries, readyCount decision = some 2 ∧
    decision.field "ready_actions" = .array entries ∧
      (∀ v ∈ entries, ∃ e : ReadyEntry, e.ReadFrom v ∧ e.Entitled sampleHost sampleInput) ∧
      ∀ (i j : Nat) (v w : Value), i ≠ j → entries[i]? = some v → entries[j]? = some w →
        ∃ e e' : ReadyEntry, e.ReadFrom v ∧ e'.ReadFrom w ∧ e.Apart e' sampleInput := by
  cases h : sampleHost.compile sampleInput with
  | error e =>
    have hready := sampleInput_ready
    rw [h] at hready
    cases hready
  | ok decision =>
    have hready := sampleInput_ready
    rw [h] at hready
    obtain ⟨entries, hsafe⟩ := ready_actions_safe h
    exact ⟨decision, entries, hready, hsafe⟩

end AgenticCore
