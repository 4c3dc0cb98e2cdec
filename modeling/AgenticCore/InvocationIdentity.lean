import AgenticCore.ReadyActions
import AgenticCore.JsonText

/-!
# The identity of an invocation

* `Material`              : what an action asks for and what it depends on, read from the input.
* `ReadyAt`               : an action of an accepted input and the invocation emitted for it.
* `invocation_eq_iff`     : two invocations are equal exactly when their material is.
* `invocation_identity`   : with it, when a returned invocation is admitted by a later decision.
-/

set_option autoImplicit false

namespace AgenticCore

open Json Text Registry

/-! ## Serialised maps and declarations determine what they serialise -/

theorem mapValue_inj {α : Type} {f : α → Value} (hf : Function.Injective f)
    {m m' : BTreeMap String α} : mapValue f m = mapValue f m' ↔ m = m' := by
  constructor
  · intro h
    have hpair : Function.Injective fun e : String × α => (e.1, f e.2) := by
      rintro ⟨k, a⟩ ⟨k', a'⟩ heq
      obtain ⟨hk, ha⟩ := Prod.mk.inj heq
      exact Prod.ext hk (hf ha)
    exact Std.ExtTreeMap.toList_inj.mp (List.map_injective_iff.mpr hpair (Value.object.inj h))
  · rintro rfl
    rfl

theorem orNull_string_injective :
    Function.Injective fun domain : Option String => Value.orNull (domain.map .string) := by
  intro a b h
  cases a <;> cases b <;> simp_all [Value.orNull]

/-- Custody is the domain of each effect. -/
theorem custody_eq_iff {capability capability' : NormalizedCapabilityOwner} {effects : List String} :
    custody (some capability) effects = custody (some capability') effects ↔
      ∀ e ∈ effects, capability.effects[e]? = capability'.effects[e]? := by
  have hget : ∀ (k : NormalizedCapabilityOwner) (e : String), e ∈ effects →
      (Std.ExtTreeMap.ofList (effects.map fun effect => (effect, k.effects[effect]?)) compare :
        BTreeMap String (Option String))[e]? = some k.effects[e]? := by
    intro k e he
    rw [Std.ExtTreeMap.ofList_eq_insertMany_empty, Std.ExtTreeMap.getElem?_insertMany_list]
    have hsome : (effects.map fun effect => (effect, k.effects[effect]?)).findSomeRev?
        (fun x => if compare x.1 e = .eq then some x.2 else none) = some k.effects[e]? := by
      obtain ⟨x, hx⟩ : ∃ x, (effects.map fun effect => (effect, k.effects[effect]?)).findSomeRev?
          (fun x => if compare x.1 e = .eq then some x.2 else none) = some x := by
        rw [← Option.isSome_iff_exists, List.findSomeRev?_eq_findSome?_reverse,
          List.findSome?_isSome_iff]
        exact ⟨(e, k.effects[e]?), by simp [he], by simp⟩
      rw [hx]
      rw [List.findSomeRev?_eq_findSome?_reverse] at hx
      obtain ⟨y, hy, hyx⟩ := List.exists_of_findSome?_eq_some hx
      rw [List.mem_reverse, List.mem_map] at hy
      obtain ⟨effect, -, rfl⟩ := hy
      split at hyx
      · rename_i heq
        rw [Std.LawfulEqOrd.compare_eq_iff_eq] at heq
        simp only at heq
        subst heq
        exact hyx.symm
      · cases hyx
    rw [hsome]
    rfl
  rw [custody, custody, mapValue_inj orNull_string_injective]
  simp only [Option.bind_some]
  constructor
  · intro h e he
    have := hget capability e he
    rw [h, hget capability' e he, Option.some.injEq] at this
    exact this.symm
  · intro h
    exact congrArg (Std.ExtTreeMap.ofList · compare)
      (List.map_congr_left fun e he => by rw [h e he])

theorem NormalizedOperationCapability.toValue_injective :
    Function.Injective NormalizedOperationCapability.toValue := by
  intro a b h
  have hnodup : ∀ o : NormalizedOperationCapability, (([("claims", some (.strings o.claims)),
      ("effects", some (.strings o.effects)), ("input_schema", some o.inputSchema),
      ("reads", o.reads.map .strings), ("result_kind", some (.string o.resultKind)),
      ("semantic_revision", some (.string o.semanticRevision))] :
        List (String × Option Value)).map Prod.fst).Nodup := fun o => by simp
  have hget : ∀ (o : NormalizedOperationCapability) (key : String), o.toValue.get? key = _ :=
    fun o key => record_get? (hnodup o) key
  have hmember := fun key => (hget a key).symm.trans ((congrArg (Value.get? · key) h).trans
    (hget b key))
  have hclaims : a.claims = b.claims := strings_inj.mp (Option.some.inj (hmember "claims"))
  have heffects : a.effects = b.effects := strings_inj.mp (Option.some.inj (hmember "effects"))
  have hschema : a.inputSchema = b.inputSchema := Option.some.inj (hmember "input_schema")
  have hreads : a.reads = b.reads :=
    Option.map_injective (fun _ _ h => strings_inj.mp h) (hmember "reads")
  have hresult : a.resultKind = b.resultKind :=
    Value.string.inj (Option.some.inj (hmember "result_kind"))
  have hsemantic : a.semanticRevision = b.semanticRevision :=
    Value.string.inj (Option.some.inj (hmember "semantic_revision"))
  cases a
  cases b
  simp_all

/-! ## Material -/

/-- What an action asks for, the declaration of its operation, and the domain of each of the
    declared effects. -/
structure Material where
  owner : String
  operationId : String
  arguments : Value
  effects : List String
  authority : String
  effectGeneration : String
  dependencyRevision : String
  sourceRequests : List Value
  operation : NormalizedOperationCapability
  domains : List (Option String)

/-- The material of an action under the declaration of its operation. -/
def ActionInput.material (a : ActionInput) (owner : String) (declared : NormalizedCapabilityOwner)
    (operation : NormalizedOperationCapability) : Material where
  owner := owner
  operationId := trim a.operationId
  arguments := a.arguments
  effects := a.effects
  authority := a.authorityOf owner
  effectGeneration := a.effectGeneration
  dependencyRevision := trim a.dependencyRevision
  sourceRequests := a.sourceRequests
  operation := operation
  domains := operation.effects.map fun e => declared.effects[e]?

/-- The material of an action of the input. -/
def DecisionInput.material (input : DecisionInput) (i : ContributionInput) (a : ActionInput) :
    Option Material := do
  let contract ← input.capabilityContract
  let declared ← contract.normal.owners[trim i.owner]?
  let operation ← declared.operations[trim a.operationId]?
  pure (a.material (trim i.owner) declared operation)

/-- The action of the accepted input is ready, and the decision returns the invocation for it. -/
def ReadyAt (host : Host) (input : DecisionInput) (i : ContributionInput) (a : ActionInput)
    (v : Value) : Prop :=
  ∃ c, Composes host input c ∧ i ∈ input.contributions ∧ i.relevant = true ∧ a ∈ i.actions ∧
    ∃ owned ∈ c.ready, owned.owner = trim i.owner ∧
      ActionOf host c.capabilities c.intent (trim i.owner) a owned.action ∧
      v = Composed.invocation owned

variable {host : Host} {input input' : DecisionInput}

theorem readyAt_material {i : ContributionInput} {a : ActionInput} {v : Value}
    (h : ReadyAt host input i a v) : ∃ declared operation,
      input.material i a = some (a.material (trim i.owner) declared operation) ∧
      (∀ e ∈ a.effects, e ∈ operation.effects) ∧
      declared.operations[trim a.operationId]? = some operation ∧
      v = Composed.invocation ⟨trim i.owner, host.normalAction (trim i.owner) declared operation a⟩ := by
  obtain ⟨c, C, -, -, -, ⟨owner, action⟩, -, howner, hof, rfl⟩ := h
  obtain ⟨declared, operation, hdeclared, hoperation, -, D, haction⟩ := hof
  simp only at howner haction
  subst howner haction
  refine ⟨declared, operation, ?_, D.effects, hoperation, rfl⟩
  obtain ⟨k, hk, hget⟩ := Option.bind_eq_some_iff.mp hdeclared
  obtain ⟨contract, hcontract, -, rfl⟩ := C.contract_some hk
  simp only [DecisionInput.material, Option.mem_def.mp hcontract, Option.bind_eq_bind,
    Option.bind_some, hget, hoperation, Option.pure_def]

/-- The declaration and custody of an operation, sealed in its revision. -/
theorem declaredRevision_inj (hdigest : Function.Injective host.digest) {owner owner' id id' : String}
    {capability capability' : NormalizedCapabilityOwner}
    {operation operation' : NormalizedOperationCapability} :
    host.declaredRevision owner id capability operation =
        host.declaredRevision owner' id' capability' operation' ↔
      owner = owner' ∧ id = id' ∧ operation = operation' ∧
        ∀ e ∈ operation.effects, capability.effects[e]? = capability'.effects[e]? := by
  rw [Host.declaredRevision, Host.declaredRevision, hdigest.eq_iff]
  simp only [Value.object.injEq, List.cons.injEq, Prod.mk.injEq, true_and, Value.string.injEq,
    NormalizedOperationCapability.toValue_injective.eq_iff, and_true]
  constructor
  · rintro ⟨hcustody, hid, rfl, howner⟩
    exact ⟨howner, hid, rfl, custody_eq_iff.mp hcustody⟩
  · rintro ⟨howner, hid, rfl, hcustody⟩
    exact ⟨custody_eq_iff.mpr hcustody, hid, rfl, howner⟩

theorem logicalEffectId_inj (hdigest : Function.Injective host.digest)
    {owner owner' id id' authority authority' : String} {a b : ActionInput} :
    host.logicalEffectId owner id authority a = host.logicalEffectId owner' id' authority' b ↔
      a.arguments = b.arguments ∧ authority = authority' ∧
        a.effectGeneration = b.effectGeneration ∧ a.effects = b.effects ∧ id = id' ∧
        owner = owner' := by
  rw [Host.logicalEffectId, Host.logicalEffectId, hdigest.eq_iff]
  simp only [Value.object.injEq, List.cons.injEq, Prod.mk.injEq, true_and, Value.string.injEq,
    strings_inj, and_true]

theorem sourceDependency_inj (hdigest : Function.Injective host.digest) {r r' : String}
    {requests : List Value} :
    host.sourceDependency r requests = host.sourceDependency r' requests ↔ r = r' := by
  unfold Host.sourceDependency
  split
  · rfl
  · rw [hdigest.eq_iff]
    simp

/-- The members of an invocation that depend on the action. -/
theorem invocation_inj {x y : OwnedAction} : Composed.invocation x = Composed.invocation y ↔ x = y := by
  refine ⟨fun h => ?_, fun h => h ▸ rfl⟩
  have hget : ∀ (o : OwnedAction) (key : String), (Composed.invocation o).get? key = _ :=
    fun o key => record_get? (by simp) key
  have hmember := fun key => (hget x key).symm.trans ((congrArg (Value.get? · key) h).trans
    (hget y key))
  have hstring : ∀ {s t : String}, some (Value.string s) = some (Value.string t) → s = t :=
    fun h => Value.string.inj (Option.some.inj h)
  have harguments : x.action.arguments = y.action.arguments := Option.some.inj (hmember "arguments")
  have hauthority : x.action.authority = y.action.authority := hstring (hmember "authority")
  have hconsequence : x.action.consequenceId = y.action.consequenceId :=
    hstring (hmember "consequence_id")
  have heffects : x.action.effects = y.action.effects :=
    strings_inj.mp (Option.some.inj (hmember "effects"))
  have hdependency : x.action.dependencyRevision = y.action.dependencyRevision :=
    hstring (hmember "expected_dependency_revision")
  have hlogical : x.action.logicalEffectId = y.action.logicalEffectId :=
    hstring (hmember "idempotency_key")
  have hid : x.action.operationId = y.action.operationId := hstring (hmember "operation_id")
  have hrevision : x.action.operationRevision = y.action.operationRevision :=
    hstring (hmember "operation_revision")
  have howner : x.owner = y.owner := hstring (hmember "source_owner")
  have hrequests : (if x.action.sourceRequests = [] then none
      else some (Value.array x.action.sourceRequests)) =
      if y.action.sourceRequests = [] then none else some (.array y.action.sourceRequests) :=
    hmember "source_requests"
  have hrequests' : x.action.sourceRequests = y.action.sourceRequests := by
    by_cases hx : x.action.sourceRequests = [] <;> by_cases hy : y.action.sourceRequests = [] <;>
      simp_all
  obtain ⟨_, ⟨⟩⟩ := x
  obtain ⟨_, ⟨⟩⟩ := y
  simp_all

/-- **Two invocations are equal exactly when their material is.** -/
theorem invocation_eq_iff (hdigest : Function.Injective host.digest) {i j : ContributionInput}
    {a b : ActionInput} {v w : Value} (h : ReadyAt host input i a v) (h' : ReadyAt host input' j b w) :
    v = w ↔ input.material i a = input'.material j b := by
  obtain ⟨declared, operation, hm, heffects, hget, rfl⟩ := readyAt_material h
  obtain ⟨declared', operation', hm', -, hget', rfl⟩ := readyAt_material h'
  rw [hm, hm', invocation_inj, Option.some.injEq, OwnedAction.mk.injEq]
  constructor
  · rintro ⟨howner, hnormal⟩
    simp only [Host.normalAction, NormalizedAction.mk.injEq] at hnormal
    obtain ⟨hrequests, -, hdependency, hlogical, hrevision, -, -, -, -⟩ := hnormal
    obtain ⟨harguments, hauthority, hgeneration, heffects', hid, -⟩ :=
      (logicalEffectId_inj hdigest).mp hlogical
    obtain ⟨-, -, rfl, hdomains⟩ := (declaredRevision_inj hdigest).mp hrevision
    have hsource : trim a.dependencyRevision = trim b.dependencyRevision := by
      rw [Host.dependencyRevision, Host.dependencyRevision, hdigest.eq_iff] at hdependency
      simp only [Value.object.injEq, List.cons.injEq, Prod.mk.injEq, true_and, Value.string.injEq,
        and_true] at hdependency
      rw [← hrequests] at hdependency
      exact (sourceDependency_inj hdigest).mp hdependency.2.2
    simp only [ActionInput.material, Material.mk.injEq]
    exact ⟨howner, hid, harguments, heffects', hauthority, hgeneration, hsource, hrequests, trivial,
      List.map_congr_left hdomains⟩
  · intro hmaterial
    simp only [ActionInput.material, Material.mk.injEq] at hmaterial
    obtain ⟨howner, hid, harguments, heffects', hauthority, hgeneration, hsource, hrequests, rfl,
      hdomains⟩ := hmaterial
    have hdomains' : ∀ e ∈ operation.effects, declared.effects[e]? = declared'.effects[e]? :=
      List.map_inj_left.mp hdomains
    have hlogical := (logicalEffectId_inj hdigest).mpr
      ⟨harguments, hauthority, hgeneration, heffects', hid, howner⟩
    have hrevision := (declaredRevision_inj hdigest).mpr ⟨howner, hid, rfl, hdomains'⟩
    have hcustody : custody (some declared) a.effects = custody (some declared') b.effects := by
      rw [← heffects']
      exact custody_eq_iff.mpr fun e he => hdomains' e (heffects e he)
    have hdependency : host.dependencyRevision
        (host.sourceDependency (trim a.dependencyRevision) a.sourceRequests) (trim a.operationId)
          a.effects (some declared) =
        host.dependencyRevision
        (host.sourceDependency (trim b.dependencyRevision) b.sourceRequests) (trim b.operationId)
          b.effects (some declared') := by
      simp only [Host.dependencyRevision, Option.bind_some, hget, hget', hcustody, hsource,
        hrequests]
    refine ⟨howner, ?_⟩
    simp only [Host.normalAction, NormalizedAction.mk.injEq]
    rw [hdependency, hlogical, hrevision]
    exact ⟨hrequests, by rw [howner], rfl, rfl, rfl, hid, harguments, heffects', hauthority⟩

/-! ## Admission against a later decision -/

theorem Composes.unique {c c' : Composed} (C : Composes host input c)
    (C' : Composes host input c') : c = c' :=
  Except.ok.inj ((compose_eq_ok.mpr C).symm.trans (compose_eq_ok.mpr C'))

/-- Every ready action of a composed input is one of its contributions' actions. -/
theorem Composes.readyAt {c : Composed} (C : Composes host input c) {owned : OwnedAction}
    (h : owned ∈ c.ready) : ∃ i a, ReadyAt host input i a (Composed.invocation owned) := by
  obtain ⟨i, hi, hrelevant, howner, a, ha, hof⟩ := C.action_origin (mem_ready h).1
  exact ⟨i, a, c, C, hi, hrelevant, ha, owned, h, howner, hof, rfl⟩

theorem readyAt_reported {i : ContributionInput} {a : ActionInput} {v decision : Value}
    (h : ReadyAt host input i a v) (hdecision : host.compile input = .ok decision) :
    ∃ entries, decision.field "ready_actions" = .array entries ∧ v ∈ entries := by
  obtain ⟨c, C, -, -, -, owned, howned, -, -, rfl⟩ := h
  obtain ⟨c', C', R⟩ := compile_reports hdecision
  obtain rfl := C.unique C'
  exact ⟨_, R.ready, List.mem_map_of_mem howned⟩

theorem invocation_kind (owned : OwnedAction) :
    (Composed.invocation owned).field "kind" = .string INVOCATION_KIND := by
  rw [Composed.invocation, Value.field, record_get? (by simp)]
  rfl

/-- A fresh invocation is admitted exactly when the decision returns it. -/
theorem admitInvocation_fresh {decision : Value} {c : Composed} (R : Reports host c decision)
    {owned : OwnedAction} :
    (admitInvocation decision (Composed.invocation owned) none).isOk = true ↔
      Composed.invocation owned ∈ c.readyActions := by
  rw [Except.isOk_iff]
  simp only [admitInvocation, Except.bind_eq_ok_iff, check_eq_ok, Except.pure_eq_ok_iff,
    exactCurrent, R.ready, Value.asArray, invocation_kind, Value.asStr]
  constructor
  · rintro ⟨_, _, -, _, -, _, hcurrent, -⟩
    simpa using hcurrent
  · intro h
    exact ⟨_, (), trivial, (), by simp, (), by simpa using h, (), by simp, rfl⟩

/-- **The identity of an invocation is its material.** An invocation of one accepted input is
returned by its decision; it equals the invocation of a ready action of another accepted input
exactly when the material of the two actions is equal; and the other decision admits it exactly
when an action with that material is ready there. -/
theorem invocation_identity {host : Host} (hdigest : Function.Injective host.digest)
    {input input' : DecisionInput} {decision decision' : Value}
    (hdecision : host.compile input = .ok decision)
    (hdecision' : host.compile input' = .ok decision') {i : ContributionInput} {a : ActionInput}
    {v : Value} (h : ReadyAt host input i a v) :
    (∃ entries, decision.field "ready_actions" = .array entries ∧ v ∈ entries) ∧
      (∀ j b w, ReadyAt host input' j b w → (v = w ↔ input.material i a = input'.material j b)) ∧
      ((admitInvocation decision' v none).isOk = true ↔
        ∃ j b w, ReadyAt host input' j b w ∧ input'.material j b = input.material i a) := by
  refine ⟨readyAt_reported h hdecision, fun j b w h' => invocation_eq_iff hdigest h h', ?_⟩
  obtain ⟨c', C', R⟩ := compile_reports hdecision'
  have hv : ∃ owned, v = Composed.invocation owned := by
    obtain ⟨_, _, -, -, -, owned, -, -, -, rfl⟩ := h
    exact ⟨owned, rfl⟩
  obtain ⟨owned, rfl⟩ := hv
  rw [admitInvocation_fresh R]
  constructor
  · intro hmem
    obtain ⟨owned', howned', heq⟩ := List.mem_map.mp hmem
    obtain ⟨j, b, h'⟩ := C'.readyAt howned'
    exact ⟨j, b, _, h', ((invocation_eq_iff hdigest h h').mp heq.symm).symm⟩
  · rintro ⟨j, b, w, h', hmaterial⟩
    obtain rfl := (invocation_eq_iff hdigest h h').mpr hmaterial.symm
    obtain ⟨c'', C'', -, -, -, owned', howned', -, -, heq⟩ := h'
    obtain rfl := C'.unique C''
    exact heq ▸ List.mem_map_of_mem howned'

/-! ### The same action in a later decision -/

def textHost : Host := { sampleHost with digest := text }

/-- Other facts, another contribution revision and another aggregate contract revision. -/
def laterInput : DecisionInput where
  contributions := [{ sampleContribution "b" with revision := "c2" },
    { sampleContribution "a" with facts := .object [("seen", .bool true)] }]
  decisionContext := none
  intent := .object []
  capabilityContract := some { sampleContract with
    revision := "sha256:1111111111111111111111111111111111111111111111111111111111111111" }

theorem textHost_accepts : ((textHost.compose sampleInput).toOption.map (·.ready.length)) = some 2 ∧
    (textHost.compile sampleInput).isOk = true ∧ (textHost.compile laterInput).isOk = true := by
  decide

theorem invocation_identity_later : ∃ decision decision' i a v,
    textHost.compile sampleInput = .ok decision ∧ textHost.compile laterInput = .ok decision' ∧
      ReadyAt textHost sampleInput i a v ∧
      (∃ entries, decision.field "ready_actions" = .array entries ∧ v ∈ entries) ∧
      (∀ j b w, ReadyAt textHost laterInput j b w →
        (v = w ↔ sampleInput.material i a = laterInput.material j b)) ∧
      ((admitInvocation decision' v none).isOk = true ↔ ∃ j b w, ReadyAt textHost laterInput j b w ∧
        laterInput.material j b = sampleInput.material i a) := by
  obtain ⟨hcount, hok, hok'⟩ := textHost_accepts
  obtain ⟨decision, hdecision⟩ := Except.isOk_iff.mp hok
  obtain ⟨decision', hdecision'⟩ := Except.isOk_iff.mp hok'
  obtain ⟨c, C, -⟩ := compile_reports hdecision
  have hready : c.ready.length = 2 := by
    rw [compose_eq_ok.mpr C] at hcount
    exact Option.some.inj hcount
  obtain ⟨owned, howned⟩ := List.exists_mem_of_length_pos (by omega : 0 < c.ready.length)
  obtain ⟨i, a, h⟩ := C.readyAt howned
  exact ⟨decision, decision', i, a, _, hdecision, hdecision', h,
    invocation_identity text_injective hdecision hdecision' h⟩

end AgenticCore
