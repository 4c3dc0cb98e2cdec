import AgenticCore.Compile
import AgenticCore.ContributionAdmission

/-!
# What an accepted decision input contains, and what its decision reports

* `compose_eq_ok` : the checks of `compile` in closed form.
* `compile_eq_ok` : the decision on an accepted input.
* `answer_field`  : the members of a decision, by name.
-/

set_option autoImplicit false

namespace AgenticCore

open Json Text

variable {host : Host}

/-- Everything an accepted input satisfies, with what the decision is computed from. -/
structure Composes (host : Host) (input : DecisionInput) (c : Composed) : Prop where
  supported : ∃ members, input.intent.asObject = some members ∧
    ∀ field ∈ members.map Prod.fst, field ∈ supportedIntentFields
  contract : ∀ contract ∈ input.capabilityContract, contract.Fit host
  capabilities : c.capabilities = input.capabilityContract.map (·.normal)
  context : ∃ projected, transposeM (Continuity.project host.digest · c.semanticTaskRoutes)
      input.decisionContext = .ok projected ∧
    c.decisionContext = projected.join.map Continuity.Projection.toValue
  sources : ∃ routed request normalized,
    normalizeSemanticRoutes input.intent = .ok (routed, c.semanticTaskRoutes) ∧
    host.normalizePublicRequest routed c.capabilities = .ok (c.intent, request) ∧
    List.Forall₂ (Contributes host c.capabilities c.intent) input.contributions normalized ∧
    resolvePublicRequest request normalized = .ok c.requestResolution ∧
    c.relevant = (normalized.filter (·.relevant)).insertionSort fun a b => a.owner ≤ b.owner
  intended : intendedOutcome c.intent = .ok c.intended
  authorised : ∀ intended ∈ c.intended, checkIntended intended c.capabilities = .ok ()
  single : sharedOwner c.relevant = false

theorem contracts_eq_ok {input : Option CapabilityContractInput}
    {r : Option NormalizedCapabilityContract} :
    transposeM host.normalizeCapabilityContract input = .ok r ↔
      (∀ contract ∈ input, contract.Fit host) ∧ r = input.map (·.normal) := by
  cases input with
  | none => simp [transposeM_eq_ok]
  | some contract => simp [transposeM_eq_ok, normalizeCapabilityContract_eq_ok]

theorem compose_eq_ok {input : DecisionInput} {c : Composed} :
    host.compose input = .ok c ↔ Composes host input c := by
  simp only [Host.compose, Except.bind_eq_ok_iff, okOr_eq_ok, refuse_eq_ok, contracts_eq_ok,
    forSome_eq_ok, check_eq_ok, Except.pure_eq_ok_iff, mapM_eq_ok, normalizeContribution_eq_ok,
    List.find?_eq_none, decide_eq_true_eq, not_not]
  constructor
  · rintro ⟨members, hmembers, _, ⟨hcontract, rfl⟩, _, hsupported, ⟨routed, routes⟩, hrouted,
      projected, hprojected, ⟨intent, request⟩, hrequested, intended, hintended, _, hauthorised,
      normalized, hnormalized, resolution, hresolution, _, hsingle, rfl⟩
    exact {
      supported := ⟨members, hmembers, hsupported⟩, contract := hcontract, capabilities := rfl
      context := ⟨projected, hprojected, rfl⟩
      sources := ⟨routed, request, normalized, hrouted, hrequested, hnormalized, hresolution, rfl⟩
      intended := hintended, authorised := hauthorised, single := hsingle }
  · intro C
    obtain ⟨members, hmembers, hsupported⟩ := C.supported
    obtain ⟨projected, hprojected, hcontext⟩ := C.context
    obtain ⟨routed, request, normalized, hrouted, hrequested, hnormalized, hresolution, hrelevant⟩ :=
      C.sources
    have hauthorised := C.authorised
    have hsingle := C.single
    rw [C.capabilities] at hrequested hnormalized hauthorised
    rw [hrelevant] at hsingle
    refine ⟨members, hmembers, _, ⟨C.contract, rfl⟩, (), hsupported, _, hrouted, projected,
      hprojected, _, hrequested, _, C.intended, (), hauthorised, _, hnormalized, _, hresolution,
      (), hsingle, ?_⟩
    rw [← C.capabilities, ← hcontext, ← hrelevant]

/-! ## The decision -/

theorem operationRevisions_ok (c : Composed) (contract : NormalizedCapabilityContract) :
    ∃ revisions, host.operationRevisions c contract = .ok revisions := by
  have hall : ∀ entries : List (String × NormalizedCapabilityOwner × String),
      (∀ e ∈ entries, e.2.1.operations[e.2.2]?.isSome = true) →
      ∃ revisions, entries.mapM (fun e => do
        let revision ← host.operationRevision e.1 e.2.2 e.2.1
        pure (e.2.2, revision)) = .ok revisions := by
    intro entries
    induction entries with
    | nil => exact fun _ => ⟨[], rfl⟩
    | cons e entries ih =>
      intro h
      rw [List.forall_mem_cons] at h
      obtain ⟨operation, hoperation⟩ := Option.isSome_iff_exists.mp h.1
      obtain ⟨revisions, hrevisions⟩ := ih h.2
      refine ⟨(e.2.2, host.declaredRevision e.1 e.2.2 e.2.1 operation) :: revisions, ?_⟩
      rw [mapM_eq_ok] at hrevisions ⊢
      refine .cons ?_ hrevisions
      simp only [Host.operationRevision, hoperation, okOr]
      rfl
  obtain ⟨revisions, hrevisions⟩ := hall (reportedOperations c contract) (by
    intro e he
    obtain ⟨entry, -, hid⟩ := List.mem_flatMap.mp (List.mem_filter.mp he).1
    obtain ⟨id, hkey, rfl⟩ := List.mem_map.mp hid
    rw [Std.ExtTreeMap.mem_keys, Std.ExtTreeMap.mem_iff_isSome_getElem?] at hkey
    exact hkey)
  exact ⟨.ofList revisions compare,
    Except.bind_eq_ok_iff.mpr ⟨revisions, hrevisions, Except.pure_eq_ok_iff.mpr rfl⟩⟩

/-- Once its input is composed, a decision is never refused. -/
theorem answer_ok (c : Composed) : ∃ answer, host.answer c = .ok answer := by
  unfold Host.answer
  cases hc : c.capabilities with
  | none => exact ⟨_, rfl⟩
  | some contract =>
    obtain ⟨revisions, hrevisions⟩ := @operationRevisions_ok host c contract
    simp only [transposeM, hrevisions]
    exact ⟨_, rfl⟩

/-- **`compile` accepts exactly the inputs that compose, and reports the answer on them.** -/
theorem compile_eq_ok {input : DecisionInput} {decision : Value} :
    host.compile input = .ok decision ↔ ∃ c answer, Composes host input c ∧
      host.answer c = .ok answer ∧ decision = host.decisionOf answer := by
  simp only [Host.compile, Except.bind_eq_ok_iff, compose_eq_ok, Except.pure_eq_ok_iff]
  constructor
  · rintro ⟨c, hc, answer, hanswer, rfl⟩
    exact ⟨c, answer, hc, hanswer, rfl⟩
  · rintro ⟨c, answer, hc, hanswer, rfl⟩
    exact ⟨c, hc, answer, hanswer, rfl⟩

theorem decisionOf_field {answer : Value} {key : String} (hkind : key ≠ "kind")
    (hid : key ≠ "decision_id") : (host.decisionOf answer).field key = answer.field key := by
  rw [Host.decisionOf, Value.field_insert_of_ne hid, Value.field_insert_of_ne hkind]

/-- The members the claims of a decision are read from. -/
structure Reports (host : Host) (c : Composed) (decision : Value) : Prop where
  ready : decision.field "ready_actions" = .array c.readyActions
  boundary : decision.field "claim_boundary" =
    .object [("allowed", .strings c.allowedClaims), ("blocked", .strings c.blockedClaims)]
  status : decision.field "status" = .string (c.status (host.digest c.revisionInput))
  terminal : decision.field "terminal_authority" = .orNull c.terminalAuthority

theorem answer_field {c : Composed} {answer : Value} (h : host.answer c = .ok answer) :
    Reports host c (host.decisionOf answer) := by
  simp only [Host.answer, Except.bind_eq_ok_iff, Except.pure_eq_ok_iff] at h
  obtain ⟨revisions, -, rfl⟩ := h
  constructor
  all_goals
    rw [decisionOf_field (by decide) (by decide), Value.field, record_get? (by simp)]
    rfl

theorem compile_reports {input : DecisionInput} {decision : Value}
    (h : host.compile input = .ok decision) :
    ∃ c, Composes host input c ∧ Reports host c decision := by
  obtain ⟨c, answer, hc, hanswer, rfl⟩ := compile_eq_ok.mp h
  exact ⟨c, hc, answer_field hanswer⟩

end AgenticCore
