import AgenticCore.ReadyActions

/-!
# Completion

* `Allows`, `Blocks`        : what the relevant contributions say about a claim.
* `Completed`               : an outcome of the input that ends the task.
* `status_terminal_iff`     : the compiler's terminal status is exactly that.
* `Tightens`                : an input with further restrictions.
* `completion`              : allowed claims are authorised and unblocked, terminal status is
                              earned, and no restriction can bring it about.
-/

set_option autoImplicit false

namespace AgenticCore

open Json Text Registry

variable {host : Host} {input : DecisionInput} {c : Composed}

def DecisionInput.Allows (input : DecisionInput) (claim : String) : Prop :=
  ∃ i ∈ input.contributions, i.relevant = true ∧ claim ∈ i.claims.allowed

def DecisionInput.Blocks (input : DecisionInput) (claim : String) : Prop :=
  ∃ i ∈ input.contributions, i.relevant = true ∧ claim ∈ i.claims.blocked

/-- The owner's outcome is the intended one, complete, current and unrestricted. -/
structure Completed (input : DecisionInput) (intended : IntendedOutcome) (i : ContributionInput)
    (o : OutcomeInput) : Prop where
  listed : i ∈ input.contributions
  relevant : i.relevant = true
  owner : trim i.owner = intended.owner
  outcome : i.outcome = some o
  id : trim o.id = intended.id
  claim : trim o.claim = intended.claim
  status : trim o.status = "complete"
  evidence : trim o.evidenceRevision = trim i.revision
  residual : o.residualWork = []
  required : ∀ claim ∈ o.requiredClaims,
    input.Allows claim ∧ ¬input.Blocks claim ∧ ¬input.Restricts s!"claim:{claim}"
  allowed : input.Allows intended.claim
  unblocked : ¬input.Blocks intended.claim
  task : ¬input.Restricts TASK
  claimScope : ¬input.Restricts ("claim:" ++ intended.claim)
  outcomeScope : ¬input.Restricts ("outcome:" ++ intended.id)

/-! ## Claims -/

theorem Composes.mem_blockedClaims (C : Composes host input c) {claim : String} :
    claim ∈ c.blockedClaims ↔ input.Blocks claim := by
  rw [Composed.blockedClaims, mem_sortDedup, List.mem_flatMap]
  constructor
  · rintro ⟨n, hn, hclaim⟩
    obtain ⟨i, hi, hrelevant, K⟩ := C.origin hn
    rw [K.blocked, mem_sortDedup] at hclaim
    exact ⟨i, hi, hrelevant, hclaim⟩
  · rintro ⟨i, hi, hrelevant, hclaim⟩
    obtain ⟨n, hn, K⟩ := C.image hi hrelevant
    exact ⟨n, hn, by rw [K.blocked, mem_sortDedup]; exact hclaim⟩

theorem Composes.mem_allowedClaims (C : Composes host input c) {claim : String} :
    claim ∈ c.allowedClaims ↔ input.Allows claim ∧ ¬input.Blocks claim := by
  rw [Composed.allowedClaims, mem_sortDedup, List.mem_filter, List.mem_flatMap, decide_eq_true_eq,
    C.mem_blockedClaims]
  refine and_congr_left fun hunblocked => ?_
  constructor
  · rintro ⟨n, hn, hclaim⟩
    obtain ⟨i, hi, hrelevant, K⟩ := C.origin hn
    rw [K.allowed, List.mem_filter, mem_sortDedup] at hclaim
    exact ⟨i, hi, hrelevant, hclaim.1⟩
  · rintro ⟨i, hi, hrelevant, hclaim⟩
    obtain ⟨n, hn, K⟩ := C.image hi hrelevant
    refine ⟨n, hn, ?_⟩
    rw [K.allowed, List.mem_filter, mem_sortDedup, decide_eq_true_eq]
    refine ⟨hclaim, fun hblocked => hunblocked ⟨i, hi, hrelevant, ?_⟩⟩
    rwa [K.blocked, mem_sortDedup] at hblocked

theorem sharedOwner_false {l : List NormalizedContribution}
    (hsorted : l.Pairwise fun a b => a.owner ≤ b.owner) (h : sharedOwner l = false) :
    (l.map (·.owner)).Nodup := by
  induction l with
  | nil => simp
  | cons a l ih =>
    rw [List.pairwise_cons] at hsorted
    cases l with
    | nil => simp
    | cons b rest =>
      simp only [sharedOwner, Bool.or_eq_false_iff, beq_eq_false_iff_ne, ne_eq] at h
      rw [List.map_cons, List.nodup_cons]
      refine ⟨fun hmem => ?_, ih hsorted.2 h.2⟩
      obtain ⟨n, hn, heq⟩ := List.mem_map.mp hmem
      have hab : a.owner < b.owner := lt_of_le_of_ne (hsorted.1 b List.mem_cons_self) h.1
      rcases List.mem_cons.mp hn with rfl | hn
      · exact h.1 heq.symm
      · have hbn := (List.pairwise_cons.mp hsorted.2).1 n hn
        exact absurd heq (ne_of_gt (hab.trans_le hbn))

/-- Each source owner contributes at most once. -/
theorem Composes.owners_nodup (C : Composes host input c) :
    (c.relevant.map (·.owner)).Nodup := by
  refine sharedOwner_false ?_ C.single
  obtain ⟨_, _, normalized, -, -, -, -, hsorted⟩ := C.sources
  rw [hsorted]
  have : Std.Total fun a b : NormalizedContribution => a.owner ≤ b.owner :=
    ⟨fun a b => le_total a.owner b.owner⟩
  have : IsTrans NormalizedContribution fun a b => a.owner ≤ b.owner := ⟨fun _ _ _ => le_trans⟩
  exact List.pairwise_insertionSort _ _

theorem Composes.owner_unique (C : Composes host input c) {m n : NormalizedContribution}
    (hm : m ∈ c.relevant) (hn : n ∈ c.relevant) (h : m.owner = n.owner) : m = n :=
  List.inj_on_of_nodup_map C.owners_nodup hm hn h

/-- An allowed claim is its owner's to allow. -/
theorem Composes.authorised_claim (C : Composes host input c) {i : ContributionInput}
    (hi : i ∈ input.contributions) (hrelevant : i.relevant = true) {claim : String}
    (hclaim : claim ∈ i.claims.allowed) : ∃ contract ∈ input.capabilityContract,
      ∀ owner, (claim, owner) ∈ contract.claimEntries ↔ owner = trim i.owner := by
  obtain ⟨n, -, K⟩ := C.image hi hrelevant
  have hbearing : i.authorityBearing = true := by
    cases hallowed : i.claims.allowed with
    | nil => simp [hallowed] at hclaim
    | cons x rest => simp [ContributionInput.authorityBearing, hallowed]
  obtain ⟨declared, hdeclared⟩ := Option.isSome_iff_exists.mp (K.bearing hbearing)
  obtain ⟨k, hk, -⟩ := Option.bind_eq_some_iff.mp hdeclared
  obtain ⟨contract, hcontract, F, rfl⟩ := C.contract_some hk
  have hget : ∀ owner, contract.normal.claimAuthorities[claim]? = some owner ↔
      (claim, owner) ∈ contract.claimEntries := by
    intro owner
    rw [CapabilityContractInput.normal, enter_get F.distinctClaims]
    simp
  refine ⟨contract, hcontract, fun owner => ?_⟩
  rw [← hget, (K.authority _ hk).1 claim hclaim, Option.some.injEq, eq_comm]

/-! ## Terminal status -/

theorem normalizeSemanticRoutes_outcome {intent routed : Value} {routes : Option Value}
    (h : normalizeSemanticRoutes intent = .ok (routed, routes)) :
    routed.get? "outcome" = intent.get? "outcome" := by
  simp only [normalizeSemanticRoutes] at h
  split at h
  · cases h
    rfl
  · simp only [Except.bind_eq_ok_iff, Except.pure_eq_ok_iff] at h
    obtain ⟨_, -, _, -, _, -, _, -, _, -, h⟩ := h
    cases h
    rw [Value.get?_insert_of_ne (by decide), Value.get?_insert_of_ne (by decide),
      Value.get?_insert_of_ne (by decide)]

theorem normalizePublicRequest_outcome {intent result : Value}
    {capabilities : Option NormalizedCapabilityContract} {request : Option NormalizedPublicRequest}
    (h : host.normalizePublicRequest intent capabilities = .ok (result, request)) :
    result.get? "outcome" = intent.get? "outcome" := by
  unfold Host.normalizePublicRequest at h
  split at h
  · cases h
    rfl
  · simp only [Except.bind_eq_ok_iff, Except.pure_eq_ok_iff] at h
    obtain ⟨_, -, h⟩ := h
    cases h
    exact Value.get?_insert_of_ne (by decide) _ _

/-- The intended outcome is the one the intent arrived with. -/
theorem Composes.intended_eq (C : Composes host input c) :
    intendedOutcome input.intent = .ok c.intended := by
  obtain ⟨routed, request, _, hrouted, hrequested, -, -, -⟩ := C.sources
  have h := C.intended
  rw [intendedOutcome, normalizePublicRequest_outcome hrequested,
    normalizeSemanticRoutes_outcome hrouted] at h
  exact h

theorem normalizeOutcome_eq_ok {input : OutcomeInput} {owner : String} {o : NormalizedOutcome}
    (h : normalizeOutcome input owner = .ok o) :
    o = ⟨sortDedup input.requiredClaims, trim input.id, trim input.status, trim input.claim,
      trim input.evidenceRevision, input.residualWork⟩ := by
  simp only [normalizeOutcome, Except.bind_eq_ok_iff, uniqueStrings_eq_ok', requireText_eq_ok,
    strings_eq_ok, Except.pure_eq_ok_iff, Bool.false_eq_true, if_false] at h
  obtain ⟨_, ⟨-, rfl⟩, _, ⟨-, rfl⟩, _, ⟨-, rfl⟩, _, ⟨-, rfl⟩, _, ⟨-, rfl⟩, _, ⟨-, rfl⟩, rfl⟩ := h
  rfl

theorem terminal_isSome_iff : c.terminal.isSome = true ↔ ∃ intended owner outcome,
    c.intended = some intended ∧ c.relevant.find? (·.owner = intended.owner) = some owner ∧
      owner.outcome = some outcome ∧ c.Completes intended owner outcome := by
  simp only [Composed.terminal, Option.bind_eq_bind, Option.isSome_iff_exists,
    Option.bind_eq_some_iff]
  constructor
  · rintro ⟨_, intended, hintended, owner, howner, outcome, houtcome, h⟩
    split at h
    · rename_i hcompletes
      exact ⟨intended, owner, outcome, hintended, howner, houtcome, hcompletes⟩
    · cases h
  · rintro ⟨intended, owner, outcome, hintended, howner, houtcome, hcompletes⟩
    exact ⟨_, intended, hintended, owner, howner, outcome, houtcome, if_pos hcompletes⟩

theorem status_eq_terminal {revision : String} :
    c.status revision = "terminal" ↔ c.terminal.isSome = true := by
  have hsome : c.terminalAuthority.isSome = c.terminal.isSome := by
    simp [Composed.terminalAuthority]
  unfold Composed.status
  rw [hsome]
  constructor
  · intro h
    by_contra hnone
    rw [if_neg hnone] at h
    split at h
    · exact absurd h (by decide)
    split at h
    · exact absurd h (by decide)
    split at h <;> exact absurd h (by decide)
  · intro h
    rw [if_pos h]

theorem Composes.completes_iff (C : Composes host input c) {intended : IntendedOutcome}
    {i : ContributionInput} {o : OutcomeInput} (hi : i ∈ input.contributions)
    (hrelevant : i.relevant = true) (howner : trim i.owner = intended.owner)
    (houtcome : i.outcome = some o) {n : NormalizedContribution} (hrevision : n.revision = trim i.revision) :
    c.Completes intended n ⟨sortDedup o.requiredClaims, trim o.id, trim o.status, trim o.claim,
        trim o.evidenceRevision, o.residualWork⟩ ↔ Completed input intended i o := by
  constructor
  · intro K
    have hclaim : trim o.claim = intended.claim := K.claim
    have hallowed := C.mem_allowedClaims.mp (hclaim ▸ K.allowed)
    exact {
      listed := hi, relevant := hrelevant, owner := howner, outcome := houtcome, id := K.id
      claim := hclaim, status := K.status, evidence := K.evidence.trans hrevision
      residual := K.residual
      required := fun claim hmem => by
        obtain ⟨h₁, h₂, h₃⟩ := K.required claim (mem_sortDedup.mpr hmem)
        exact ⟨(C.mem_allowedClaims.mp h₁).1, (C.mem_allowedClaims.mp h₁).2,
          fun h => h₃ (C.mem_constrained.mpr h)⟩
      allowed := hallowed.1, unblocked := hallowed.2
      task := fun h => K.task (C.mem_constrained.mpr h)
      claimScope := fun h => K.claimScope (C.mem_constrained.mpr h)
      outcomeScope := fun h => K.outcomeScope (C.mem_constrained.mpr h) }
  · intro K
    have hboundary := C.mem_allowedClaims.mpr ⟨K.allowed, K.unblocked⟩
    exact {
      id := K.id, claim := K.claim, status := K.status
      evidence := K.evidence.trans hrevision.symm
      residual := K.residual
      required := fun claim hmem => by
        obtain ⟨h₁, h₂, h₃⟩ := K.required claim (mem_sortDedup.mp hmem)
        exact ⟨C.mem_allowedClaims.mpr ⟨h₁, h₂⟩, fun h => h₂ (C.mem_blockedClaims.mp h),
          fun h => h₃ (C.mem_constrained.mp h)⟩
      allowed := by
        show trim o.claim ∈ c.allowedClaims
        rw [K.claim]
        exact hboundary
      unblocked := by
        show trim o.claim ∉ c.blockedClaims
        rw [K.claim]
        exact fun h => K.unblocked (C.mem_blockedClaims.mp h)
      task := fun h => K.task (C.mem_constrained.mp h)
      claimScope := fun h => K.claimScope (C.mem_constrained.mp h)
      outcomeScope := fun h => K.outcomeScope (C.mem_constrained.mp h) }

/-- **Terminal status is exactly a completed intended outcome of the input.** -/
theorem Composes.status_terminal_iff (C : Composes host input c) {revision : String} :
    c.status revision = "terminal" ↔ ∃ intended i o, c.intended = some intended ∧
      Completed input intended i o := by
  rw [status_eq_terminal, terminal_isSome_iff]
  constructor
  · rintro ⟨intended, n, outcome, hintended, hfind, houtcome, hcompletes⟩
    obtain ⟨i, hi, hrelevant, K⟩ := C.origin (List.mem_of_find?_eq_some hfind)
    have howner : n.owner = intended.owner := by simpa using List.find?_some hfind
    have hout := K.outcome
    rw [houtcome, transposeM_eq_ok] at hout
    rcases hout with ⟨-, hnone⟩ | ⟨o, o', ho, hnormal, hsome⟩
    · cases hnone
    · obtain rfl : outcome = o' := Option.some.inj hsome
      rw [normalizeOutcome_eq_ok hnormal] at hcompletes
      exact ⟨intended, i, o, hintended, (C.completes_iff hi hrelevant
        (K.owner.symm.trans howner) ho K.revision).mp hcompletes⟩
  · rintro ⟨intended, i, o, hintended, K⟩
    obtain ⟨n, hn, N⟩ := C.image K.listed K.relevant
    have howner : n.owner = intended.owner := N.owner.trans K.owner
    have hfind : c.relevant.find? (·.owner = intended.owner) = some n := by
      cases h : c.relevant.find? (·.owner = intended.owner) with
      | none =>
        have := List.find?_eq_none.mp h n hn
        simp [howner] at this
      | some m =>
        have hm : m.owner = intended.owner := by simpa using List.find?_some h
        rw [C.owner_unique (List.mem_of_find?_eq_some h) hn (hm.trans howner.symm)]
    have hout := N.outcome
    rw [K.outcome, transposeM_eq_ok] at hout
    rcases hout with ⟨hnone, -⟩ | ⟨o', outcome, ho, hnormal, hsome⟩
    · cases hnone
    · obtain rfl : o = o' := Option.some.inj ho
      refine ⟨intended, n, outcome, hintended, hfind, hsome, ?_⟩
      rw [normalizeOutcome_eq_ok hnormal]
      exact (C.completes_iff K.listed K.relevant K.owner K.outcome N.revision).mpr K

/-! ## Further restrictions -/

/-- The same contribution with further blockers, bounded decisions or blocked claims. -/
structure ContributionInput.Tightens (small large : ContributionInput) : Prop where
  rest : { large with
    blockers := small.blockers, decisions := small.decisions
    claims := ⟨large.claims.allowed, small.claims.blocked⟩ } = small
  blockers : small.blockers ⊆ large.blockers
  decisions : small.decisions ⊆ large.decisions
  blocked : small.claims.blocked ⊆ large.claims.blocked

/-- The same contract and intent with further restrictions, by the same contributions or by
    added ones that allow and complete nothing. -/
structure DecisionInput.Tightens (small large : DecisionInput) : Prop where
  contract : large.capabilityContract = small.capabilityContract
  intent : large.intent = small.intent
  contributions : ∃ extended added, large.contributions.Perm (extended ++ added) ∧
    List.Forall₂ ContributionInput.Tightens small.contributions extended ∧
    ∀ i ∈ added, i.claims.allowed = [] ∧ i.outcome = none

namespace ContributionInput.Tightens

variable {small large : ContributionInput} (T : small.Tightens large)
include T

theorem relevant : large.relevant = small.relevant := by rw [← T.rest]

theorem owner : large.owner = small.owner := by rw [← T.rest]

theorem revision : large.revision = small.revision := by rw [← T.rest]

theorem outcome : large.outcome = small.outcome := by rw [← T.rest]

theorem allowed : large.claims.allowed = small.claims.allowed := by rw [← T.rest]

end ContributionInput.Tightens

namespace DecisionInput.Tightens

variable {small large : DecisionInput} (T : small.Tightens large)
include T

/-- Every contribution has its tightened form. -/
theorem image {i : ContributionInput} (hi : i ∈ small.contributions) :
    ∃ j ∈ large.contributions, i.Tightens j := by
  obtain ⟨extended, added, hperm, hall, -⟩ := T.contributions
  obtain ⟨j, hj, hij⟩ := List.Forall₂.exists_right hall i hi
  exact ⟨j, hperm.mem_iff.mpr (List.mem_append_left _ hj), hij⟩

/-- A contribution that allows or completes something is the tightened form of one. -/
theorem origin {j : ContributionInput} (hj : j ∈ large.contributions)
    (hallows : j.claims.allowed ≠ [] ∨ j.outcome ≠ none) : ∃ i ∈ small.contributions, i.Tightens j := by
  obtain ⟨extended, added, hperm, hall, hadded⟩ := T.contributions
  rcases List.mem_append.mp (hperm.mem_iff.mp hj) with hj | hj
  · exact List.Forall₂.exists_left hall j hj
  · obtain ⟨hclaims, houtcome⟩ := hadded j hj
    rcases hallows with h | h
    · exact absurd hclaims h
    · exact absurd houtcome h

theorem restricts {scope : String} (h : small.Restricts scope) : large.Restricts scope := by
  obtain ⟨i, hi, hrelevant, hscope⟩ := h
  obtain ⟨j, hj, K⟩ := T.image hi
  refine ⟨j, hj, K.relevant.trans hrelevant, ?_⟩
  rcases hscope with ⟨b, hb, hscope⟩ | ⟨d, hd, hscope⟩
  · exact Or.inl ⟨b, K.blockers hb, hscope⟩
  · exact Or.inr ⟨d, K.decisions hd, hscope⟩

theorem blocks {claim : String} (h : small.Blocks claim) : large.Blocks claim := by
  obtain ⟨i, hi, hrelevant, hclaim⟩ := h
  obtain ⟨j, hj, K⟩ := T.image hi
  exact ⟨j, hj, K.relevant.trans hrelevant, K.blocked hclaim⟩

theorem allows {claim : String} (h : large.Allows claim) : small.Allows claim := by
  obtain ⟨j, hj, hrelevant, hclaim⟩ := h
  obtain ⟨i, hi, K⟩ := T.origin hj (Or.inl (List.ne_nil_of_mem hclaim))
  exact ⟨i, hi, K.relevant.symm.trans hrelevant, K.allowed ▸ hclaim⟩

/-- What is completed under more restrictions is completed under fewer. -/
theorem completed {intended : IntendedOutcome} {j : ContributionInput} {o : OutcomeInput}
    (K : Completed large intended j o) : ∃ i, Completed small intended i o := by
  have houtcome := K.outcome
  obtain ⟨i, hi, R⟩ := T.origin K.listed (Or.inr (by simp [houtcome]))
  exact ⟨i, {
    listed := hi
    relevant := R.relevant.symm.trans K.relevant
    owner := by rw [← R.owner]; exact K.owner
    outcome := R.outcome.symm.trans K.outcome
    id := K.id, claim := K.claim, status := K.status
    evidence := by rw [← R.revision]; exact K.evidence
    residual := K.residual
    required := fun claim hclaim => by
      obtain ⟨h₁, h₂, h₃⟩ := K.required claim hclaim
      exact ⟨T.allows h₁, fun h => h₂ (T.blocks h), fun h => h₃ (T.restricts h)⟩
    allowed := T.allows K.allowed
    unblocked := fun h => K.unblocked (T.blocks h)
    task := fun h => K.task (T.restricts h)
    claimScope := fun h => K.claimScope (T.restricts h)
    outcomeScope := fun h => K.outcomeScope (T.restricts h) }⟩

end DecisionInput.Tightens

/-- **Completion is neither forged nor un-vetoed.** Every allowed claim is allowed by the relevant
contribution of the one owner the contract gives it to, and blocked by none; terminal status comes
from a completed outcome of the intended claim's one owner; and further restrictions never bring
it about. -/
theorem completion {host : Host} {input : DecisionInput} {decision : Value}
    (h : host.compile input = .ok decision) :
    (∃ allowed, (decision.field "claim_boundary").field "allowed" = .strings allowed ∧
      ∀ claim ∈ allowed, ¬input.Blocks claim ∧ ∃ contract ∈ input.capabilityContract,
        ∃ i ∈ input.contributions, i.relevant = true ∧ claim ∈ i.claims.allowed ∧
          ∀ owner, (claim, owner) ∈ contract.claimEntries ↔ owner = trim i.owner) ∧
      (decision.field "status" = .string "terminal" →
        ∃ contract ∈ input.capabilityContract, ∃ intended i o,
          intendedOutcome input.intent = .ok (some intended) ∧
            (∀ owner, (intended.claim, owner) ∈ contract.claimEntries ↔ owner = intended.owner) ∧
            Completed input intended i o) ∧
      ∀ larger decision', input.Tightens larger → host.compile larger = .ok decision' →
        decision'.field "status" = .string "terminal" →
          decision.field "status" = .string "terminal" := by
  obtain ⟨c, C, R⟩ := compile_reports h
  refine ⟨⟨c.allowedClaims, by rw [R.boundary]; rfl, fun claim hclaim => ?_⟩, fun hstatus => ?_, ?_⟩
  · obtain ⟨⟨i, hi, hrelevant, hallowed⟩, hunblocked⟩ := C.mem_allowedClaims.mp hclaim
    obtain ⟨contract, hcontract, howner⟩ := C.authorised_claim hi hrelevant hallowed
    exact ⟨hunblocked, contract, hcontract, i, hi, hrelevant, hallowed, howner⟩
  · rw [R.status, Value.string.injEq, C.status_terminal_iff] at hstatus
    obtain ⟨intended, i, o, hintended, K⟩ := hstatus
    have hauthorised := C.authorised intended hintended
    simp only [checkIntended, Except.bind_eq_ok_iff, okOr_eq_ok, check_eq_ok] at hauthorised
    obtain ⟨k, hk, hclaim⟩ := hauthorised
    obtain ⟨contract, hcontract, F, rfl⟩ := C.contract_some hk
    refine ⟨contract, hcontract, intended, i, o, ?_, fun owner => ?_, K⟩
    · rw [C.intended_eq, hintended]
    · have hget : contract.normal.claimAuthorities[intended.claim]? = some owner ↔
          (intended.claim, owner) ∈ contract.claimEntries := by
        rw [CapabilityContractInput.normal, enter_get F.distinctClaims]
        simp
      rw [← hget, hclaim, Option.some.injEq, eq_comm]
  · intro larger decision' T hdecision' hstatus'
    obtain ⟨c', C', R'⟩ := compile_reports hdecision'
    rw [R'.status, Value.string.injEq, C'.status_terminal_iff] at hstatus'
    obtain ⟨intended, j, o, hintended, K⟩ := hstatus'
    obtain ⟨i, K'⟩ := T.completed K
    rw [R.status, Value.string.injEq, C.status_terminal_iff]
    have heq : c.intended = c'.intended := by
      have := C'.intended_eq
      rw [T.intent, C.intended_eq] at this
      exact Except.ok.inj this
    exact ⟨intended, i, o, heq.trans hintended, K'⟩

/-! ### A completed task -/

def terminalInput : DecisionInput where
  contributions := [{ sampleContribution "a" with
    actions := []
    claims := ⟨["done"], []⟩
    outcome := some {
      requiredClaims := ["done"], id := "o1", status := "complete", claim := "done"
      evidenceRevision := "c1", residualWork := [] } }]
  decisionContext := none
  intent := .object [("outcome",
    .object [("claim", .string "done"), ("id", .string "o1"), ("owner", .string "a")])]
  capabilityContract := some { sampleContract with claimAuthorities := [⟨"done", "a"⟩] }

theorem terminalInput_status : (sampleHost.compile terminalInput).toOption.map (·.field "status") =
    some (.string "terminal") := by
  decide

theorem completion_terminal :
    ∃ intended i o, intendedOutcome terminalInput.intent = .ok (some intended) ∧
      Completed terminalInput intended i o := by
  cases h : sampleHost.compile terminalInput with
  | error e =>
    have hstatus := terminalInput_status
    rw [h] at hstatus
    cases hstatus
  | ok decision =>
    have hstatus := terminalInput_status
    rw [h] at hstatus
    obtain ⟨_, -, intended, i, o, hintended, -, K⟩ := (completion h).2.1 (Option.some.inj hstatus)
    exact ⟨intended, i, o, hintended, K⟩

end AgenticCore
