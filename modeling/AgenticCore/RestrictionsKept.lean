import AgenticCore.ResolveSelected
import AgenticCore.ReadyActions

/-!
# Which restrictions of the owners reach the decision

* `Blocks`               : the blockers the owner views contribute.
* `owed`                 : what an allowed discharge leaves of one of them.
* `Kept`                 : everything owed is part of a relevant contribution of its owner.
* `kept_constrained`     : what is kept is restricted in the decision.
* `restrictions_kept_iff`: **the merge keeps every owed restriction exactly when no view's
  blockers are overwritten**.
-/

set_option autoImplicit false

namespace AgenticCore.NativePublic

open Json Text

variable {host : Host} {v : Views} {rest : Rest}

/-! ## What the views say -/

/-- The blockers of Memory's views, in the order in which the merge meets them. -/
def MemoryParts.blocking (parts : MemoryParts) : List (Option (List BlockerInput)) :=
  [parts.disposition.bind (·.drawn.blockers), parts.capture.drawn.blockers,
    parts.advisoryCapture.drawn.blockers]

/-- A blocker that an owner's view contributes. -/
inductive Blocks (v : Views) : String → BlockerInput → Prop
  | resources {b : BlockerInput} : b ∈ v.resources.blockers → Blocks v "workspace-resources" b
  | configuration {b : BlockerInput} :
    b ∈ v.configuration.contribution.blockers → Blocks v "workspace" b
  | configWrite {b : BlockerInput} : b ∈ v.revalidated.blockers → Blocks v "configuration" b
  | repositoryCapture {b : BlockerInput} {capture : Capture} {bs : List BlockerInput} :
    v.repositoryCapture = some capture → capture.drawn.blockers = some bs → b ∈ bs →
      Blocks v DECISIONS b
  | planning {b : BlockerInput} {view : OwnerView "planning"} :
    v.planning = some view → b ∈ view.contribution.blockers → Blocks v "planning" b
  | verification {b : BlockerInput} :
    b ∈ v.verification.contribution.blockers → Blocks v "verification" b
  | startupAdapter {b : BlockerInput} :
    b ∈ v.startupAdapter.contribution.blockers → Blocks v "startup-adapter" b
  | assignment {b : BlockerInput} :
    b ∈ v.assignment.contribution.blockers → Blocks v "assignment" b
  | systemIntent {b : BlockerInput} :
    b ∈ v.systemIntent.contribution.blockers → Blocks v "system-intent" b
  | memory {b : BlockerInput} {parts : MemoryParts} {bs : List BlockerInput} :
    v.memoryParts = some parts → some bs ∈ parts.blocking → b ∈ bs → Blocks v "memory" b
  | independent {b : BlockerInput} {c : IndependentContribution} :
    c ∈ v.independents → b ∈ c.contribution.blockers → Blocks v c.contribution.owner b
  | instructions {b : BlockerInput} :
    b ∈ v.instructions.contribution.blockers → Blocks v "scoped-instructions" b

/-- An exact Planning update, recovery, adoption or handoff is offered. -/
def Views.planningOffered (v : Views) : Bool := v.updateAction.isSome || v.planningAction.isSome

/-- An instruction's blocker loses its completion scope once all its checks are current, and is
    settled once its source is reconciled. -/
def owedInstruction (v : Views) (b : BlockerInput) : Option BlockerInput :=
  match v.verificationParts with
  | none => some b
  | some parts =>
    if parts.reconciliation.current ∧ endsWith RECONCILIATION_REQUIRED b.code then none
    else if ∃ source ∈ v.sources, parts.settles source ∧ b.code = currentBinding source then
      let affects := b.affects.filter (· ≠ "claim:complete")
      if affects = [] then none else some { b with affects }
    else some b

/-- What the allowed exceptions leave of an owner's blocker. -/
def owed (v : Views) (owner : String) (b : BlockerInput) : Option BlockerInput :=
  if owner = "planning" then if v.planningOffered then none else some b
  else if owner = "workspace" then some (v.narrowed b)
  else if owner = "assignment" then
    if v.admission.resultUseAllowed ∧ b.code = Views.NONLOCAL_HANDOFF then none else some b
  else if owner = "scoped-instructions" then owedInstruction v b
  else some b

/-- A relevant contribution of the owner has the blocker. -/
def Holds (cs : List ContributionInput) (owner : String) (b : BlockerInput) : Prop :=
  ∃ c ∈ cs, c.owner = owner ∧ c.relevant = true ∧ b ∈ c.blockers

/-- **Composition drops no restriction.** -/
def Kept (v : Views) (cs : List ContributionInput) : Prop :=
  ∀ owner b, Blocks v owner b → ∀ b' ∈ owed v owner b, Holds cs owner b'

/-- Every scope of what is owed is restricted in a decision. -/
def Constrains (v : Views) (c : Composed) : Prop :=
  ∀ owner b, Blocks v owner b → ∀ b' ∈ owed v owner b, ∀ scope ∈ b'.affects, scope ∈ c.constrained

/-! ## What the merge spares -/

/-- The blockers of the last of Memory's views that blocks. -/
def MemoryParts.lastBlockers (parts : MemoryParts) : List BlockerInput :=
  (parts.advisoryCapture.drawn.blockers.or (parts.capture.drawn.blockers.or
    (parts.disposition.bind (·.drawn.blockers)))).getD []

/-- Something makes Memory's contribution relevant. -/
def MemoryParts.heard (parts : MemoryParts) (relevant : Bool) : Bool :=
  relevant || parts.capture.current || parts.capture.drawn.blockers.isSome ||
    parts.advisoryCapture.current || parts.advisoryCapture.drawn.blockers.isSome ||
    parts.retention.isSome || parts.candidates.any (·.relevant) || parts.learning.isSome

/-- No view's blockers are overwritten by another's, unless they are there again. -/
structure Spared (host : Host) (v : Views) : Prop where
  /-- No independent owner's settings are missing while the Configuration writer restricts. -/
  configuration : v.missing ≠ [] → ∀ b ∈ v.revalidated.blockers,
    b ∈ v.missing.map (v.configurationRequired host)
  /-- The other Memory views block with the last blocking one, and Memory is relevant. -/
  memory : ∀ parts ∈ v.memoryParts, ∀ bs, some bs ∈ parts.blocking → ∀ b ∈ bs,
    b ∈ parts.lastBlockers ∧ parts.heard v.memory.relevant = true
  /-- A repository capture does not block while the decision source has a problem. -/
  decisions : ∀ problem ∈ v.decisionSourceProblem, ∀ capture ∈ v.repositoryCapture,
    ∀ bs ∈ capture.drawn.blockers, ∀ b ∈ bs, b = v.problemBlocker host problem
  /-- Planning does not block while an update is pending and no action is offered. -/
  planning : v.update.pending = true → v.planningOffered = false → ∀ view ∈ v.planning,
    ∀ b ∈ view.contribution.blockers, b = Views.UPDATE_PENDING ∨
      (v.adopted.unresolved.isSome ∨ v.retainedHandoff.unresolved.isSome) ∧
        b = v.unresolvedBlocker host
  /-- No standing evidence discharges an assurance blocker. -/
  verification : ∀ parts ∈ v.verificationParts, ∀ e ∈ parts.standing.entries,
    e.discharges = true → ∀ b ∈ v.verification.contribution.blockers, e.covers b = false

/-! ## Changing one owner's contribution -/

theorem updateOwner_split {owner : String} {f : ContributionInput → ContributionInput}
    {front back : List ContributionInput} {c : ContributionInput}
    (hfront : ∀ d ∈ front, d.owner ≠ owner) (hc : c.owner = owner) :
    updateOwner owner f (front ++ c :: back) = .ok (front ++ f c :: back) := by
  induction front with
  | nil =>
    rw [List.nil_append, updateOwner, if_pos hc]
    rfl
  | cons d front ih =>
    rw [List.forall_mem_cons] at hfront
    rw [List.cons_append, updateOwner, if_neg hfront.1, ih hfront.2]
    rfl

theorem updateOwner_eq_ok {owner : String} {f : ContributionInput → ContributionInput}
    {cs cs' : List ContributionInput} (h : updateOwner owner f cs = .ok cs') :
    ∃ front c back, c.owner = owner ∧ cs = front ++ c :: back ∧ cs' = front ++ f c :: back := by
  induction cs generalizing cs' with
  | nil => cases h
  | cons d cs ih =>
    rw [updateOwner] at h
    split at h
    · rename_i hd
      cases h
      exact ⟨[], d, cs, hd, rfl, rfl⟩
    · cases hrest : updateOwner owner f cs with
      | error problem =>
        rw [hrest] at h
        cases h
      | ok cs'' =>
        rw [hrest] at h
        cases h
        obtain ⟨front, c, back, hc, rfl, rfl⟩ := ih hrest
        exact ⟨d :: front, c, back, hc, rfl, rfl⟩

/-- A list with at most one contribution of an owner, and what an accepted change makes of it. -/
theorem updateOwner_option {owner : String} {f : ContributionInput → ContributionInput}
    {front back cs : List ContributionInput} {p : Option ContributionInput}
    (hfront : ∀ d ∈ front, d.owner ≠ owner) (hback : ∀ d ∈ back, d.owner ≠ owner)
    (hp : ∀ c ∈ p, c.owner = owner)
    (h : updateOwner owner f (front ++ p.toList ++ back) = .ok cs) :
    cs = front ++ (p.map f).toList ++ back := by
  cases p with
  | none =>
    obtain ⟨_, c, _, hc, heq, -⟩ := updateOwner_eq_ok h
    have hmem : c ∈ front ++ [] ++ back := by
      rw [Option.toList_none] at heq
      rw [heq]
      simp
    rw [List.append_nil, List.mem_append] at hmem
    rcases hmem with hmem | hmem
    · exact absurd hc (hfront c hmem)
    · exact absurd hc (hback c hmem)
  | some c =>
    simp only [Option.toList_some, List.append_assoc, List.singleton_append] at h
    rw [updateOwner_split hfront (hp c rfl), Except.ok.injEq] at h
    simp [← h]

/-! ## The merged contributions -/

namespace Views

variable (host v)

/-- Planning's contribution after its update. -/
def updated (c : ContributionInput) : ContributionInput :=
  let c := if v.update.pending then { c with blockers := [UPDATE_PENDING], settled := false } else c
  v.updateAction.elim c (offer host c)

/-- Planning's contribution after the result's adoption or the handoff's retention. -/
def continued (c : ContributionInput) : ContributionInput :=
  let c := v.planningAction.elim c (offer host c)
  if v.adopted.unresolved.isSome ∨ v.retainedHandoff.unresolved.isSome then
    { c with blockers := c.blockers ++ [v.unresolvedBlocker host], settled := false }
  else c

def planningContribution (c : ContributionInput) : ContributionInput :=
  let c := v.updated host c
  let c := v.planningRetention.elim c (addAction host c)
  v.continued host (v.creation.actions.elim c (v.created host c))

/-- What stands before Planning. -/
def front : List ContributionInput :=
  [v.resources, v.configurationContribution, v.configWriteContribution host] ++
    v.decisionContributions host

/-- What follows Planning. -/
def back : List ContributionInput :=
  [v.verificationContribution host, v.startupAdapter.contribution, v.delegationContribution,
    v.assignmentContribution host, v.systemIntent.contribution, v.memoryContribution host] ++
    v.independents.map (·.contribution)

/-- The merged contributions, with Planning's and the instructions' in their places. -/
def merged : List ContributionInput :=
  v.front host ++
    (v.planning.map fun view => v.planningContribution host view.contribution).toList ++
    v.back host ++ [v.instructionsContribution]

end Views

/-! ## Owners -/

section Owners

@[simp] theorem restrict_owner (c : ContributionInput) : (restrict c).owner = c.owner := by
  unfold restrict
  split <;> rfl

@[simp] theorem restrict_relevant (c : ContributionInput) :
    (restrict c).relevant = c.relevant := by
  unfold restrict
  split <;> rfl

@[simp] theorem addAction_owner (c : ContributionInput) (offered : Offered) :
    (addAction host c offered).owner = c.owner := rfl

@[simp] theorem addAction_relevant (c : ContributionInput) (offered : Offered) :
    (addAction host c offered).relevant = c.relevant := rfl

@[simp] theorem addAction_blockers (c : ContributionInput) (offered : Offered) :
    (addAction host c offered).blockers = c.blockers := rfl

@[simp] theorem offer_owner (c : ContributionInput) (offered : Offered) :
    (offer host c offered).owner = c.owner := rfl

@[simp] theorem offer_relevant (c : ContributionInput) (offered : Offered) :
    (offer host c offered).relevant = c.relevant := rfl

@[simp] theorem offer_blockers (c : ContributionInput) (offered : Offered) :
    (offer host c offered).blockers = [] := rfl

@[simp] theorem configurationContribution_owner :
    v.configurationContribution.owner = "workspace" := v.configuration.owned

@[simp] theorem revalidated_owner : v.revalidated.owner = "configuration" := by
  unfold Views.revalidated
  split
  · rw [restrict_owner]
    exact v.configWrite.owned
  · exact v.configWrite.owned

@[simp] theorem configWriteContribution_owner :
    (v.configWriteContribution host).owner = "configuration" := by
  unfold Views.configWriteContribution
  split
  · exact revalidated_owner
  · exact revalidated_owner

theorem decisionContributions_owner {c : ContributionInput}
    (h : c ∈ v.decisionContributions host) : c.owner = DECISIONS := by
  unfold Views.decisionContributions at h
  split at h
  · rw [Option.mem_toList, Option.map_eq_some_iff] at h
    obtain ⟨capture, -, rfl⟩ := h
    rfl
  · rw [List.mem_singleton] at h
    subst h
    rfl

@[simp] theorem updated_owner (c : ContributionInput) : (v.updated host c).owner = c.owner := by
  unfold Views.updated
  cases v.updateAction <;> dsimp only [Option.elim] <;> split <;> rfl

@[simp] theorem created_owner (c : ContributionInput) :
    (v.creation.actions.elim c (v.created host c)).owner = c.owner := by
  cases v.creation.actions <;> rfl

@[simp] theorem retained_owner (c : ContributionInput) :
    (v.planningRetention.elim c (addAction host c)).owner = c.owner := by
  cases v.planningRetention <;> rfl

@[simp] theorem continued_owner (c : ContributionInput) :
    (v.continued host c).owner = c.owner := by
  unfold Views.continued
  cases v.planningAction <;> dsimp only [Option.elim] <;> split <;> rfl

@[simp] theorem planningContribution_owner (c : ContributionInput) :
    (v.planningContribution host c).owner = c.owner := by
  simp [Views.planningContribution]

@[simp] theorem verificationContribution_owner :
    (v.verificationContribution host).owner = "verification" := by
  unfold Views.verificationContribution
  split
  · exact v.verification.owned
  · rename_i parts _
    unfold applyStanding applyReconciliation applyProofRetention
    cases parts.retention.action <;> dsimp only [Option.elim] <;> split <;>
      exact v.verification.owned

@[simp] theorem delegationContribution_owner :
    v.delegationContribution.owner = "delegation" := by
  unfold Views.delegationContribution
  cases v.retirement <;> cases v.settlement <;> exact v.delegation_owned

@[simp] theorem assignmentContribution_owner :
    (v.assignmentContribution host).owner = "assignment" := by
  unfold Views.assignmentContribution Views.implementationAdmission
  cases v.assigned <;> cases v.integration <;> dsimp only [Option.elim] <;>
    split <;> (try split) <;> (try split) <;> exact v.assignment.owned

@[simp] theorem instructionsContribution_owner :
    v.instructionsContribution.owner = "scoped-instructions" := v.instructions.owned

end Owners

/-! ## Memory's views in turn -/

section Memory

@[simp] theorem applyCapture_owner (c : ContributionInput) (capture : Capture) :
    (applyCapture c capture).owner = c.owner := by
  unfold applyCapture extendCapture
  cases capture.drawn.blockers <;> dsimp only <;> split <;> rfl

@[simp] theorem applyCapture_relevant (c : ContributionInput) (capture : Capture) :
    (applyCapture c capture).relevant =
      (c.relevant || capture.current || capture.drawn.blockers.isSome) := by
  unfold applyCapture extendCapture
  cases capture.drawn.blockers with
  | some blockers => simp
  | none =>
    dsimp only
    split
    · rename_i hcurrent
      simp [hcurrent]
    · rename_i hcurrent
      simp [hcurrent]

@[simp] theorem applyCapture_blockers (c : ContributionInput) (capture : Capture) :
    (applyCapture c capture).blockers = capture.drawn.blockers.getD c.blockers := by
  unfold applyCapture extendCapture
  cases capture.drawn.blockers with
  | some blockers => rfl
  | none =>
    dsimp only
    split <;> rfl

variable (c : ContributionInput)

@[simp] theorem disposed_owner (disposition : Option Disposition) :
    (disposition.elim c (applyView c)).owner = c.owner := by
  cases disposition <;> rfl

@[simp] theorem disposed_relevant (disposition : Option Disposition) :
    (disposition.elim c (applyView c)).relevant = c.relevant := by
  cases disposition <;> rfl

@[simp] theorem disposed_blockers (disposition : Option Disposition) :
    (disposition.elim c (applyView c)).blockers =
      (disposition.bind (·.drawn.blockers)).getD c.blockers := by
  cases disposition <;> rfl

@[simp] theorem retention_owner (retention : Option Offered) :
    (retention.elim c (applyRetention host c)).owner = c.owner := by
  cases retention <;> rfl

@[simp] theorem retention_relevant (retention : Option Offered) :
    (retention.elim c (applyRetention host c)).relevant = (c.relevant || retention.isSome) := by
  cases retention <;> simp [applyRetention]

@[simp] theorem retention_blockers (retention : Option Offered) :
    (retention.elim c (applyRetention host c)).blockers = c.blockers := by
  cases retention <;> rfl

@[simp] theorem candidates_owner (candidates : Option Candidates) :
    (candidates.elim c (applyCandidates c)).owner = c.owner := by
  cases candidates <;> rfl

@[simp] theorem candidates_relevant (candidates : Option Candidates) :
    (candidates.elim c (applyCandidates c)).relevant =
      (c.relevant || candidates.any (·.relevant)) := by
  cases candidates <;> simp [applyCandidates]

@[simp] theorem candidates_blockers (candidates : Option Candidates) :
    (candidates.elim c (applyCandidates c)).blockers = c.blockers := by
  cases candidates <;> rfl

@[simp] theorem learning_owner (learning : Option Learning) :
    (learning.elim c (applyLearning c)).owner = c.owner := by
  cases learning <;> rfl

@[simp] theorem learning_relevant (learning : Option Learning) :
    (learning.elim c (applyLearning c)).relevant = (c.relevant || learning.isSome) := by
  cases learning <;> simp [applyLearning]

@[simp] theorem learning_blockers (learning : Option Learning) :
    (learning.elim c (applyLearning c)).blockers = c.blockers := by
  cases learning <;> rfl

@[simp] theorem memoryContribution_owner : (v.memoryContribution host).owner = "memory" := by
  unfold Views.memoryContribution
  split
  · exact v.memory_owned
  · simp [v.memory_owned]

theorem memoryContribution_relevant {parts : MemoryParts} (hparts : v.memoryParts = some parts) :
    (v.memoryContribution host).relevant = parts.heard v.memory.relevant := by
  simp [Views.memoryContribution, hparts, MemoryParts.heard, Bool.or_assoc]

/-- Memory's contribution has the blockers of the last of its views that blocks. -/
theorem memoryContribution_blockers {parts : MemoryParts} (hparts : v.memoryParts = some parts) :
    (v.memoryContribution host).blockers = parts.lastBlockers := by
  simp only [Views.memoryContribution, hparts, learning_blockers, candidates_blockers,
    retention_blockers, applyCapture_blockers, disposed_blockers, v.memory_silent,
    MemoryParts.lastBlockers]
  cases parts.advisoryCapture.drawn.blockers with
  | some blockers => rfl
  | none => cases parts.capture.drawn.blockers <;> rfl

end Memory

/-! ## The blockers of the other merged contributions -/

@[simp] theorem updated_relevant (c : ContributionInput) :
    (v.updated host c).relevant = c.relevant := by
  unfold Views.updated
  cases v.updateAction <;> dsimp only [Option.elim] <;> split <;> rfl

@[simp] theorem updated_blockers (c : ContributionInput) :
    (v.updated host c).blockers =
      if v.updateAction.isSome then [] else if v.update.pending then [Views.UPDATE_PENDING]
        else c.blockers := by
  unfold Views.updated
  cases v.updateAction with
  | some action => rfl
  | none =>
    dsimp only [Option.elim]
    split <;> rfl

@[simp] theorem created_relevant (c : ContributionInput) :
    (v.creation.actions.elim c (v.created host c)).relevant = c.relevant := by
  cases v.creation.actions <;> rfl

@[simp] theorem created_blockers (c : ContributionInput) :
    (v.creation.actions.elim c (v.created host c)).blockers = c.blockers := by
  cases v.creation.actions <;> rfl

@[simp] theorem retained_relevant (c : ContributionInput) :
    (v.planningRetention.elim c (addAction host c)).relevant = c.relevant := by
  cases v.planningRetention <;> rfl

@[simp] theorem retained_blockers (c : ContributionInput) :
    (v.planningRetention.elim c (addAction host c)).blockers = c.blockers := by
  cases v.planningRetention <;> rfl

@[simp] theorem continued_relevant (c : ContributionInput) :
    (v.continued host c).relevant = c.relevant := by
  unfold Views.continued
  cases v.planningAction <;> dsimp only [Option.elim] <;> split <;> rfl

@[simp] theorem continued_blockers (c : ContributionInput) :
    (v.continued host c).blockers =
      (if v.planningAction.isSome then [] else c.blockers) ++
      (if v.adopted.unresolved.isSome ∨ v.retainedHandoff.unresolved.isSome then
        [v.unresolvedBlocker host] else []) := by
  unfold Views.continued
  cases v.planningAction with
  | some action =>
    dsimp only [Option.elim]
    split <;> rfl
  | none =>
    dsimp only [Option.elim]
    split
    · rfl
    · simp

theorem planningContribution_relevant (c : ContributionInput) :
    (v.planningContribution host c).relevant = c.relevant := by
  simp [Views.planningContribution]

/-- An offered action replaces Planning's blockers, and so does a pending update. -/
theorem planningContribution_blockers (c : ContributionInput) :
    (v.planningContribution host c).blockers =
      (if v.planningOffered then [] else if v.update.pending then [Views.UPDATE_PENDING]
        else c.blockers) ++
      (if v.adopted.unresolved.isSome ∨ v.retainedHandoff.unresolved.isSome then
        [v.unresolvedBlocker host] else []) := by
  simp only [Views.planningContribution, continued_blockers, created_blockers, retained_blockers,
    updated_blockers, Views.planningOffered, Bool.or_eq_true]
  congr 1
  by_cases haction : v.planningAction.isSome = true
  · simp [haction]
  · simp [haction]

theorem assignmentContribution_relevant : (v.assignmentContribution host).relevant = true := by
  unfold Views.assignmentContribution Views.implementationAdmission
  cases v.assigned <;> cases v.integration <;> dsimp only [Option.elim] <;>
    split <;> (try split) <;> (try split) <;> exact v.assignment.relevant

theorem implementationAdmission_blockers {c : ContributionInput} {assigned : Assigned}
    {b : BlockerInput} (hb : b ∈ c.blockers) :
    b ∈ (v.implementationAdmission host c assigned).blockers := by
  unfold Views.implementationAdmission
  split
  · dsimp only
    split
    · exact List.mem_append_left _ hb
    · exact hb
  · exact hb

theorem mem_assignmentContribution {b : BlockerInput}
    (hb : b ∈ v.assignment.contribution.blockers)
    (hkept : ¬ (v.admission.resultUseAllowed = true ∧ b.code = Views.NONLOCAL_HANDOFF)) :
    b ∈ (v.assignmentContribution host).blockers := by
  have hused : b ∈ (if v.admission.resultUseAllowed then
      { v.assignment.contribution with
        blockers := v.assignment.contribution.blockers.filter (·.code ≠ Views.NONLOCAL_HANDOFF)
        revision := revised host v.assignment.contribution.revision v.admission.value }
      else v.assignment.contribution).blockers := by
    split
    · rename_i huse
      refine List.mem_filter.mpr ⟨hb, ?_⟩
      simpa using fun hcode => hkept ⟨huse, hcode⟩
    · exact hb
  unfold Views.assignmentContribution
  cases v.integration <;> cases v.assigned <;> dsimp only [Option.elim]
  · exact hused
  · exact implementationAdmission_blockers hused
  · exact hused
  · exact implementationAdmission_blockers hused

theorem applyProofRetention_relevant (c : ContributionInput) (r : ProofRetention)
    (resumes : Bool) : (applyProofRetention host c r resumes).relevant = c.relevant := by
  unfold applyProofRetention
  cases r.action <;> dsimp only [Option.elim] <;> split <;> rfl

theorem applyProofRetention_blockers {c : ContributionInput} {r : ProofRetention}
    {resumes : Bool} {b : BlockerInput} (hb : b ∈ c.blockers) :
    b ∈ (applyProofRetention host c r resumes).blockers := by
  unfold applyProofRetention
  cases r.action with
  | some action =>
    dsimp only [Option.elim]
    split <;> exact hb
  | none =>
    dsimp only [Option.elim]
    split
    · exact List.mem_append_left _ hb
    · exact hb

theorem applyReconciliation_blockers {c : ContributionInput} {r : Reconciliation}
    {proving : Bool} {b : BlockerInput} (hb : b ∈ c.blockers) :
    b ∈ (applyReconciliation c r proving).blockers := by
  unfold applyReconciliation
  dsimp only
  split
  · exact List.mem_append_left _ hb
  · exact hb

theorem mem_foldl_filter {entries : List StandingEntry} {blockers : List BlockerInput}
    {b : BlockerInput} :
    b ∈ entries.foldl (fun blockers e => blockers.filter fun b => !e.covers b) blockers ↔
      b ∈ blockers ∧ ∀ e ∈ entries, e.covers b = false := by
  induction entries generalizing blockers with
  | nil => simp
  | cons e entries ih =>
    rw [List.foldl_cons, ih, List.mem_filter, List.forall_mem_cons]
    simp [and_assoc]

theorem verificationContribution_relevant :
    (v.verificationContribution host).relevant = true := by
  unfold Views.verificationContribution
  split
  · exact v.verification.relevant
  · exact (applyProofRetention_relevant _ _ _).trans v.verification.relevant

/-- Verification's blockers stay, but for those that standing evidence discharges. -/
theorem mem_verificationContribution {b : BlockerInput}
    (hb : b ∈ v.verification.contribution.blockers) :
    b ∈ (v.verificationContribution host).blockers ↔ ∀ parts ∈ v.verificationParts,
      ∀ e ∈ parts.standing.entries, e.discharges = true → e.covers b = false := by
  unfold Views.verificationContribution
  cases hparts : v.verificationParts with
  | none => simpa using hb
  | some parts =>
    have hretained := @applyProofRetention_blockers host _ parts.retention parts.resumesProof _ hb
    have hpushed := @applyReconciliation_blockers _ parts.reconciliation parts.proving _ hretained
    simp only [applyStanding, mem_foldl_filter, List.mem_filter, and_imp, Option.mem_some_iff,
      forall_eq']
    exact ⟨fun h => h.2, fun h => ⟨hpushed, h⟩⟩

theorem discharge_ne {code : String} {b : BlockerInput} (h : b.code ≠ code) :
    discharge code b = some b := by
  rw [discharge, if_neg h]

/-- What is left of a blocker once its completion scope is discharged has none. -/
theorem discharge_left {b b' : BlockerInput} (h : discharge b.code b = some b') :
    b'.code = b.code ∧ discharge b'.code b' = some b' := by
  rw [discharge, if_pos rfl] at h
  dsimp only at h
  split at h
  · cases h
  rename_i hne
  cases h
  refine ⟨rfl, ?_⟩
  rw [discharge, if_pos rfl]
  dsimp only
  rw [List.filter_filter]
  simpa using hne

theorem mem_foldl_discharge {sources : List SourceReference} {blockers : List BlockerInput}
    {b b' : BlockerInput} (hb : b ∈ blockers)
    (howed : (if ∃ source ∈ sources, b.code = currentBinding source then discharge b.code b
      else some b) = some b') :
    b' ∈ sources.foldl
      (fun blockers source => blockers.filterMap (discharge (currentBinding source))) blockers := by
  induction sources generalizing blockers b with
  | nil =>
    simp only [List.not_mem_nil, false_and, exists_false, if_false, Option.some.injEq] at howed
    subst howed
    exact hb
  | cons source sources ih =>
    rw [List.foldl_cons]
    by_cases hcode : b.code = currentBinding source
    · rw [if_pos ⟨source, List.mem_cons_self, hcode⟩] at howed
      obtain ⟨hcode', hstays⟩ := discharge_left howed
      refine ih (b := b') (List.mem_filterMap.mpr ⟨b, hb, hcode ▸ howed⟩) ?_
      split
      · exact hstays
      · rfl
    · refine ih (b := b) (List.mem_filterMap.mpr ⟨b, hb, discharge_ne hcode⟩) ?_
      rw [← howed]
      simp [hcode]

/-- The instructions' contribution has what is owed of each of their blockers. -/
theorem mem_instructionsContribution {b b' : BlockerInput}
    (hb : b ∈ v.instructions.contribution.blockers) (hb' : owedInstruction v b = some b') :
    b' ∈ v.instructionsContribution.blockers := by
  unfold owedInstruction at hb'
  unfold Views.instructionsContribution
  cases hparts : v.verificationParts with
  | none =>
    rw [hparts] at hb'
    cases hb'
    exact hb
  | some parts =>
    simp only [hparts] at hb'
    split at hb'
    · cases hb'
    rename_i hopen
    have hdischarge : (let affects := b.affects.filter (· ≠ "claim:complete")
        if affects = [] then none else some { b with affects }) = discharge b.code b := by
      rw [discharge, if_pos rfl]
    rw [hdischarge] at hb'
    have howed : (if ∃ source ∈ v.sources.filter parts.settles, b.code = currentBinding source
        then discharge b.code b else some b) = some b' := by
      rw [← hb']
      congr 1
      simp [and_assoc]
    have hcode : b'.code = b.code := by
      split at howed
      · exact (discharge_left howed).1
      · cases howed
        rfl
    have hmem := mem_foldl_discharge hb howed
    simp only [Option.elim, Views.dischargedInstructions]
    split
    · rename_i hcurrent
      refine List.mem_filter.mpr ⟨hmem, ?_⟩
      rw [hcode]
      simpa using fun hends => hopen ⟨hcurrent, hends⟩
    · exact hmem

/-! ## The merge in closed form -/

theorem front_apart {c : ContributionInput} (h : c ∈ v.front host) : c.owner ≠ "planning" := by
  simp only [Views.front, List.mem_append, List.mem_cons, List.not_mem_nil, or_false] at h
  rcases h with (rfl | rfl | rfl) | h
  · simp [v.resources_owned]
  · simp
  · simp
  · simp [decisionContributions_owner h, DECISIONS]

/-- Planning's contribution stands between others'. -/
structure Placed (front back : List ContributionInput) (p : Option ContributionInput)
    (cs : List ContributionInput) : Prop where
  eq : cs = front ++ p.toList ++ back
  front : ∀ c ∈ front, c.owner ≠ "planning"
  back : ∀ c ∈ back, c.owner ≠ "planning"
  owner : ∀ c ∈ p, c.owner = "planning"

section Placed

variable {front back cs cs' : List ContributionInput} {p : Option ContributionInput}

theorem Placed.update {f : ContributionInput → ContributionInput} (P : Placed front back p cs)
    (h : updateOwner "planning" f cs = .ok cs') (hf : ∀ c, (f c).owner = c.owner) :
    Placed front back (p.map f) cs' := by
  rw [P.eq] at h
  refine ⟨updateOwner_option P.front P.back P.owner h, P.front, P.back, ?_⟩
  intro c hc
  obtain ⟨d, hd, rfl⟩ := Option.map_eq_some_iff.mp hc
  rw [hf]
  exact P.owner d hd

theorem Placed.append (P : Placed front back p cs) {more : List ContributionInput}
    (hmore : ∀ c ∈ more, c.owner ≠ "planning") : Placed front (back ++ more) p (cs ++ more) := by
  refine ⟨by rw [P.eq, List.append_assoc], P.front, ?_, P.owner⟩
  intro c hc
  rcases List.mem_append.mp hc with hc | hc
  · exact P.back c hc
  · exact hmore c hc

/-- A step that changes Planning when an action is there, and nothing else. -/
theorem Placed.optional {α : Type} {f : ContributionInput → α → ContributionInput}
    {o : Option α} (P : Placed front back p cs) (h : updateWith "planning" f o cs = .ok cs')
    (hf : ∀ a c, (f c a).owner = c.owner) :
    Placed front back (p.map fun c => o.elim c (f c)) cs' := by
  cases o with
  | none =>
    cases h
    simpa using P
  | some a => exact P.update h (hf a)

theorem Placed.updated (P : Placed front back p cs) (h : v.applyUpdate host cs = .ok cs') :
    Placed front back (p.map (v.updated host)) cs' := by
  rw [Views.applyUpdate, Except.bind_eq_ok_iff] at h
  obtain ⟨cs₁, h₁, h₂⟩ := h
  have P₁ : Placed front back (p.map fun c =>
      if v.update.pending then { c with blockers := [Views.UPDATE_PENDING], settled := false }
      else c) cs₁ := by
    unfold Views.applyPending at h₁
    split at h₁
    · rename_i hpending
      simpa only [hpending, if_true] using P.update h₁ fun _ => rfl
    · rename_i hpending
      cases h₁
      simpa only [hpending, if_false, Bool.false_eq_true, Option.map_id'] using P
  have P₂ := P₁.optional h₂ fun _ _ => rfl
  rw [Option.map_map] at P₂
  exact P₂

theorem Placed.continued (P : Placed front back p cs) {cs'' : List ContributionInput}
    (h : v.applyContinued host cs = .ok cs') (h' : v.applyUnresolved host cs' = .ok cs'') :
    Placed front back (p.map (v.continued host)) cs'' := by
  have P₁ := P.optional h fun _ _ => rfl
  unfold Views.applyUnresolved at h'
  split at h'
  · rename_i hunresolved
    have P₂ := P₁.update h' fun _ => rfl
    rw [Option.map_map] at P₂
    have hcontinued : v.continued host = fun c => { v.planningAction.elim c (offer host c) with
        blockers := (v.planningAction.elim c (offer host c)).blockers ++ [v.unresolvedBlocker host]
        settled := false } := by
      funext c
      rw [Views.continued, if_pos hunresolved.1]
    rw [hcontinued]
    exact P₂
  · rename_i hresolved
    cases h'
    cases p with
    | none => simpa using P₁
    | some c =>
      have hc : cs'.any (·.owner == "planning") = true := by
        rw [P₁.eq]
        simp [P₁.owner _ rfl]
      have hnot : ¬ (v.adopted.unresolved.isSome ∨ v.retainedHandoff.unresolved.isSome) :=
        fun hunresolved => hresolved ⟨hunresolved, hc⟩
      simpa [Views.continued, hnot] using P₁

end Placed

/-- **An accepted merge is the front, Planning and the back, in that order.** -/
theorem merged_eq {cs : List ContributionInput} (h : v.contributions host = .ok cs) :
    cs = v.merged host := by
  simp only [Views.contributions, Except.bind_eq_ok_iff, Except.pure_eq_ok_iff] at h
  obtain ⟨cs₁, h₁, cs₂, h₂, cs₃, h₃, cs₄, h₄, cs₅, h₅, rfl⟩ := h
  have P₀ : Placed (v.front host) [] (v.planning.map (·.contribution))
      (v.front host ++ (v.planning.map (·.contribution)).toList) := by
    refine ⟨(List.append_nil _).symm, fun c hc => front_apart hc, by simp, ?_⟩
    intro c hc
    obtain ⟨view, -, rfl⟩ := Option.map_eq_some_iff.mp hc
    exact view.owned
  have P₃ := ((P₀.updated h₁).optional h₂ fun _ _ => rfl).optional h₃ fun _ _ => rfl
  have P₄ := @Placed.append _ _ _ _ P₃ [v.verificationContribution host, v.startupAdapter.contribution]
    (by simp [v.startupAdapter.owned])
  have P₅ := P₄.continued h₄ h₅
  rw [P₅.eq, Views.merged, Views.back]
  simp [Option.map_map, Function.comp_def, Views.planningContribution]

/-! ## The contributions given to the last compilation -/

/-- Later contributions keep the earlier ones' blockers. Only delegation's are replaced, and only
    the instructions' grow. -/
structure Carries (cs cs' : List ContributionInput) : Prop where
  forth : ∀ c ∈ cs, c.owner ≠ "delegation" → ∃ c' ∈ cs', c'.owner = c.owner ∧
    c'.relevant = c.relevant ∧ ∀ b ∈ c.blockers, b ∈ c'.blockers
  back : ∀ c' ∈ cs', c'.owner ≠ "delegation" → c'.owner ≠ "scoped-instructions" →
    ∃ c ∈ cs, c.owner = c'.owner ∧ c.relevant = c'.relevant ∧ c.blockers = c'.blockers

theorem Carries.refl (cs : List ContributionInput) : Carries cs cs :=
  ⟨fun c hc _ => ⟨c, hc, rfl, rfl, fun _ => id⟩, fun c hc _ _ => ⟨c, hc, rfl, rfl, rfl⟩⟩

theorem Carries.trans {cs₁ cs₂ cs₃ : List ContributionInput} (C : Carries cs₁ cs₂)
    (D : Carries cs₂ cs₃) : Carries cs₁ cs₃ := by
  constructor
  · intro c hc hdelegation
    obtain ⟨c', hc', howner, hrelevant, hblockers⟩ := C.forth c hc hdelegation
    obtain ⟨c'', hc'', howner', hrelevant', hblockers'⟩ := D.forth c' hc' (howner ▸ hdelegation)
    exact ⟨c'', hc'', howner'.trans howner, hrelevant'.trans hrelevant,
      fun b hb => hblockers' b (hblockers b hb)⟩
  · intro c'' hc'' hdelegation hinstructions
    obtain ⟨c', hc', howner', hrelevant', hblockers'⟩ := D.back c'' hc'' hdelegation hinstructions
    obtain ⟨c, hc, howner, hrelevant, hblockers⟩ :=
      C.back c' hc' (howner' ▸ hdelegation) (howner' ▸ hinstructions)
    exact ⟨c, hc, howner.trans howner', hrelevant.trans hrelevant', hblockers.trans hblockers'⟩

theorem carries_carried (cs : List ContributionInput) :
    Carries cs (cs.map v.carriedContribution) := by
  constructor
  · intro c hc _
    exact ⟨_, List.mem_map_of_mem hc, rfl, rfl, fun _ => id⟩
  · intro c' hc' _ _
    obtain ⟨c, hc, rfl⟩ := List.mem_map.mp hc'
    exact ⟨c, hc, rfl, rfl, rfl⟩

theorem updateLast_append (f : ContributionInput → ContributionInput) (c : ContributionInput) :
    ∀ cs : List ContributionInput, updateLast f (cs ++ [c]) = cs ++ [f c]
  | [] => rfl
  | [d] => rfl
  | d :: e :: cs => by
    have ih := updateLast_append f c (e :: cs)
    rw [List.cons_append] at ih
    rw [List.cons_append, List.cons_append, updateLast, ih]
    rfl

/-- A pending admission's restrictions join those of the instructions. -/
theorem carries_restrictLast {cs cs' : List ContributionInput} {c : ContributionInput}
    (hc : c.owner = "scoped-instructions")
    (h : restrictLast host v rest (cs ++ [c]) = .ok cs') : Carries (cs ++ [c]) cs' := by
  unfold restrictLast at h
  split at h
  · simp only [Except.bind_eq_ok_iff, Except.pure_eq_ok_iff] at h
    obtain ⟨prepared, -, additions, -, rfl⟩ := h
    rw [updateLast_append]
    constructor
    · intro d hd _
      rcases List.mem_append.mp hd with hd | hd
      · exact ⟨d, List.mem_append_left _ hd, rfl, rfl, fun _ => id⟩
      · rw [List.mem_singleton.mp hd]
        exact ⟨_, List.mem_append_right _ (List.mem_singleton_self _), rfl, rfl,
          fun _ => List.mem_append_left _⟩
    · intro d hd _ hinstructions
      rcases List.mem_append.mp hd with hd | hd
      · exact ⟨d, List.mem_append_left _ hd, rfl, rfl, rfl⟩
      · rw [List.mem_singleton.mp hd] at hinstructions
        exact absurd hc hinstructions
  · cases h
    exact Carries.refl _

theorem carries_delegation {f : ContributionInput → ContributionInput}
    {cs cs' : List ContributionInput} (h : updateOwner "delegation" f cs = .ok cs')
    (hf : ∀ c, (f c).owner = c.owner) : Carries cs cs' := by
  obtain ⟨front, c, back, hc, rfl, rfl⟩ := updateOwner_eq_ok h
  constructor
  · intro d hd hdelegation
    simp only [List.mem_append, List.mem_cons] at hd
    rcases hd with hd | rfl | hd
    · exact ⟨d, by simp [hd], rfl, rfl, fun _ => id⟩
    · exact absurd hc hdelegation
    · exact ⟨d, by simp [hd], rfl, rfl, fun _ => id⟩
  · intro d hd hdelegation _
    simp only [List.mem_append, List.mem_cons] at hd
    rcases hd with hd | rfl | hd
    · exact ⟨d, by simp [hd], rfl, rfl, rfl⟩
    · rw [hf] at hdelegation
      exact absurd hc hdelegation
    · exact ⟨d, by simp [hd], rfl, rfl, rfl⟩

theorem resolveSelected_carries {cs : List ContributionInput} {decision : Value}
    (h : resolveSelected host v rest = .ok (cs, decision)) : Carries (v.merged host) cs := by
  simp only [resolveSelected, Except.bind_eq_ok_iff] at h
  obtain ⟨cs₁, h₁, cs₂, h₂, first, -, h⟩ := h
  have hcarried : Carries (v.merged host) cs₂ := by
    refine (carries_carried (v := v) _).trans ?_
    rw [merged_eq h₁, Views.merged, List.map_append] at h₂
    rw [Views.merged, List.map_append]
    exact carries_restrictLast instructionsContribution_owner h₂
  split at h
  · cases h
    exact hcarried
  · simp only [Except.bind_eq_ok_iff] at h
    obtain ⟨pending, -, h⟩ := h
    cases pending with
    | none =>
      cases h
      exact hcarried
    | some pending =>
      simp only [Except.bind_eq_ok_iff, Except.pure_eq_ok_iff] at h
      obtain ⟨cs₃, h₃, second, -, heq⟩ := h
      cases heq
      exact hcarried.trans (carries_delegation h₃ fun _ => rfl)

/-! ## The law -/

/-- Each owner has one contribution. -/
theorem merged_owner {c : ContributionInput} (h : c ∈ v.merged host) :
    (c.owner = "configuration" → c = v.configWriteContribution host) ∧
    (c.owner = DECISIONS → c ∈ v.decisionContributions host) ∧
    (c.owner = "planning" → ∃ view ∈ v.planning,
      c = v.planningContribution host view.contribution) ∧
    (c.owner = "verification" → c = v.verificationContribution host) ∧
    (c.owner = "memory" → c = v.memoryContribution host) := by
  simp only [Views.merged, Views.front, Views.back, List.mem_append, List.mem_cons,
    List.not_mem_nil, or_false, Option.mem_toList, Option.map_eq_some_iff, List.mem_map] at h
  rcases h with ((((rfl | rfl | rfl) | h) | ⟨view, hview, rfl⟩) |
    ((rfl | rfl | rfl | rfl | rfl | rfl) | ⟨d, -, rfl⟩)) | rfl
  case inl.inl.inl.inr => simp [decisionContributions_owner h, h, DECISIONS]
  case inl.inl.inr =>
    refine ⟨?_, ?_, fun _ => ⟨view, hview, rfl⟩, ?_, ?_⟩ <;> simp [view.owned, DECISIONS]
  case inl.inr.inr =>
    have hapart := d.apart
    simp only [NATIVE_OWNERS, List.mem_cons, not_or] at hapart
    simp [hapart, DECISIONS]
  all_goals
    simp [v.resources_owned, v.startupAdapter.owned, v.systemIntent.owned, DECISIONS]

theorem holds_of_merged {cs : List ContributionInput} {owner : String} {c : ContributionInput}
    {b : BlockerInput} (C : Carries (v.merged host) cs) (hc : c ∈ v.merged host)
    (howner : c.owner = owner) (hdelegation : owner ≠ "delegation") (hrelevant : c.relevant = true)
    (hb : b ∈ c.blockers) : Holds cs owner b := by
  obtain ⟨c', hc', howner', hrelevant', hblockers⟩ := C.forth c hc (howner ▸ hdelegation)
  exact ⟨c', hc', howner'.trans howner, hrelevant'.trans hrelevant, hblockers b hb⟩

theorem merged_of_holds {cs : List ContributionInput} {owner : String} {b : BlockerInput}
    (C : Carries (v.merged host) cs) (h : Holds cs owner b) (hdelegation : owner ≠ "delegation")
    (hinstructions : owner ≠ "scoped-instructions") :
    ∃ c ∈ v.merged host, c.owner = owner ∧ c.relevant = true ∧ b ∈ c.blockers := by
  obtain ⟨c', hc', rfl, hrelevant, hb⟩ := h
  obtain ⟨c, hc, howner, hrelevant', hblockers⟩ := C.back c' hc' hdelegation hinstructions
  exact ⟨c, hc, howner, hrelevant'.trans hrelevant, hblockers ▸ hb⟩

theorem owed_whole {owner : String} {b : BlockerInput}
    (h : owner ∉ ["planning", "workspace", "assignment", "scoped-instructions"]) :
    owed v owner b = some b := by
  simp only [List.mem_cons, List.not_mem_nil, or_false, not_or] at h
  simp [owed, h]

theorem mem_merged_front {c : ContributionInput} (h : c ∈ v.front host) : c ∈ v.merged host := by
  simp [Views.merged, h]

theorem mem_merged_back {c : ContributionInput} (h : c ∈ v.back host) : c ∈ v.merged host := by
  simp [Views.merged, h]

theorem planning_merged {view : OwnerView "planning"} (h : v.planning = some view) :
    v.planningContribution host view.contribution ∈ v.merged host := by
  simp [Views.merged, h]

theorem revalidated_relevant : v.revalidated.relevant = true := by
  unfold Views.revalidated
  split
  · rw [restrict_relevant]
    exact v.configWrite.relevant
  · exact v.configWrite.relevant

theorem configWriteContribution_relevant :
    (v.configWriteContribution host).relevant = true := by
  unfold Views.configWriteContribution
  split
  · exact revalidated_relevant
  · exact revalidated_relevant

/-- A missing setting replaces the Configuration writer's blockers. -/
theorem mem_configWriteContribution {b : BlockerInput} :
    b ∈ (v.configWriteContribution host).blockers ↔
      if v.missing = [] then b ∈ v.revalidated.blockers
      else b ∈ v.missing.map (v.configurationRequired host) := by
  unfold Views.configWriteContribution
  split <;> rfl

theorem kept_of_spared {cs : List ContributionInput} (C : Carries (v.merged host) cs)
    (S : Spared host v) : Kept v cs := by
  intro owner b hb b' hb'
  cases hb with
  | resources hb =>
    rw [owed_whole (by decide)] at hb'
    cases hb'
    exact holds_of_merged C (mem_merged_front (by simp [Views.front])) v.resources_owned
      (by decide) (v.resources_relevant (List.ne_nil_of_mem hb)) hb
  | configuration hb =>
    simp only [owed, String.reduceEq, if_false, if_true, Option.mem_def,
      Option.some.injEq] at hb'
    subst hb'
    exact holds_of_merged C (c := v.configurationContribution)
      (mem_merged_front (by simp [Views.front])) v.configuration.owned (by decide)
      v.configuration.relevant (List.mem_map_of_mem hb)
  | configWrite hb =>
    rw [owed_whole (by decide)] at hb'
    cases hb'
    refine holds_of_merged C (c := v.configWriteContribution host)
      (mem_merged_front (by simp [Views.front])) configWriteContribution_owner (by decide)
      configWriteContribution_relevant (mem_configWriteContribution.mpr ?_)
    split
    · exact hb
    · rename_i hmissing
      exact S.configuration hmissing b hb
  | @repositoryCapture _ capture bs hcapture hblockers hb =>
    rw [owed_whole (by decide)] at hb'
    cases hb'
    cases hproblem : v.decisionSourceProblem with
    | none =>
      refine holds_of_merged C (c := captureContribution capture) (mem_merged_front ?_) rfl
        (by decide) ?_ ?_
      · simp [Views.front, Views.decisionContributions, hproblem, hcapture]
      · simp [captureContribution, hblockers]
      · simpa [captureContribution, hblockers] using hb
    | some problem =>
      have heq := S.decisions problem hproblem capture hcapture bs hblockers b hb
      refine holds_of_merged C (c := v.problemContribution host problem) (mem_merged_front ?_) rfl
        (by decide) rfl ?_
      · simp [Views.front, Views.decisionContributions, hproblem]
      · simp [Views.problemContribution, heq]
  | @planning _ view hview hb =>
    simp only [owed, if_true] at hb'
    split at hb'
    · cases hb'
    rename_i hoffered
    cases hb'
    refine holds_of_merged C (planning_merged hview)
      ((planningContribution_owner _).trans view.owned) (by decide)
      ((planningContribution_relevant _).trans view.relevant) ?_
    rw [planningContribution_blockers, if_neg hoffered, List.mem_append]
    split
    · rename_i hpending
      rcases S.planning hpending (by simpa using hoffered) view hview b hb with
        rfl | ⟨hunresolved, rfl⟩
      · exact Or.inl (List.mem_singleton_self _)
      · rw [if_pos hunresolved]
        exact Or.inr (List.mem_singleton_self _)
    · exact Or.inl hb
  | verification hb =>
    rw [owed_whole (by decide)] at hb'
    cases hb'
    exact holds_of_merged C (c := v.verificationContribution host)
      (mem_merged_back (by simp [Views.back])) verificationContribution_owner (by decide)
      verificationContribution_relevant ((mem_verificationContribution hb).mpr fun parts hparts e he hdischarges =>
        S.verification parts hparts e he hdischarges b hb)
  | startupAdapter hb =>
    rw [owed_whole (by decide)] at hb'
    cases hb'
    exact holds_of_merged C (mem_merged_back (by simp [Views.back])) v.startupAdapter.owned
      (by decide) v.startupAdapter.relevant hb
  | assignment hb =>
    simp only [owed, String.reduceEq, if_false, if_true] at hb'
    split at hb'
    · cases hb'
    rename_i hopen
    cases hb'
    exact holds_of_merged C (c := v.assignmentContribution host)
      (mem_merged_back (by simp [Views.back])) assignmentContribution_owner (by decide)
      assignmentContribution_relevant (mem_assignmentContribution hb hopen)
  | systemIntent hb =>
    rw [owed_whole (by decide)] at hb'
    cases hb'
    exact holds_of_merged C (mem_merged_back (by simp [Views.back])) v.systemIntent.owned
      (by decide) v.systemIntent.relevant hb
  | @memory _ parts bs hparts hblocks hb =>
    rw [owed_whole (by decide)] at hb'
    cases hb'
    obtain ⟨hlast, hheard⟩ := S.memory parts hparts bs hblocks b hb
    refine holds_of_merged C (c := v.memoryContribution host)
      (mem_merged_back (by simp [Views.back])) memoryContribution_owner (by decide) ((memoryContribution_relevant hparts).trans hheard) ?_
    rw [memoryContribution_blockers hparts]
    exact hlast
  | @independent _ c hc hb =>
    have hapart := c.apart
    simp only [NATIVE_OWNERS, List.mem_cons, not_or] at hapart
    rw [owed_whole (by simp [hapart])] at hb'
    cases hb'
    exact holds_of_merged C (mem_merged_back (by
      simp only [Views.back, List.mem_append, List.mem_map]
      exact Or.inr ⟨c, hc, rfl⟩)) rfl hapart.2.2.2.2.2.2.2.1 c.relevant hb
  | instructions hb =>
    simp only [owed, String.reduceEq, if_false, if_true] at hb'
    exact holds_of_merged C (c := v.instructionsContribution) (by simp [Views.merged])
      instructionsContribution_owner (by decide) v.instructions.relevant
      (mem_instructionsContribution hb hb')

theorem spared_of_kept {cs : List ContributionInput} (C : Carries (v.merged host) cs)
    (K : Kept v cs) : Spared host v := by
  have hplace : ∀ {owner b}, Blocks v owner b → owed v owner b = some b → owner ≠ "delegation" →
      owner ≠ "scoped-instructions" →
      ∃ c ∈ v.merged host, c.owner = owner ∧ c.relevant = true ∧ b ∈ c.blockers :=
    fun hb howed hdelegation hinstructions =>
      merged_of_holds C (K _ _ hb _ howed) hdelegation hinstructions
  constructor
  case configuration =>
    intro hmissing b hb
    obtain ⟨c, hc, howner, -, hmem⟩ := hplace (.configWrite hb) (owed_whole (by decide))
      (by decide) (by decide)
    rw [(merged_owner hc).1 howner, mem_configWriteContribution, if_neg hmissing] at hmem
    exact hmem
  case memory =>
    intro parts hparts bs hblocks b hb
    obtain ⟨c, hc, howner, hrelevant, hmem⟩ := hplace (.memory hparts hblocks hb)
      (owed_whole (by decide)) (by decide) (by decide)
    have heq := (merged_owner hc).2.2.2.2 howner
    subst heq
    rw [memoryContribution_blockers hparts] at hmem
    rw [memoryContribution_relevant hparts] at hrelevant
    exact ⟨hmem, hrelevant⟩
  case decisions =>
    intro problem hproblem capture hcapture bs hblockers b hb
    obtain ⟨c, hc, howner, -, hmem⟩ := hplace (.repositoryCapture hcapture hblockers hb)
      (owed_whole (by decide)) (by decide) (by decide)
    have hdecision := (merged_owner hc).2.1 howner
    rw [Option.mem_def] at hproblem
    simp only [Views.decisionContributions, hproblem, List.mem_singleton] at hdecision
    subst hdecision
    exact List.mem_singleton.mp hmem
  case planning =>
    intro hpending hoffered view hview b hb
    obtain ⟨c, hc, howner, -, hmem⟩ := hplace (.planning hview hb) (by simp [owed, hoffered])
      (by decide) (by decide)
    obtain ⟨view', hview', rfl⟩ := (merged_owner hc).2.2.1 howner
    rw [planningContribution_blockers, hoffered, if_neg (by decide), if_pos hpending,
      List.mem_append, List.mem_singleton] at hmem
    rcases hmem with hmem | hmem
    · exact Or.inl hmem
    · split at hmem
      · rename_i hunresolved
        exact Or.inr ⟨hunresolved, List.mem_singleton.mp hmem⟩
      · cases hmem
  case verification =>
    intro parts hparts e he hdischarges b hb
    obtain ⟨c, hc, howner, -, hmem⟩ := hplace (.verification hb) (owed_whole (by decide))
      (by decide) (by decide)
    rw [(merged_owner hc).2.2.2.1 howner] at hmem
    exact (mem_verificationContribution hb).mp hmem parts hparts e he hdischarges

/-- What is kept is restricted in the decision. -/
theorem kept_constrained {cs : List ContributionInput} (K : Kept v cs) {c : Composed}
    (C : Composes host (rest.input cs) c) : Constrains v c := by
  intro owner b hb b' hb' scope hscope
  obtain ⟨i, hi, -, hrelevant, hmem⟩ := K owner b hb b' hb'
  exact C.mem_constrained.mpr ⟨i, hi, hrelevant, Or.inl ⟨b', hmem, hscope⟩⟩

/-- **The merge keeps every restriction an owner is owed, and the decision restricts every scope of
    it, exactly when no view's blockers are overwritten.** -/
theorem restrictions_kept_iff {cs : List ContributionInput} {decision : Value}
    (h : resolveSelected host v rest = .ok (cs, decision)) :
    (Kept v cs ∧ ∀ c, host.compose (rest.input cs) = .ok c → Constrains v c) ↔ Spared host v := by
  have C := resolveSelected_carries h
  constructor
  · rintro ⟨hkept, -⟩
    exact spared_of_kept C hkept
  · intro S
    have hkept := kept_of_spared C S
    exact ⟨hkept, fun c hc => kept_constrained hkept (compose_eq_ok.mp hc)⟩

/-! ### A setup assessment beside an owner whose settings are missing -/

def sampleView (owner : String) : OwnerView owner where
  contribution := { draft owner with revision := "r1" }
  owned := rfl
  relevant := rfl

def assessed : OwnerView "configuration" where
  contribution := restrict { draft "configuration" with revision := "r1" }
  owned := rfl
  relevant := rfl

def silent : Continued := ⟨none, none⟩

/-- Nothing is pending but the setup assessment, and the settings of the owner `notes`. -/
def unassessed : Views where
  executing := false
  enabled := true
  planningRequest := none
  startupRequest := none
  resources := { draft "workspace-resources" with revision := "r1" }
  resources_owned := rfl
  resources_relevant := fun h => absurd rfl h
  configuration := sampleView "workspace"
  configurationRevision := "r1"
  payloadPaths := []
  gapScopes := []
  configWrite := assessed
  consumersChanged := false
  independentViews := [("notes", ⟨Views.CONFIGURATION_REQUIRED, "notes requires its settings"⟩)]
  independentAdmissions := [("notes", .object [])]
  repositoryCapture := none
  admissions := .object []
  decisionSourceProblem := none
  planning := some (sampleView "planning")
  planningRevision := "r1"
  update := ⟨false, none, false⟩
  planningRetention := none
  creation := ⟨"r1", none⟩
  verification := sampleView "verification"
  verificationParts := none
  startupAdapter := sampleView "startup-adapter"
  delegation := { draft "delegation" with revision := "r1" }
  delegation_owned := rfl
  delegation_silent := rfl
  retirement := none
  settlement := none
  assignment := sampleView "assignment"
  admission := ⟨false, .null⟩
  integration := none
  assigned := none
  adopted := silent
  alreadyAdopted := false
  handoffRequested := false
  resumesHandoff := false
  handoff := silent
  systemIntent := sampleView "system-intent"
  memory := { draft "memory" with revision := "r1" }
  memory_owned := rfl
  memory_silent := rfl
  memoryParts := none
  independents := []
  instructions := sampleView "scoped-instructions"
  sources := []
  admissionPending := false

def configurationOwner : CapabilityOwnerInput :=
  ⟨"configuration", "r1", ["configuration"], [], [], []⟩

def sampleRest : Rest where
  decisionContext := none
  intent := .object []
  contract := { sampleContract with
    owners := [configurationOwner]
    restrictionAuthorities :=
      [⟨"configuration", ["claim:configuration-integration-complete"]⟩] }
  restrictPending _ := .ok []
  pendingLaunch _ := .ok none

def ASSESSMENT_SCOPE : String := "claim:configuration-integration-complete"

def restrictsAssessment (cs : List ContributionInput) : Bool :=
  cs.any fun c => c.blockers.any (·.affects.contains ASSESSMENT_SCOPE) ||
    c.decisions.any (·.affects.contains ASSESSMENT_SCOPE)

theorem unassessed_resolves :
    (resolveSelected sampleHost unassessed sampleRest).toOption.map
      (fun r => restrictsAssessment r.1) = some false := by
  decide

theorem unassessed_ok : ∃ cs decision,
    resolveSelected sampleHost unassessed sampleRest = .ok (cs, decision) ∧
      restrictsAssessment cs = false := by
  have h := unassessed_resolves
  cases hresolved : resolveSelected sampleHost unassessed sampleRest with
  | error problem =>
    rw [hresolved] at h
    cases h
  | ok r =>
    rw [hresolved] at h
    exact ⟨r.1, r.2, rfl, Option.some.inj h⟩

theorem restrictions_kept_iff_unassessed : ∃ cs decision,
    resolveSelected sampleHost unassessed sampleRest = .ok (cs, decision) ∧
      ((Kept unassessed cs ∧ ∀ c, sampleHost.compose (sampleRest.input cs) = .ok c →
        Constrains unassessed c) ↔ Spared sampleHost unassessed) := by
  obtain ⟨cs, decision, h, -⟩ := unassessed_ok
  exact ⟨cs, decision, h, restrictions_kept_iff h⟩

/-- The missing settings of one owner lift the restriction of the setup assessment. -/
theorem assessment_dropped : ∃ cs decision b,
    resolveSelected sampleHost unassessed sampleRest = .ok (cs, decision) ∧
      Blocks unassessed "configuration" b ∧ owed unassessed "configuration" b = some b ∧
      ASSESSMENT_SCOPE ∈ b.affects ∧ (∀ c ∈ cs, b ∉ c.blockers) ∧
      ¬ (sampleRest.input cs).Restricts ASSESSMENT_SCOPE := by
  obtain ⟨cs, decision, h, hfree⟩ := unassessed_ok
  simp only [restrictsAssessment, List.any_eq_false, Bool.or_eq_true, not_or,
    List.contains_iff_mem, Bool.not_eq_true] at hfree
  obtain ⟨b, hb, hscope⟩ : ∃ b, b ∈ unassessed.revalidated.blockers ∧
      ASSESSMENT_SCOPE ∈ b.affects := ⟨_, List.mem_singleton_self _, List.mem_singleton_self _⟩
  refine ⟨cs, decision, b, h, .configWrite hb, owed_whole (by decide), hscope, ?_, ?_⟩
  · intro c hc hmem
    exact absurd hscope (by simpa using (hfree c hc).1 b hmem)
  · rintro ⟨c, hc, -, ⟨b', hb', hscope'⟩ | ⟨d, hd, hscope'⟩⟩
    · exact absurd hscope' (by simpa using (hfree c hc).1 b' hb')
    · exact absurd hscope' (by simpa using (hfree c hc).2 d hd)

end AgenticCore.NativePublic
