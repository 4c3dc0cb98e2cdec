import AgenticCore.InvocationIdentity

/-!
# What the consequence identity of an action identifies

* `SameAction`              : two actions ask for the same and depend on the same.
* `Masks`                   : an action without source requests whose dependency revision is the
                              digest another action's revision and source requests have.
* `consequence_id_eq_iff`   : when two identities are equal.
* `consequence_identifies_iff` : **the identity identifies the action, but for one that masks
                              another.**
-/

set_option autoImplicit false

namespace AgenticCore

open Json Text Registry

variable {host : Host}

/-- The two actions ask an owner for the same effect. -/
structure SameEffect (owner : String) (a b : ActionInput) : Prop where
  operationId : trim a.operationId = trim b.operationId
  arguments : a.arguments = b.arguments
  effects : a.effects = b.effects
  authority : a.authorityOf owner = b.authorityOf owner
  effectGeneration : a.effectGeneration = b.effectGeneration

/-- They also depend on the same. -/
structure SameAction (owner : String) (a b : ActionInput) : Prop extends SameEffect owner a b where
  dependencyRevision : trim a.dependencyRevision = trim b.dependencyRevision
  sourceRequests : a.sourceRequests = b.sourceRequests

/-- `a` has no source requests, and names as its dependency the digest of what `b` depends on. -/
structure Masks (host : Host) (a b : ActionInput) : Prop where
  none : a.sourceRequests = []
  some : b.sourceRequests ≠ []
  revision : trim a.dependencyRevision =
    host.digest (.object [("revision", .string (trim b.dependencyRevision)),
      ("source_requests", .array b.sourceRequests)])

/-- The identity an action is given. -/
theorem readAction_consequenceId {owner : String}
    {capabilities : Option NormalizedCapabilityContract}
    {capability : Option NormalizedCapabilityOwner} {intent : Value} {a : ActionInput} {i : Nat}
    {n : NormalizedAction} (h : host.readAction owner capabilities capability intent (a, i) = .ok n) :
    n.consequenceId = "action:" ++ owner ++ ":" ++ host.digest (.object [
      ("dependency_revision", .string (host.dependencyRevision
        (host.sourceDependency (trim a.dependencyRevision) a.sourceRequests) (trim a.operationId)
        a.effects capability)),
      ("logical_effect_id", .string
        (host.logicalEffectId owner (trim a.operationId) (a.authorityOf owner) a))]) := by
  obtain ⟨declared, operation, rfl, -, -, rfl⟩ := readAction_eq_ok.mp h
  rfl

/-- What two actions depend on has one name exactly when it is the same or one masks the other. -/
theorem sourceDependency_eq_iff (hdigest : Function.Injective host.digest) {a b : ActionInput} :
    host.sourceDependency (trim a.dependencyRevision) a.sourceRequests =
        host.sourceDependency (trim b.dependencyRevision) b.sourceRequests ↔
      (trim a.dependencyRevision = trim b.dependencyRevision ∧
        a.sourceRequests = b.sourceRequests) ∨ Masks host a b ∨ Masks host b a := by
  unfold Host.sourceDependency
  by_cases ha : a.sourceRequests = [] <;> by_cases hb : b.sourceRequests = []
  · rw [if_pos ha, if_pos hb]
    constructor
    · intro h
      exact Or.inl ⟨h, ha.trans hb.symm⟩
    · rintro (h | h | h)
      · exact h.1
      · exact absurd hb h.some
      · exact absurd ha h.some
  · rw [if_pos ha, if_neg hb]
    constructor
    · intro h
      exact Or.inr (Or.inl ⟨ha, hb, h⟩)
    · rintro (h | h | h)
      · exact absurd (h.2.symm.trans ha) hb
      · exact h.revision
      · exact absurd h.none hb
  · rw [if_neg ha, if_pos hb]
    constructor
    · intro h
      exact Or.inr (Or.inr ⟨hb, ha, h.symm⟩)
    · rintro (h | h | h)
      · exact absurd (h.2.trans hb) ha
      · exact absurd h.none ha
      · exact h.revision.symm
  · rw [if_neg ha, if_neg hb, hdigest.eq_iff]
    simp only [Value.object.injEq, List.cons.injEq, Prod.mk.injEq, true_and, Value.string.injEq,
      Value.array.injEq, and_true]
    constructor
    · exact Or.inl
    · rintro (h | h | h)
      · exact h
      · exact absurd h.none ha
      · exact absurd h.none hb

section Pair

variable {owner : String} {capabilities : Option NormalizedCapabilityContract}
  {capability : Option NormalizedCapabilityOwner} {intent : Value} {a b : ActionInput} {i j : Nat}
  {n m : NormalizedAction}

/-- **Two identities are equal exactly when the actions ask for the same effect and depend on the
same, or one masks the other.** -/
theorem consequence_id_eq_iff (hdigest : Function.Injective host.digest)
    (ha : host.readAction owner capabilities capability intent (a, i) = .ok n)
    (hb : host.readAction owner capabilities capability intent (b, j) = .ok m) :
    n.consequenceId = m.consequenceId ↔
      SameAction owner a b ∨ (SameEffect owner a b ∧ (Masks host a b ∨ Masks host b a)) := by
  have hparts : n.consequenceId = m.consequenceId ↔
      host.dependencyRevision (host.sourceDependency (trim a.dependencyRevision) a.sourceRequests)
          (trim a.operationId) a.effects capability =
        host.dependencyRevision (host.sourceDependency (trim b.dependencyRevision) b.sourceRequests)
          (trim b.operationId) b.effects capability ∧
      host.logicalEffectId owner (trim a.operationId) (a.authorityOf owner) a =
        host.logicalEffectId owner (trim b.operationId) (b.authorityOf owner) b := by
    rw [readAction_consequenceId ha, readAction_consequenceId hb]
    simp only [String.append_right_inj]
    show host.digest _ = host.digest _ ↔ _
    rw [hdigest.eq_iff]
    simp only [Value.object.injEq, List.cons.injEq, Prod.mk.injEq, true_and, Value.string.injEq,
      and_true]
  rw [hparts, logicalEffectId_inj hdigest]
  constructor
  · rintro ⟨hdependency, harguments, hauthority, hgeneration, heffects, hid, -⟩
    have E : SameEffect owner a b := ⟨hid, harguments, heffects, hauthority, hgeneration⟩
    rw [Host.dependencyRevision, Host.dependencyRevision, hdigest.eq_iff] at hdependency
    simp only [Value.object.injEq, List.cons.injEq, Prod.mk.injEq, true_and, Value.string.injEq,
      and_true] at hdependency
    rcases (sourceDependency_eq_iff hdigest).mp hdependency.2.2 with ⟨hrevision, hrequests⟩ | hmasks
    · exact Or.inl ⟨E, hrevision, hrequests⟩
    · exact Or.inr ⟨E, hmasks⟩
  · intro h
    have E : SameEffect owner a b := h.elim (·.toSameEffect) (·.1)
    have hsource := (@sourceDependency_eq_iff host hdigest a b).mpr
      (h.elim (fun S => Or.inl ⟨S.dependencyRevision, S.sourceRequests⟩) fun M => Or.inr M.2)
    refine ⟨?_, E.arguments, E.authority, E.effectGeneration, E.effects, E.operationId, rfl⟩
    rw [hsource, E.operationId, E.effects]

/-- **The consequence identity identifies the action exactly when neither of two actions masks the
other in asking for the same effect.** -/
theorem consequence_identifies_iff (hdigest : Function.Injective host.digest)
    (ha : host.readAction owner capabilities capability intent (a, i) = .ok n)
    (hb : host.readAction owner capabilities capability intent (b, j) = .ok m) :
    (n.consequenceId = m.consequenceId → SameAction owner a b) ↔
      ¬(SameEffect owner a b ∧ (Masks host a b ∨ Masks host b a)) := by
  rw [consequence_id_eq_iff hdigest ha hb]
  constructor
  · rintro h ⟨E, M⟩
    have S := h (Or.inr ⟨E, M⟩)
    rcases M with M | M
    · exact M.some (S.sourceRequests ▸ M.none)
    · exact M.some (S.sourceRequests ▸ M.none)
  · rintro h (S | M)
    · exact S
    · exact absurd M h

end Pair

/-! ### A revision that is the digest of another action's dependencies -/

def askingOwner : CapabilityOwnerInput :=
  { sampleOwner "a" with requests := [⟨"ask", sampleSchema, "result"⟩] }

def askingContract : CapabilityContractInput := { sampleContract with owners := [askingOwner] }

def askingWork : Value := .object [("id", .string "task"), ("kind", .string "current-work")]

def askingRequest : Value :=
  .object [("arguments", .object []), ("capability_revision", .string sampleContract.revision),
    ("id", .string "a:ask"), ("kind", .string PUBLIC_REQUEST_KIND), ("owner", .string "a"),
    ("owner_revision", .string "r1"), ("request_kind", .string "ask"),
    ("source_revision", .string "c1"), ("task_identity", askingWork)]

/-- An action on the current answer to the request. -/
def requestedAction : ActionInput := { sampleAction "a" with sourceRequests := [askingRequest] }

/-- The same action on its own revision, which is the digest of the other's dependencies. -/
def maskingAction : ActionInput :=
  { sampleAction "a" with
    dependencyRevision := textHost.digest (.object [("revision", .string "d1"),
      ("source_requests", .array [askingRequest])]) }

/-- The normal form of the action under the contract that declares both. -/
def askingAction : Result (NormalizedCapabilityContract × NormalizedAction) := do
  let normal ← textHost.normalizeCapabilityContract askingContract
  let action ← textHost.readAction "a" (some normal) normal.owners["a"]?
    (.object [("current_work", askingWork)]) (requestedAction, 0)
  pure (normal, action)

theorem maskingAction_masks : Masks textHost maskingAction requestedAction where
  none := rfl
  some := List.cons_ne_nil _ _
  revision := trim_text_object _

theorem maskingAction_sameEffect : SameEffect "a" requestedAction maskingAction :=
  ⟨rfl, rfl, rfl, rfl, rfl⟩

theorem askingActions_ok : ∃ capabilities capability intent n m,
    textHost.readAction "a" capabilities capability intent (requestedAction, 0) = .ok n ∧
      textHost.readAction "a" capabilities capability intent (maskingAction, 0) = .ok m := by
  obtain ⟨⟨normal, n⟩, h⟩ := Except.isOk_iff.mp (by decide : askingAction.isOk = true)
  simp only [askingAction, Except.bind_eq_ok_iff, Except.pure_eq_ok_iff] at h
  obtain ⟨_, -, n, hn, -⟩ := h
  obtain ⟨declared, operation, hdeclared, hoperation, F, -⟩ := readAction_eq_ok.mp hn
  refine ⟨_, _, _, n, _, hn, readAction_eq_ok.mpr ⟨declared, operation, hdeclared, hoperation, ?_,
    rfl⟩⟩
  have hrevision : trim maskingAction.dependencyRevision ≠ "" := by
    rw [maskingAction_masks.revision]
    exact fun h => absurd (congrArg (fun s => s.toList.head?) h) (by simp [textHost, text, print])
  exact ⟨Nat.zero_le _, ⟨[], rfl⟩, F.unranked, F.operationId, F.arguments, F.effects, hrevision⟩

theorem consequence_identifies_iff_asking : ∃ n m : NormalizedAction,
    (n.consequenceId = m.consequenceId → SameAction "a" requestedAction maskingAction) ↔
      ¬(SameEffect "a" requestedAction maskingAction ∧
        (Masks textHost requestedAction maskingAction ∨
          Masks textHost maskingAction requestedAction)) := by
  obtain ⟨capabilities, capability, intent, n, m, hn, hm⟩ := askingActions_ok
  exact ⟨n, m, consequence_identifies_iff text_injective hn hm⟩

/-- Two actions with different source requests and revisions have one identity. -/
theorem masked_identity : ∃ capabilities capability intent n m,
    textHost.readAction "a" capabilities capability intent (requestedAction, 0) = .ok n ∧
      textHost.readAction "a" capabilities capability intent (maskingAction, 0) = .ok m ∧
      n.consequenceId = m.consequenceId ∧
      requestedAction.sourceRequests ≠ maskingAction.sourceRequests ∧
      trim requestedAction.dependencyRevision ≠ trim maskingAction.dependencyRevision := by
  obtain ⟨capabilities, capability, intent, n, m, hn, hm⟩ := askingActions_ok
  refine ⟨capabilities, capability, intent, n, m, hn, hm, ?_, List.cons_ne_nil _ _, ?_⟩
  · exact (consequence_id_eq_iff text_injective hn hm).mpr
      (Or.inr ⟨maskingAction_sameEffect, Or.inr maskingAction_masks⟩)
  · rw [maskingAction_masks.revision, show trim requestedAction.dependencyRevision = "d1" from rfl]
    exact fun h => absurd (congrArg (fun s => s.toList.head?) h) (by simp [textHost, text, print])

end AgenticCore
