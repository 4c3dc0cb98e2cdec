import AgenticCore.JsonBytes
import AgenticCore.NativeIndependent
import AgenticCore.ReadyActions

/-!
# An independent owner stays within its admission

* `ready_without`        : **what is ready without one owner's restrictions is ready with them**, but
                           for what they name.
* `discover_spec`        : a discovered owner has declared what it was granted.
* `Natives`              : the program's own contracts and contributions.
* `independent_contained`: **the ready actions, the claims and the restrictions of an independent
                           owner are admitted.**
-/

set_option autoImplicit false

namespace AgenticCore

open Json Text Registry

variable {host : Host}

/-! ## One owner without its restrictions -/

section Without

variable (owner : String)

def ContributionInput.unrestricted (c : ContributionInput) : ContributionInput :=
  if c.owner = owner then { c with blockers := [], decisions := [] } else c

def DecisionInput.without (input : DecisionInput) : DecisionInput :=
  { input with contributions := input.contributions.map (·.unrestricted owner) }

/-- Some relevant contribution of the owner affects the scope. -/
def DecisionInput.RestrictedBy (input : DecisionInput) (scope : String) : Prop :=
  ∃ i ∈ input.contributions, i.relevant = true ∧ i.owner = owner ∧
    ((∃ b ∈ i.blockers, scope ∈ b.affects) ∨ ∃ d ∈ i.decisions, scope ∈ d.affects)

/-- The scopes that keep an action from being available. -/
def OwnedAction.scopes (owned : OwnedAction) : List String :=
  TASK :: owned.action.consequenceId :: owned.action.effects.map fun e => s!"effect:{e}"

variable {owner}

@[simp] theorem unrestricted_owner (c : ContributionInput) :
    (c.unrestricted owner).owner = c.owner := by
  unfold ContributionInput.unrestricted
  split <;> rfl

@[simp] theorem unrestricted_relevant (c : ContributionInput) :
    (c.unrestricted owner).relevant = c.relevant := by
  unfold ContributionInput.unrestricted
  split <;> rfl

@[simp] theorem unrestricted_actions (c : ContributionInput) :
    (c.unrestricted owner).actions = c.actions := by
  unfold ContributionInput.unrestricted
  split <;> rfl

theorem actionOf_unique {capabilities : Option NormalizedCapabilityContract} {intent : Value}
    {name : String} {a : ActionInput} {n n' : NormalizedAction}
    (h : ActionOf host capabilities intent name a n)
    (h' : ActionOf host capabilities intent name a n') : n = n' := by
  obtain ⟨declared, operation, hdeclared, hoperation, -, -, hn⟩ := h
  obtain ⟨declared', operation', hdeclared', hoperation', -, -, hn'⟩ := h'
  obtain rfl : declared = declared' := Option.some.inj (hdeclared.symm.trans hdeclared')
  obtain rfl : operation = operation' := Option.some.inj (hoperation.symm.trans hoperation')
  exact hn.trans hn'.symm

/-- Two lists that relate to one list agree in what both relations determine. -/
theorem forall₂_map_eq {α β γ : Type} {R S : α → β → Prop} {f : β → γ} {as : List α}
    {bs bs' : List β} (h : List.Forall₂ R as bs) (h' : List.Forall₂ S as bs')
    (hf : ∀ a b b', R a b → S a b' → f b = f b') : bs.map f = bs'.map f := by
  induction h generalizing bs' with
  | nil =>
    cases h'
    rfl
  | cons hab _ ih =>
    cases h' with
    | cons hab' htail => rw [List.map_cons, List.map_cons, hf _ _ _ hab hab', ih htail]

/-- What the actions of a decision are read from. -/
def actionPart (n : NormalizedContribution) : String × Bool × List NormalizedAction :=
  (n.owner, n.relevant, n.actions)

theorem contributes_actionPart {capabilities : Option NormalizedCapabilityContract} {intent : Value}
    {i : ContributionInput} {n n' : NormalizedContribution}
    (K : Contributes host capabilities intent i n)
    (K' : Contributes host capabilities intent (i.unrestricted owner) n') :
    actionPart n = actionPart n' := by
  obtain ⟨ys, hys, hactions⟩ := K.actions
  obtain ⟨ys', hys', hactions'⟩ := K'.actions
  rw [unrestricted_owner, unrestricted_actions] at hys'
  have hsame : ys.map id = ys'.map id :=
    forall₂_map_eq hys hys' fun _ _ _ h h' => actionOf_unique h h'
  rw [List.map_id, List.map_id] at hsame
  have howner := K'.owner
  have hrelevant := K'.relevant
  rw [unrestricted_owner] at howner
  rw [unrestricted_relevant] at hrelevant
  rw [actionPart, actionPart, K.owner, howner, K.relevant, hrelevant, hactions, hactions', hsame]

/-- The actions depend on these parts alone. -/
def partActions (parts : List (String × Bool × List NormalizedAction)) : List OwnedAction :=
  (((parts.filter (·.2.1)).insertionSort fun a b => a.1 ≤ b.1).flatMap fun p =>
    p.2.2.map (⟨p.1, ·⟩)).insertionSort fun a b => Composed.actionKey a ≤ Composed.actionKey b

theorem actions_eq_partActions {c : Composed} {normalized : List NormalizedContribution}
    (h : c.relevant = (normalized.filter (·.relevant)).insertionSort fun a b => a.owner ≤ b.owner) :
    c.actions = partActions (normalized.map actionPart) := by
  have hmap : c.relevant.map actionPart =
      ((normalized.map actionPart).filter (·.2.1)).insertionSort fun a b => a.1 ≤ b.1 := by
    rw [h, List.filter_map]
    exact List.map_insertionSort _ _ _ _ fun _ _ _ _ => Iff.rfl
  rw [partActions, ← hmap, List.flatMap_map]
  rfl

variable {input : DecisionInput} {c c' : Composed}

/-- Without an owner's restrictions the decision is made from the same actions. -/
theorem without_actions (C : Composes host input c) (C' : Composes host (input.without owner) c') :
    c.actions = c'.actions ∧ c.capabilities = c'.capabilities := by
  obtain ⟨routed, request, normalized, hroutes, hrequest, hall, -, hrelevant⟩ := C.sources
  obtain ⟨routed', request', normalized', hroutes', hrequest', hall', -, hrelevant'⟩ := C'.sources
  have hcapabilities : c.capabilities = c'.capabilities :=
    C.capabilities.trans C'.capabilities.symm
  obtain ⟨rfl, -⟩ := Prod.mk.inj (Except.ok.inj (hroutes.symm.trans hroutes'))
  rw [← hcapabilities] at hrequest'
  obtain ⟨hintent, -⟩ := Prod.mk.inj (Except.ok.inj (hrequest.symm.trans hrequest'))
  rw [← hcapabilities, ← hintent] at hall'
  refine ⟨?_, hcapabilities⟩
  rw [actions_eq_partActions hrelevant, actions_eq_partActions hrelevant']
  congr 1
  exact forall₂_map_eq hall (List.forall₂_map_left_iff.mp hall')
    fun _ _ _ K K' => contributes_actionPart K K'

/-- A scope is restricted by the owner or by the rest of the input. -/
theorem without_restricts {scope : String} :
    input.Restricts scope ↔
      (input.without owner).Restricts scope ∨ input.RestrictedBy owner scope := by
  constructor
  · rintro ⟨i, hi, hrelevant, h⟩
    by_cases howner : i.owner = owner
    · exact Or.inr ⟨i, hi, hrelevant, howner, h⟩
    · refine Or.inl ⟨i.unrestricted owner, List.mem_map_of_mem hi,
        (unrestricted_relevant i).trans hrelevant, ?_⟩
      rwa [ContributionInput.unrestricted, if_neg howner]
  · rintro (⟨j, hj, hrelevant, h⟩ | ⟨i, hi, hrelevant, -, h⟩)
    · obtain ⟨i, hi, rfl⟩ := List.mem_map.mp hj
      rw [unrestricted_relevant] at hrelevant
      unfold ContributionInput.unrestricted at h
      split at h
      · simp at h
      · exact ⟨i, hi, hrelevant, h⟩
    · exact ⟨i, hi, hrelevant, h⟩

theorem isAvailable_scopes {owned : OwnedAction} :
    c.isAvailable owned = true ↔ ∀ scope ∈ owned.scopes, scope ∉ c.constrained := by
  rw [isAvailable_iff]
  simp [OwnedAction.scopes]

theorem independentActions_congr (h : c.capabilities = c'.capabilities) :
    c.independentActions = c'.independentActions := by
  funext left right
  rw [Composed.independentActions, Composed.independentActions, h]

/-- **An action that is ready without an owner's restrictions is ready with them, unless they name
the task, its consequence or one of its effects.** -/
theorem ready_without (C : Composes host input c) (C' : Composes host (input.without owner) c')
    {owned : OwnedAction} (h : owned ∈ c'.ready) :
    owned ∈ c.ready ∨ ∃ scope ∈ owned.scopes, input.RestrictedBy owner scope := by
  obtain ⟨hactions, hcapabilities⟩ := without_actions C C'
  obtain ⟨haction, havailable, hindependent⟩ := mem_ready h
  by_cases hnamed : ∃ scope ∈ owned.scopes, input.RestrictedBy owner scope
  · exact Or.inr hnamed
  left
  have hstays : c.isAvailable owned = true := by
    rw [isAvailable_scopes] at havailable ⊢
    intro scope hscope
    rw [C.mem_constrained, @without_restricts owner, ← C'.mem_constrained, not_or]
    exact ⟨havailable scope hscope, fun hby => hnamed ⟨scope, hscope, hby⟩⟩
  have hsub : c.available.Sublist c'.available := by
    rw [Composed.available, Composed.available, hactions]
    refine List.monotone_filter_right _ fun x hx => ?_
    rw [isAvailable_scopes] at hx ⊢
    intro scope hscope hconstrained
    exact hx scope hscope (C.mem_constrained.mpr
      (without_restricts.mpr (Or.inl (C'.mem_constrained.mp hconstrained))))
  have hall : c.independent = true := by
    rw [Composed.independent, decide_eq_true_eq, independentActions_congr hcapabilities]
    exact (of_decide_eq_true hindependent).sublist hsub
  rw [Composed.ready, if_pos hall]
  exact List.mem_filter.mpr ⟨hactions ▸ haction, hstays⟩

end Without

/-! ## What discovery admits -/

namespace NativeIndependent

variable {e : Entry} {runtime : Runtime} {s : Selected} {combined : CapabilityContractInput}

/-- A selected owner has declared itself, in its own domain, with the effects it was granted. -/
structure SelectedFit (host : Host) (name : String) (s : Selected) : Prop where
  owner : s.owner = name
  identifier : identifier name = true
  capability : s.capability.owner = name
  effects : ∀ x ∈ s.capability.effects, x.domain = name ∧ x.id ∈ s.grants "effects"
  revision : ∃ registration contract,
    s.revision = host.digest (sealedGrants registration contract s.admission)

theorem registrationOf_owner {name : String} {registration : Registration}
    (h : registrationOf e name = .ok registration) : registration.owner = name := by
  unfold registrationOf at h
  split at h
  · rename_i one hone
    cases h
    have hmem : registration ∈ e.inventory.filter (·.owner = name) := by simp [hone]
    simpa using (List.mem_filter.mp hmem).2
  · cases h

theorem select_fit {name : String} (h : select host e name = .ok s) : SelectedFit host name s := by
  simp only [select, checkEffects, Except.bind_eq_ok_iff, check_eq_ok, Except.pure_eq_ok_iff,
    forM_eq_ok] at h
  obtain ⟨_, hidentifier, registration, hregistration, _, -, _, -, gap, -, _, hcapability, _,
    heffects, _, -, _, -, ⟨sources, total⟩, -, rfl⟩ := h
  exact ⟨registrationOf_owner hregistration, hidentifier, hcapability.1, heffects, _, _, rfl⟩

/-- What a successful discovery has found. -/
structure Discovers (host : Host) (e : Entry) (runtime : Runtime) : Prop where
  selected : List.Forall₂ (fun name s => SelectedFit host name s) e.names runtime.selected
  owners : runtime.contract.owners = runtime.selected.map Selected.capability
  claims : runtime.contract.claimAuthorities = runtime.selected.flatMap Selected.claims
  restrictions : ∃ restrictions, runtime.selected.mapM Selected.restriction = .ok restrictions ∧
    runtime.contract.restrictionAuthorities = restrictions.flatten

theorem discover_spec (h : discover host e = .ok runtime) : Discovers host e runtime := by
  simp only [discover, Except.bind_eq_ok_iff] at h
  obtain ⟨_, -, selected, hselected, restrictions, hrestrictions, h⟩ := h
  have hfit := (mapM_eq_ok.mp hselected).imp fun _ _ => select_fit
  split at h
  · cases h
    exact ⟨hfit, rfl, rfl, restrictions, hrestrictions, rfl⟩
  · simp only [Except.bind_eq_ok_iff, Except.pure_eq_ok_iff] at h
    obtain ⟨_, -, rfl⟩ := h
    exact ⟨hfit, rfl, rfl, restrictions, hrestrictions, rfl⟩

theorem isWhitespace_identifierChar {c : Char} (h : identifierChar c = true) :
    isWhitespace c = false := by
  simp only [identifierChar, lowercase, Bool.or_eq_true, Bool.and_eq_true, decide_eq_true_eq,
    beq_iff_eq, Char.le_def, UInt32.le_iff_toNat_le] at h
  simp only [isWhitespace, Bool.or_eq_false_iff, Bool.and_eq_false_iff,
    decide_eq_false_iff_not, beq_eq_false_iff_ne]
  rcases h with (⟨hlow, hhigh⟩ | ⟨hlow, hhigh⟩) | rfl
  · simp at hlow hhigh
    omega
  · simp at hlow hhigh
    omega
  · decide

/-- An identifier has nothing to trim. -/
theorem trim_identifier {name : String} (h : identifier name = true) : trim name = name := by
  simp only [identifier, Bool.and_eq_true, List.all_eq_true] at h
  refine trim_of_ends (fun c hc => ?_) fun c hc => ?_
  · exact isWhitespace_identifierChar (h.2 c (List.mem_of_mem_head? hc))
  · exact isWhitespace_identifierChar (h.2 c (List.mem_of_getLast? hc))

theorem Discovers.fit (D : Discovers host e runtime) (hs : s ∈ runtime.selected) :
    SelectedFit host s.owner s := by
  obtain ⟨name, -, F⟩ := List.Forall₂.exists_left D.selected s hs
  exact F.owner ▸ F

/-- Discovered owners have names of their own. -/
theorem Discovers.unique (D : Discovers host e runtime) {s' : Selected} (hs : s ∈ runtime.selected)
    (hs' : s' ∈ runtime.selected) (h : s.owner = s'.owner) : s = s' := by
  have hnames : ∀ {names : List String} {selected : List Selected},
      List.Forall₂ (fun name s => SelectedFit host name s) names selected →
      selected.map Selected.owner = names := by
    intro names selected hall
    induction hall with
    | nil => rfl
    | cons F _ ih => rw [List.map_cons, F.owner, ih]
  have hnodup : (runtime.selected.map Selected.owner).Nodup := by
    rw [hnames D.selected]
    exact nodup_sortDedup _
  exact List.inj_on_of_nodup_map hnodup hs hs' h

theorem mem_stringItems {v : Value} {items : List String} (h : stringItems v = some items)
    {item : String} (hitem : item ∈ items) : item ∈ strings v := by
  obtain ⟨values, hvalues, hmap⟩ := Option.bind_eq_some_iff.mp h
  rw [strings, mem_sortDedup, hvalues, Option.getD_some, List.mem_filterMap]
  clear h hvalues
  induction values generalizing items with
  | nil =>
    cases hmap
    cases hitem
  | cons value values ih =>
    simp only [List.mapM_cons, Option.bind_eq_bind, Option.bind_eq_some_iff, Option.pure_def,
      Option.some.injEq] at hmap
    obtain ⟨first, hfirst, rest, hrest, rfl⟩ := hmap
    rcases List.mem_cons.mp hitem with rfl | hitem
    · exact ⟨value, List.mem_cons_self, hfirst⟩
    · obtain ⟨value', hvalue', hread⟩ := ih hitem hrest
      exact ⟨value', List.mem_cons_of_mem _ hvalue', hread⟩

/-- An owner's restriction authority is its grant. -/
theorem restriction_granted {grants : List RestrictionAuthorityInput}
    (h : s.restriction = .ok grants) {g : RestrictionAuthorityInput} (hg : g ∈ grants) :
    g.owner = s.owner ∧ ∀ scope ∈ g.affects, scope ∈ s.grants "restrictions" := by
  unfold Selected.restriction at h
  split at h
  · cases h
    cases hg
  · simp only [restrictionScopes, Except.bind_eq_ok_iff, okOr_eq_ok, Except.pure_eq_ok_iff] at h
    obtain ⟨scopes, hscopes, rfl⟩ := h
    rw [List.mem_singleton] at hg
    subst hg
    exact ⟨rfl, fun scope hscope => mem_stringItems hscopes hscope⟩

theorem Discovers.restricts (D : Discovers host e runtime) {g : RestrictionAuthorityInput}
    (hg : g ∈ runtime.contract.restrictionAuthorities) : ∃ s ∈ runtime.selected,
      g.owner = s.owner ∧ ∀ scope ∈ g.affects, scope ∈ s.grants "restrictions" := by
  obtain ⟨restrictions, hrestrictions, heq⟩ := D.restrictions
  rw [heq, List.mem_flatten] at hg
  obtain ⟨grants, hgrants, hg⟩ := hg
  obtain ⟨s, hs, hrestriction⟩ := List.Forall₂.exists_left (mapM_eq_ok.mp hrestrictions) _ hgrants
  exact ⟨s, hs, restriction_granted hrestriction hg⟩

/-! ## What resolution contributes -/

/-- An action as its owner's operation was prepared. -/
structure Prepared (e : Entry) (s : Selected) (a : ActionInput) : Prop where
  operation : ∃ declaration ∈ s.capability.operations, a.operationId = declaration.id ∧
    a.effects = sortDedup declaration.effects
  publication : ∃ publication, (a.arguments.field "publication") =
      publicationValue s.owner publication ∧ publication.isSome = !a.effects.isEmpty ∧
    ∀ p ∈ publication, identifier p.name = true ∧
      publicationPath s.owner p.name ∉ s.registration.description.sources

theorem prepareAction_spec {request : Option Value} {operation : PreparedOperation}
    {a : ActionInput} (h : prepareAction host e s request operation = .ok a) : Prepared e s a := by
  simp only [prepareAction, Except.bind_eq_ok_iff, okOr_eq_ok, check_eq_ok,
    Except.pure_eq_ok_iff] at h
  obtain ⟨request, -, declaration, hdeclaration, _, hpublication, _, hname, _, hsource, _, -,
    rfl⟩ := h
  have hid := List.find?_some hdeclaration
  rw [decide_eq_true_eq] at hid
  refine ⟨⟨declaration, List.mem_of_find?_eq_some hdeclaration, hid.symm, rfl⟩,
    operation.publication, rfl, hpublication, fun p hp => ⟨hname p hp, fun hmem => ?_⟩⟩
  have hclean := hsource p hp
  simp only [replacesSource, List.any_eq_false] at hclean
  exact hclean _ hmem (by simp)

/-- A contribution of an independent owner. -/
structure ContributedBy (e : Entry) (s : Selected) (i : ContributionInput) : Prop where
  owner : i.owner = s.owner
  relevant : i.relevant = true
  claims : i.claims.allowed = []
  actions : ∀ a ∈ i.actions, Prepared e s a

theorem resolveOwner_spec {i : ContributionInput} {view : Value}
    (h : resolveOwner host e combined s = .ok (some i, view)) : ContributedBy e s i := by
  unfold resolveOwner at h
  split at h
  · simp only [Except.bind_eq_ok_iff, Except.pure_eq_ok_iff, Prod.mk.injEq] at h
    obtain ⟨_, -, hnone, -⟩ := h
    cases hnone
  · simp only [Except.bind_eq_ok_iff, Except.pure_eq_ok_iff, Prod.mk.injEq] at h
    obtain ⟨request, -, resolution, -, requests, -, actions, hactions, hi, -⟩ := h
    cases hi
    refine ⟨rfl, rfl, rfl, fun a ha => ?_⟩
    obtain ⟨operation, -, hprepared⟩ := List.Forall₂.exists_left (mapM_eq_ok.mp hactions) a ha
    exact prepareAction_spec hprepared

theorem resolve_spec {contributions : List ContributionInput} {views : List (String × Value)}
    (h : resolve host e runtime combined = .ok (contributions, views)) {i : ContributionInput}
    (hi : i ∈ contributions) : ∃ s ∈ runtime.selected, ContributedBy e s i := by
  simp only [resolve, Except.bind_eq_ok_iff, Except.pure_eq_ok_iff, Prod.mk.injEq] at h
  obtain ⟨resolved, hresolved, rfl, -⟩ := h
  obtain ⟨⟨found, view⟩, hmem, hfound⟩ := List.mem_filterMap.mp hi
  obtain ⟨s, hs, hresolve⟩ := List.Forall₂.exists_left (mapM_eq_ok.mp hresolved) _ hmem
  have heq : found = some i := hfound
  subst heq
  exact ⟨s, hs, resolveOwner_spec hresolve⟩

/-! ## Beside the program's own owners -/

/-- The program's own contracts and contributions, before and after the independent ones. Each
    contract's authorities name its own owners, each contribution is one of theirs, and none of
    their revisions is the digest of an independent owner's grants. -/
structure Natives (host : Host) where
  earlier : List CapabilityContractInput
  later : List CapabilityContractInput
  first : List ContributionInput
  last : List ContributionInput
  claims : ∀ k ∈ earlier ++ later, ∀ a ∈ k.claimAuthorities, ∃ o ∈ k.owners, o.owner = a.owner
  restrictions : ∀ k ∈ earlier ++ later, ∀ g ∈ k.restrictionAuthorities,
    ∃ o ∈ k.owners, o.owner = g.owner
  contributed : ∀ i ∈ first ++ last, ∃ k ∈ earlier ++ later, ∃ o ∈ k.owners,
    trim o.owner = trim i.owner
  apart : ∀ k ∈ earlier ++ later, ∀ o ∈ k.owners, ∀ registration contract admission,
    o.revision ≠ host.digest (sealedGrants registration contract admission)

/-- The rest of a request, and the revision of the combined contract. -/
structure Request where
  revision : String
  decisionContext : Option Continuity.Context
  intent : Value

def Natives.contract (N : Natives host) (request : Request) (runtime : Runtime) :
    CapabilityContractInput :=
  combinedContract request.revision (N.earlier ++ [runtime.contract] ++ N.later)

/-- The composed input. -/
def Natives.input (N : Natives host) (request : Request) (runtime : Runtime)
    (contributions : List ContributionInput) : DecisionInput :=
  { contributions := N.first ++ contributions ++ N.last
    decisionContext := request.decisionContext
    intent := request.intent
    capabilityContract := some (N.contract request runtime) }

theorem mem_mergeEntries {α : Type} [DecidableEq α] {lists : List (List α)} {x : α} :
    x ∈ mergeEntries lists ↔ ∃ l ∈ lists, x ∈ l := by
  have hfold : ∀ (entries kept : List α), x ∈ entries.foldl
      (fun entries entry => if entry ∈ entries then entries else entries ++ [entry]) kept ↔
      x ∈ kept ∨ x ∈ entries := by
    intro entries
    induction entries with
    | nil => simp
    | cons entry entries ih =>
      intro kept
      rw [List.foldl_cons, ih, List.mem_cons]
      split
      · rename_i hmem
        constructor
        · rintro (h | h)
          · exact Or.inl h
          · exact Or.inr (Or.inr h)
        · rintro (h | rfl | h)
          · exact Or.inl h
          · exact Or.inl hmem
          · exact Or.inr h
      · rw [List.mem_append, List.mem_singleton, or_assoc]
  rw [mergeEntries, hfold, List.mem_flatten]
  simp

variable {N : Natives host} {request : Request}

theorem mem_fragments {k : CapabilityContractInput} :
    k ∈ N.earlier ++ [runtime.contract] ++ N.later ↔
      k = runtime.contract ∨ k ∈ N.earlier ++ N.later := by
  simp only [List.mem_append, List.mem_singleton]
  constructor
  · rintro ((h | h) | h)
    · exact Or.inr (Or.inl h)
    · exact Or.inl h
    · exact Or.inr (Or.inr h)
  · rintro (h | h | h)
    · exact Or.inl (Or.inr h)
    · exact Or.inl (Or.inl h)
    · exact Or.inr h

theorem mem_owners {o : CapabilityOwnerInput} : o ∈ (N.contract request runtime).owners ↔
    o ∈ runtime.contract.owners ∨ ∃ k ∈ N.earlier ++ N.later, o ∈ k.owners := by
  simp only [Natives.contract, combinedContract, mem_mergeEntries, List.mem_map,
    exists_exists_and_eq_and, mem_fragments]
  simp [or_and_right, exists_or]

theorem mem_claims {a : ClaimAuthorityInput} :
    a ∈ (N.contract request runtime).claimAuthorities ↔
      a ∈ runtime.contract.claimAuthorities ∨ ∃ k ∈ N.earlier ++ N.later, a ∈ k.claimAuthorities := by
  simp only [Natives.contract, combinedContract, mem_mergeEntries, List.mem_map,
    exists_exists_and_eq_and, mem_fragments]
  simp [or_and_right, exists_or]

theorem mem_restrictions {g : RestrictionAuthorityInput} :
    g ∈ (N.contract request runtime).restrictionAuthorities ↔
      g ∈ runtime.contract.restrictionAuthorities ∨
        ∃ k ∈ N.earlier ++ N.later, g ∈ k.restrictionAuthorities := by
  simp only [Natives.contract, combinedContract, mem_mergeEntries, List.mem_map,
    exists_exists_and_eq_and, mem_fragments]
  simp [or_and_right, exists_or]

section Composed

variable (D : Discovers host e runtime) (F : (N.contract request runtime).Fit host)
include D F

/-- The combined contract declares a discovered owner once. -/
theorem owner_unique (hs : s ∈ runtime.selected) {o : CapabilityOwnerInput}
    (ho : o ∈ (N.contract request runtime).owners) (hname : trim o.owner = s.owner) :
    o = s.capability := by
  have hfit := D.fit hs
  have hown : s.capability ∈ (N.contract request runtime).owners := by
    rw [mem_owners, D.owners]
    exact Or.inl (List.mem_map_of_mem hs)
  by_contra hne
  have hsymm : Std.Symm Apart := ⟨fun _ _ => Apart.symm⟩
  have hapart := F.apart.forall ho hown hne
  refine hapart.owner (hname.trans ?_)
  rw [hfit.capability, trim_identifier hfit.identifier]

/-- None of the program's own owners has its name. -/
theorem native_apart (hs : s ∈ runtime.selected) {k : CapabilityContractInput}
    (hk : k ∈ N.earlier ++ N.later) {o : CapabilityOwnerInput} (ho : o ∈ k.owners) :
    trim o.owner ≠ s.owner := by
  intro hname
  have heq := owner_unique D F hs (mem_owners.mpr (Or.inr ⟨k, hk, ho⟩)) hname
  obtain ⟨registration, contract, hrevision⟩ := (D.fit hs).revision
  refine N.apart k hk o ho registration contract s.admission ?_
  rw [heq]
  exact hrevision

/-- A contribution under its name is the one it resolved to. -/
theorem contribution_resolved {contributions : List ContributionInput}
    {views : List (String × Value)} (hresolve : resolve host e runtime combined =
      .ok (contributions, views)) (hs : s ∈ runtime.selected) {i : ContributionInput}
    (hi : i ∈ (N.input request runtime contributions).contributions)
    (hname : trim i.owner = s.owner) : ContributedBy e s i := by
  have hplace : i ∈ N.first ++ contributions ++ N.last := hi
  rw [List.mem_append, List.mem_append] at hplace
  have hnative : i ∉ N.first ++ N.last := by
    intro hmem
    obtain ⟨k, hk, o, ho, howner⟩ := N.contributed i hmem
    exact native_apart D F hs hk ho (howner.trans hname)
  rw [List.mem_append, not_or] at hnative
  rcases hplace with (hfirst | hmem) | hlast
  · exact absurd hfirst hnative.1
  · obtain ⟨s', hs', hby⟩ := resolve_spec hresolve hmem
    have hsame : s'.owner = s.owner := by
      rw [← hname, hby.owner, trim_identifier (D.fit hs').identifier]
    exact D.unique hs' hs hsame ▸ hby
  · exact absurd hlast hnative.2

/-- An effect of a declared operation was granted. -/
theorem effect_granted (hs : s ∈ runtime.selected) {operation : OperationCapabilityInput}
    (hoperation : operation ∈ s.capability.operations) {effect : String}
    (heffect : effect ∈ operation.effects) : ∃ g ∈ s.grants "effects", trim g = effect := by
  have hown : s.capability ∈ (N.contract request runtime).owners := by
    rw [mem_owners, D.owners]
    exact Or.inl (List.mem_map_of_mem hs)
  have hcustody := ((F.owners s.capability hown).operations operation hoperation).custody effect
    heffect
  rw [ne_eq, enter_get_none, not_and_or, not_not] at hcustody
  rcases hcustody with hkey | hempty
  · rw [CapabilityOwnerInput.effectEntries, List.map_map] at hkey
    obtain ⟨x, hx, heq⟩ := List.mem_map.mp hkey
    exact ⟨x.id, ((D.fit hs).effects x hx).2, heq⟩
  · simp at hempty

/-- A claim the contract leaves to a discovered owner was granted to it. -/
theorem claim_granted (hs : s ∈ runtime.selected) {claim : String}
    (h : (N.contract request runtime).normal.claimAuthorities[claim]? = some s.owner) :
    ∃ g ∈ s.grants "claims", trim g = claim := by
  rw [CapabilityContractInput.normal, enter_get F.distinctClaims] at h
  rcases h with hentry | ⟨-, hempty⟩
  · obtain ⟨a, ha, heq⟩ := List.mem_map.mp hentry
    obtain ⟨hclaim, howner⟩ := Prod.mk.inj heq
    rcases mem_claims.mp ha with hmem | ⟨k, hk, hmem⟩
    · rw [D.claims, List.mem_flatMap] at hmem
      obtain ⟨s', hs', hmem⟩ := hmem
      obtain ⟨g, hg, rfl⟩ := List.mem_map.mp hmem
      have hsame : s'.owner = s.owner := by
        rw [← howner, trim_identifier (D.fit hs').identifier]
      exact ⟨g, D.unique hs' hs hsame ▸ hg, hclaim⟩
    · obtain ⟨o, ho, hown⟩ := N.claims k hk a hmem
      exact absurd (hown ▸ howner) (native_apart D F hs hk ho)
  · simp at hempty

/-- A scope the contract lets a discovered owner restrict was granted to it. -/
theorem scope_granted (hs : s ∈ runtime.selected) {scope : String}
    (h : scope ∈ ((N.contract request runtime).normal.restrictionAuthorities[s.owner]?).getD []) :
    scope ∈ s.grants "restrictions" := by
  obtain ⟨scopes, hscopes, hscope⟩ : ∃ scopes,
      (N.contract request runtime).normal.restrictionAuthorities[s.owner]? = some scopes ∧
        scope ∈ scopes := by
    cases hget : (N.contract request runtime).normal.restrictionAuthorities[s.owner]? with
    | none =>
      rw [hget] at h
      cases h
    | some scopes =>
      rw [hget] at h
      exact ⟨scopes, rfl, h⟩
  rw [CapabilityContractInput.normal, enter_get F.distinctRestrictions] at hscopes
  rcases hscopes with hentry | ⟨-, hempty⟩
  · obtain ⟨g, hg, heq⟩ := List.mem_map.mp hentry
    obtain ⟨howner, rfl⟩ := Prod.mk.inj heq
    rw [mem_sortDedup] at hscope
    rcases mem_restrictions.mp hg with hmem | ⟨k, hk, hmem⟩
    · obtain ⟨s', hs', hname, hgranted⟩ := D.restricts hmem
      have hsame : s'.owner = s.owner := by
        rw [← howner, hname, trim_identifier (D.fit hs').identifier]
      exact D.unique hs' hs hsame ▸ hgranted scope hscope
    · obtain ⟨o, ho, hown⟩ := N.restrictions k hk g hmem
      exact absurd (hown ▸ howner) (native_apart D F hs hk ho)
  · simp at hempty

end Composed

/-! ## Containment -/

/-- What an invocation of an independent owner may do. -/
structure Contained (s : Selected) (invocation : Value) : Prop where
  effects : ∃ effects, invocation.field "effects" = .strings effects ∧
    ∀ effect ∈ effects, ∃ g ∈ s.grants "effects", trim g = effect
  operation : ∃ operation ∈ s.capability.operations,
    invocation.field "operation_id" = .string (trim operation.id)
  write : ∀ path, destination invocation = .ok path → ∃ name, identifier name = true ∧
    path = publicationPath s.owner name ∧ path ∉ s.registration.description.sources

/-- The scope keeps the invocation from being ready. -/
def Withholds (scope : String) (invocation : Value) : Prop :=
  scope = TASK ∨ invocation.field "consequence_id" = .string scope ∨
    ∃ effects, invocation.field "effects" = .strings effects ∧
      ∃ effect ∈ effects, scope = s!"effect:{effect}"

/-- An invocation writes where its prepared publication says. -/
theorem destination_prepared {a : ActionInput} (P : Prepared e s a) {invocation : Value}
    (hargs : invocation.field "arguments" = a.arguments) {path : String}
    (h : destination invocation = .ok path) : ∃ name, identifier name = true ∧
      path = publicationPath s.owner name ∧ path ∉ s.registration.description.sources := by
  obtain ⟨publication, hvalue, -, hfit⟩ := P.publication
  simp only [destination, hargs, hvalue, Except.bind_eq_ok_iff, okOr_eq_ok,
    Except.pure_eq_ok_iff] at h
  obtain ⟨_, -, path', hpath, _, -, _, -, _, -, heq⟩ := h
  subst heq
  cases publication with
  | none => simp [publicationValue, Value.field, Value.get?, Value.asStr] at hpath
  | some p =>
    have heq : path' = publicationPath s.owner p.name := by
      simpa [publicationValue, Value.field, Value.get?, Value.asStr, eq_comm] using hpath
    obtain ⟨hname, hsource⟩ := hfit p rfl
    exact ⟨p.name, hname, heq, heq ▸ hsource⟩

section Decision

variable {contributions : List ContributionInput} {views : List (String × Value)} {c c' : Composed}

/-- A ready action of a discovered owner is contained. -/
theorem ready_contained (D : Discovers host e runtime)
    (hresolve : resolve host e runtime combined = .ok (contributions, views))
    (C : Composes host (N.input request runtime contributions) c) (hs : s ∈ runtime.selected)
    {owned : OwnedAction} (hready : owned ∈ c.ready) (howner : owned.owner = s.owner) :
    Contained s (Composed.invocation owned) := by
  have F : (N.contract request runtime).Fit host := C.contract _ rfl
  obtain ⟨haction, -, -⟩ := mem_ready hready
  obtain ⟨i, hi, -, hname, a, ha, hof⟩ := C.action_origin haction
  have hby := contribution_resolved D F hresolve hs hi (hname.symm.trans howner)
  have P := hby.actions a ha
  obtain ⟨declared, operation, -, -, -, -, hnormal⟩ := hof
  have hread := invocation_entry owned
  have heffects : owned.action.effects = a.effects := by rw [hnormal]; rfl
  have hid : owned.action.operationId = trim a.operationId := by rw [hnormal]; rfl
  have hargs : owned.action.arguments = a.arguments := by rw [hnormal]; rfl
  obtain ⟨declaration, hdeclaration, hoperation, hdeclared⟩ := P.operation
  refine ⟨⟨owned.action.effects, hread.effects, fun effect heffect => ?_⟩,
    ⟨declaration, hdeclaration, ?_⟩, fun path hpath => ?_⟩
  · rw [heffects, hdeclared, mem_sortDedup] at heffect
    exact effect_granted D F hs hdeclaration heffect
  · rw [← hoperation, ← hid]
    exact hread.operationId
  · exact destination_prepared P (hread.arguments.trans hargs) hpath

/-- No claim is allowed under the authority of a discovered owner: it contributes none. -/
theorem allowed_apart (D : Discovers host e runtime)
    (hresolve : resolve host e runtime combined = .ok (contributions, views))
    (C : Composes host (N.input request runtime contributions) c) (hs : s ∈ runtime.selected)
    {claim : String} (hclaim : claim ∈ c.allowedClaims) :
    (N.contract request runtime).normal.claimAuthorities[claim]? ≠ some s.owner := by
  have F : (N.contract request runtime).Fit host := C.contract _ rfl
  intro hauthority
  rw [Composed.allowedClaims, mem_sortDedup, List.mem_filter, List.mem_flatMap] at hclaim
  obtain ⟨⟨n, hn, hclaim⟩, -⟩ := hclaim
  obtain ⟨i, hi, -, K⟩ := C.origin hn
  rw [K.allowed, List.mem_filter, mem_sortDedup] at hclaim
  have hcapabilities : c.capabilities = some (N.contract request runtime).normal :=
    C.capabilities
  have howner := (K.authority _ hcapabilities).1 claim hclaim.1
  have hname : trim i.owner = s.owner :=
    Option.some.inj (howner.symm.trans hauthority)
  have hby := contribution_resolved D F hresolve hs hi hname
  rw [hby.claims] at hclaim
  cases hclaim.1

/-- What a relevant contribution of a discovered owner restricts, beside its own attestation, was
    granted to it. -/
theorem restricted_granted (D : Discovers host e runtime)
    (C : Composes host (N.input request runtime contributions) c) (hs : s ∈ runtime.selected)
    {scope : String}
    (h : (N.input request runtime contributions).RestrictedBy s.owner scope) :
    scope = s!"attestation:{s.owner}" ∨ scope ∈ s.grants "restrictions" := by
  have F : (N.contract request runtime).Fit host := C.contract _ rfl
  obtain ⟨i, hi, hrelevant, howner, hscope⟩ := h
  obtain ⟨n, -, K⟩ := C.image hi hrelevant
  have hcapabilities : c.capabilities = some (N.contract request runtime).normal :=
    C.capabilities
  have hmem : scope ∈ restrictedScopes n.blockers n.decisions n.blocked := by
    simp only [restrictedScopes, List.mem_append, List.mem_flatMap]
    exact Or.inl (K.restricts.mpr hscope)
  have hchecked := (K.authority _ hcapabilities).2 scope hmem
  rw [checkRestriction, check_eq_ok, howner, trim_identifier (D.fit hs).identifier] at hchecked
  exact hchecked.imp_right (scope_granted D F hs)

/-- No action waits for an attestation. -/
theorem scopes_ne_attestation (C : Composes host (N.input request runtime contributions) c)
    {owned : OwnedAction} (h : owned ∈ c.actions) {scope owner : String}
    (hscope : scope ∈ owned.scopes) : scope ≠ s!"attestation:{owner}" := by
  obtain ⟨i, -, -, -, a, -, declared, operation, -, -, -, -, hnormal⟩ := C.action_origin h
  intro heq
  subst heq
  have hne : ∀ pre rest : String, pre.toList.take 2 ≠ ['a', 't'] → 2 ≤ pre.toList.length →
      s!"attestation:{owner}" ≠ pre ++ rest := by
    intro pre rest hpre hlength h
    apply hpre
    have hhead := congrArg (fun t : String => t.toList.take 2) h
    simp only [String.toList_append, List.take_append_of_le_length hlength] at hhead
    rw [← hhead]
    rfl
  rcases List.mem_cons.mp hscope with h | hscope
  · exact hne "task" "" (by decide) (by decide) h
  rcases List.mem_cons.mp hscope with h | hscope
  · have hid : owned.action.consequenceId = "action:" ++ trim i.owner ++ ":" ++
        host.digest (.object [
          ("dependency_revision", .string owned.action.dependencyRevision),
          ("logical_effect_id", .string owned.action.logicalEffectId)]) := by
      rw [hnormal]
      rfl
    rw [hid] at h
    simp only [String.append_assoc] at h
    exact hne "action:" _ (by decide) (by decide) h
  · obtain ⟨effect, -, h⟩ := List.mem_map.mp hscope
    exact hne "effect:" _ (by decide) (by decide) h.symm

theorem withholds_of_scope {owned : OwnedAction} {scope : String} (h : scope ∈ owned.scopes) :
    Withholds scope (Composed.invocation owned) := by
  have hread := invocation_entry owned
  rcases List.mem_cons.mp h with rfl | h
  · exact Or.inl rfl
  rcases List.mem_cons.mp h with rfl | h
  · exact Or.inr (Or.inl hread.consequenceId)
  · obtain ⟨effect, heffect, rfl⟩ := List.mem_map.mp h
    exact Or.inr (Or.inr ⟨_, hread.effects, effect, heffect, rfl⟩)

end Decision

/-- **An independent owner stays within its admission.** Whenever the owners are discovered and
resolved, and the input composed of them and the program's own compiles: every ready action of a
discovered owner has granted effects, up to what is trimmed, an operation it declares, and writes a
record of its own which it does not read; no claim is allowed under its authority, which was granted;
and what is ready without its blockers and decisions is ready with them, unless a scope it may
restrict withholds it. -/
theorem independent_contained {host : Host} {e : Entry} {N : Natives host} {request : Request}
    {runtime : Runtime} {contributions : List ContributionInput} {views : List (String × Value)}
    {decision : Value} (hdiscover : discover host e = .ok runtime)
    (hresolve : resolve host e runtime (N.contract request runtime) = .ok (contributions, views))
    (hcompile : host.compile (N.input request runtime contributions) = .ok decision) :
    ∃ ready allowed, decision.field "ready_actions" = .array ready ∧
      (decision.field "claim_boundary").field "allowed" = .strings allowed ∧
      ∀ s ∈ runtime.selected,
        (∀ v ∈ ready, v.field "source_owner" = .string s.owner → Contained s v) ∧
        (∀ claim, (N.contract request runtime).normal.claimAuthorities[claim]? = some s.owner →
          (∃ g ∈ s.grants "claims", trim g = claim) ∧ claim ∉ allowed) ∧
        ∀ decision' ready',
          host.compile ((N.input request runtime contributions).without s.owner) = .ok decision' →
          decision'.field "ready_actions" = .array ready' →
          ∀ v ∈ ready', v ∈ ready ∨ ∃ scope ∈ s.grants "restrictions", Withholds scope v := by
  have D := discover_spec hdiscover
  obtain ⟨c, C, R⟩ := compile_reports hcompile
  have F : (N.contract request runtime).Fit host := C.contract _ rfl
  refine ⟨c.readyActions, c.allowedClaims, R.ready, by rw [R.boundary]; rfl, fun s hs =>
    ⟨fun v hv howner => ?_, fun claim hclaim => ⟨claim_granted D F hs hclaim, fun hallowed =>
      allowed_apart D hresolve C hs hallowed hclaim⟩, fun decision' ready' hcompile' hready' v hv =>
      ?_⟩⟩
  · obtain ⟨owned, howned, rfl⟩ := List.mem_map.mp hv
    have hread := (invocation_entry owned).owner
    exact ready_contained D hresolve C hs howned (Value.string.inj (hread.symm.trans howner))
  · obtain ⟨c', C', R'⟩ := compile_reports hcompile'
    have hentries : c'.readyActions = ready' := Value.array.inj (R'.ready.symm.trans hready')
    rw [← hentries] at hv
    obtain ⟨owned, howned, rfl⟩ := List.mem_map.mp hv
    rcases ready_without C C' howned with hready | ⟨scope, hscope, hby⟩
    · exact Or.inl (List.mem_map_of_mem hready)
    · right
      have haction : owned ∈ c.actions := (without_actions C C').1 ▸ (mem_ready howned).1
      refine ⟨scope, ?_, withholds_of_scope hscope⟩
      exact (restricted_granted D C hs hby).resolve_left (scopes_ne_attestation C haction hscope)

/-! ### An effect declared with a space -/

def sampleRevision : String :=
  "sha256:0000000000000000000000000000000000000000000000000000000000000000"

def sampleWork : Value := .object [("id", .string "task"), ("kind", .string "current-work")]

def samplePublicRequest : Value :=
  .object [("arguments", .object []), ("capability_revision", .string sampleRevision),
    ("id", .string "notes:write"), ("kind", .string PUBLIC_REQUEST_KIND),
    ("owner", .string "notes"), ("owner_revision", .string sampleRevision),
    ("request_kind", .string "write"), ("source_revision", .string sampleRevision),
    ("task_identity", sampleWork)]

def sampleRegistration : Registration where
  owner := "notes"
  revision := "r1"
  apiVersion := 1
  description := {
    capability := {
      owner := "notes", revision := "r1", domains := ["notes"], effects := [⟨" publish", "notes"⟩]
      operations := [{
        id := "write", semanticRevision := "s1", reads := some []
        inputSchema := operationSchema, resultKind := "result", effects := ["publish"]
        claims := [] }]
      requests := [⟨"write", sampleSchema, "result"⟩] }
    configurationSchema := sampleSchema, sources := [], raw := .object [] }
  resolve _ := .ok {
    facts := .object [], blockers := [], requests := []
    operation := some ⟨"write", .object [], some ⟨"note", .object []⟩⟩ }

def sampleEntry : Entry where
  target := "repository"
  read _ := .ok none
  windows := false
  inventory := [sampleRegistration]
  admissions := [("notes", .object [("binding", .string sampleRevision), ("claims", .strings []),
    ("effects", .strings [" publish"]), ("reads", .strings []), ("restrictions", .strings []),
    ("scope", .strings [])])]
  work := sampleWork
  changed := []
  requests := [samplePublicRequest]

def sampleNatives : Natives sampleHost where
  earlier := [{ sampleContract with owners := [sampleOwner "a"] }]
  later := []
  first := [sampleContribution "a"]
  last := []
  claims := by simp [sampleContract]
  restrictions := by simp [sampleContract]
  contributed := by
    intro i hi
    rw [List.append_nil, List.mem_singleton] at hi
    subst hi
    exact ⟨_, List.mem_singleton_self _, _, List.mem_singleton_self _, rfl⟩
  apart := by
    intro k hk o ho registration contract admission
    rw [List.append_nil, List.mem_singleton] at hk
    subst hk
    rw [List.mem_singleton] at ho
    subst ho
    show "r1" ≠ sampleRevision
    decide

def sampleIntent : AgenticCore.NativeIndependent.Request where
  revision := sampleRevision
  decisionContext := none
  intent := .object [("current_work", sampleWork)]

/-- Discovery, resolution and compilation in one. -/
def composed : Result (Runtime × List ContributionInput × List (String × Value) × Value) := do
  let runtime ← discover sampleHost sampleEntry
  let (contributions, views) ←
    resolve sampleHost sampleEntry runtime (sampleNatives.contract sampleIntent runtime)
  let decision ← sampleHost.compile (sampleNatives.input sampleIntent runtime contributions)
  pure (runtime, contributions, views, decision)

/-- The ready actions of an owner. -/
def readyOf (owner : String) (decision : Value) : List Value :=
  ((decision.field "ready_actions").asArray.getD []).filter fun v =>
    v.field "source_owner" == .string owner

theorem composed_publishes : composed.toOption.map (fun r =>
      (r.1.selected.map fun s => (s.owner, s.grants "effects"),
        (readyOf "notes" r.2.2.2).map (·.field "effects"))) =
    some ([("notes", [" publish"])], [.strings ["publish"]]) := by
  unfold composed resolve resolveOwner prepareAction
  simp only [check_size]
  decide +kernel

theorem composed_ok : ∃ runtime contributions views decision,
    discover sampleHost sampleEntry = .ok runtime ∧
      resolve sampleHost sampleEntry runtime (sampleNatives.contract sampleIntent runtime) =
        .ok (contributions, views) ∧
      sampleHost.compile (sampleNatives.input sampleIntent runtime contributions) = .ok decision ∧
      runtime.selected.map (fun s => (s.owner, s.grants "effects")) = [("notes", [" publish"])] ∧
      (readyOf "notes" decision).map (·.field "effects") = [.strings ["publish"]] := by
  have h := composed_publishes
  cases hcomposed : composed with
  | error problem =>
    rw [hcomposed] at h
    cases h
  | ok r =>
    rw [hcomposed] at h
    obtain ⟨hgrants, heffects⟩ := Prod.mk.inj (Option.some.inj h)
    simp only [composed, Except.bind_eq_ok_iff, Except.pure_eq_ok_iff] at hcomposed
    obtain ⟨runtime, hdiscover, ⟨contributions, views⟩, hresolve, decision, hcompile, rfl⟩ :=
      hcomposed
    exact ⟨runtime, contributions, views, decision, hdiscover, hresolve, hcompile, hgrants, heffects⟩

theorem independent_contained_notes : ∃ runtime contributions decision ready allowed,
    runtime.selected.length = 1 ∧
      sampleHost.compile (sampleNatives.input sampleIntent runtime contributions) = .ok decision ∧
      decision.field "ready_actions" = .array ready ∧
      (decision.field "claim_boundary").field "allowed" = .strings allowed ∧
      ∀ s ∈ runtime.selected,
        (∀ v ∈ ready, v.field "source_owner" = .string s.owner → Contained s v) ∧
        (∀ claim, (sampleNatives.contract sampleIntent runtime).normal.claimAuthorities[claim]? =
            some s.owner → (∃ g ∈ s.grants "claims", trim g = claim) ∧ claim ∉ allowed) ∧
        ∀ decision' ready',
          sampleHost.compile ((sampleNatives.input sampleIntent runtime contributions).without
            s.owner) = .ok decision' →
          decision'.field "ready_actions" = .array ready' →
          ∀ v ∈ ready', v ∈ ready ∨ ∃ scope ∈ s.grants "restrictions", Withholds scope v := by
  obtain ⟨runtime, contributions, views, decision, hdiscover, hresolve, hcompile, hgrants, -⟩ :=
    composed_ok
  obtain ⟨ready, allowed, hready, hallowed, h⟩ :=
    independent_contained hdiscover hresolve hcompile
  have hlength := congrArg List.length hgrants
  rw [List.length_map] at hlength
  exact ⟨runtime, contributions, decision, ready, allowed, hlength, hcompile, hready, hallowed, h⟩

/-- The ready action's effect is not among the granted ones, but for a space. -/
theorem granted_effect_trimmed : ∃ runtime contributions views decision s ready v,
    discover sampleHost sampleEntry = .ok runtime ∧
      resolve sampleHost sampleEntry runtime (sampleNatives.contract sampleIntent runtime) =
        .ok (contributions, views) ∧
      sampleHost.compile (sampleNatives.input sampleIntent runtime contributions) = .ok decision ∧
      s ∈ runtime.selected ∧ decision.field "ready_actions" = .array ready ∧ v ∈ ready ∧
      v.field "source_owner" = .string s.owner ∧ v.field "effects" = .strings ["publish"] ∧
      "publish" ∉ s.grants "effects" := by
  obtain ⟨runtime, contributions, views, decision, hdiscover, hresolve, hcompile, hgrants,
    heffects⟩ := composed_ok
  obtain ⟨c, -, R⟩ := compile_reports hcompile
  obtain ⟨s, hs, hsample⟩ : ∃ s ∈ runtime.selected, (s.owner, s.grants "effects") =
      ("notes", [" publish"]) := by
    apply List.mem_map.mp
    rw [hgrants]
    exact List.mem_singleton_self _
  obtain ⟨v, hv, heffect⟩ : ∃ v ∈ readyOf "notes" decision, v.field "effects" =
      .strings ["publish"] := by
    apply List.mem_map.mp
    rw [heffects]
    exact List.mem_singleton_self _
  obtain ⟨howner, hgranted⟩ := Prod.mk.inj hsample
  rw [readyOf, R.ready, List.mem_filter] at hv
  refine ⟨runtime, contributions, views, decision, s, c.readyActions, v, hdiscover, hresolve,
    hcompile, hs, R.ready, hv.1, ?_, heffect, ?_⟩
  · rw [howner]
    exact eq_of_beq hv.2
  · rw [hgranted]
    decide

end NativeIndependent

end AgenticCore
