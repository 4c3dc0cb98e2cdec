import AgenticCore.CapabilityAdmission

/-!
# Reordered capability contracts

* `PermutedBy`            : one list is a permutation of another up to a relation on the elements.
* `Permuted` (each input) : the same input with its lists reordered.
* `Permuted.fit`          : a reordered contract is as fit,
* `Permuted.normal_eq`    : with the same normal form.
-/

set_option autoImplicit false

namespace AgenticCore

open Json Text Registry

/-! ## Permutations up to a relation -/

section PermutedBy

variable {α β : Type} {R : α → α → Prop} {l l' : List α}

/-- `l'` is `l` in another order, each element replaced by a related one. -/
def PermutedBy (R : α → α → Prop) (l l' : List α) : Prop :=
  ∃ mid, l.Perm mid ∧ List.Forall₂ R mid l'

theorem PermutedBy.symm (hR : ∀ a b, R a b → R b a) (h : PermutedBy R l l') : PermutedBy R l' l := by
  obtain ⟨mid, hperm, hall⟩ := h
  have hback : List.Forall₂ R l' mid := hall.flip.imp fun a b => hR b a
  obtain ⟨mid', hperm', hall'⟩ :
      Relation.Comp List.Perm (List.Forall₂ R) l' l := by
    rw [← List.forall₂_comp_perm_eq_perm_comp_forall₂]
    exact ⟨mid, hback, hperm.symm⟩
  exact ⟨mid', hperm', hall'⟩

theorem PermutedBy.forall (h : PermutedBy R l l') {P Q : α → Prop} (hP : ∀ a b, R a b → P a → Q b)
    (hl : ∀ a ∈ l, P a) : ∀ b ∈ l', Q b := by
  obtain ⟨mid, hperm, hall⟩ := h
  intro b hb
  obtain ⟨a, ha, hab⟩ := List.Forall₂.exists_left hall b hb
  exact hP a b hab (hl a (hperm.mem_iff.mpr ha))

theorem PermutedBy.map (h : PermutedBy R l l') {f : α → β} (hf : ∀ a b, R a b → f a = f b) :
    (l.map f).Perm (l'.map f) := by
  obtain ⟨mid, hperm, hall⟩ := h
  have heq : mid.map f = l'.map f := by
    clear hperm
    induction hall with
    | nil => rfl
    | cons hab _ ih => rw [List.map_cons, List.map_cons, hf _ _ hab, ih]
  exact heq ▸ hperm.map f

theorem PermutedBy.pairwise (h : PermutedBy R l l') {S : α → α → Prop} (hS : ∀ {a b}, S a b → S b a)
    (hRS : ∀ a a' b b', R a a' → R b b' → S a b → S a' b') (hl : l.Pairwise S) : l'.Pairwise S := by
  obtain ⟨mid, hperm, hall⟩ := h
  have hmid := hperm.pairwise hl hS
  clear hperm
  induction hall with
  | nil => exact .nil
  | cons hab htail ih =>
    rw [List.pairwise_cons] at hmid
    refine .cons (fun b hb => ?_) (ih hmid.2)
    obtain ⟨a, ha, hR⟩ := List.Forall₂.exists_left htail b hb
    exact hRS _ _ _ _ hab hR (hmid.1 a ha)

theorem PermutedBy.exists_right (h : PermutedBy R l l') {a : α} (ha : a ∈ l) :
    ∃ b ∈ l', R a b := by
  obtain ⟨mid, hperm, hall⟩ := h
  exact List.Forall₂.exists_right hall a (hperm.mem_iff.mp ha)

theorem PermutedBy.nil_iff (h : PermutedBy R l l') : l = [] ↔ l' = [] := by
  obtain ⟨mid, hperm, hall⟩ := h
  rw [← List.length_eq_zero_iff, ← List.length_eq_zero_iff, hperm.length_eq, hall.length_eq]

/-- What each element becomes, becomes of the reordered list in another order. -/
theorem PermutedBy.images (h : PermutedBy R l l') {Q : α → β → Prop}
    (hQ : ∀ a a' b, R a a' → Q a b → Q a' b) {ys : List β} (hys : List.Forall₂ Q l ys) :
    ∃ ys', List.Forall₂ Q l' ys' ∧ ys'.Perm ys := by
  obtain ⟨mid, hperm, hall⟩ := h
  obtain ⟨ys', hmid, hperm'⟩ := List.perm_comp_forall₂ hperm.symm hys
  refine ⟨ys', ?_, hperm'⟩
  clear hperm hperm' hys
  induction hall generalizing ys' with
  | nil => exact hmid
  | cons hab _ ih =>
    rw [List.forall₂_cons_left_iff] at hmid
    obtain ⟨b, bs, hb, hbs, rfl⟩ := hmid
    exact .cons (hQ _ _ _ hab hb) (ih bs hbs)

end PermutedBy

theorem nameList_perm {l l' : List String} (h : l.Perm l') (hl : NameList l) : NameList l' := by
  refine ⟨fun v hv => hl.1 v (h.mem_iff.mpr hv), ?_⟩
  rw [← sortDedup_eq_of_perm h, ← h.length_eq]
  exact hl.2

/-! ## Reordered contracts -/

structure OperationCapabilityInput.Permuted (op op' : OperationCapabilityInput) : Prop where
  rest : { op' with effects := op.effects, claims := op.claims, reads := op.reads } = op
  effects : op.effects.Perm op'.effects
  claims : op.claims.Perm op'.claims
  reads : Option.Rel List.Perm op.reads op'.reads

structure CapabilityOwnerInput.Permuted (o o' : CapabilityOwnerInput) : Prop where
  owner : o'.owner = o.owner
  revision : o'.revision = o.revision
  domains : o.domains.Perm o'.domains
  effects : o.effects.Perm o'.effects
  operations : PermutedBy OperationCapabilityInput.Permuted o.operations o'.operations
  requests : o.requests.Perm o'.requests

structure RestrictionAuthorityInput.Permuted (g g' : RestrictionAuthorityInput) : Prop where
  owner : g'.owner = g.owner
  affects : g.affects.Perm g'.affects

structure CapabilityContractInput.Permuted (k k' : CapabilityContractInput) : Prop where
  kind : k'.kind = k.kind
  revision : k'.revision = k.revision
  owners : PermutedBy CapabilityOwnerInput.Permuted k.owners k'.owners
  claims : k.claimAuthorities.Perm k'.claimAuthorities
  restrictions : PermutedBy RestrictionAuthorityInput.Permuted k.restrictionAuthorities
    k'.restrictionAuthorities

namespace OperationCapabilityInput.Permuted

variable {op op' : OperationCapabilityInput} (P : op.Permuted op')
include P

theorem symm : op'.Permuted op where
  rest := by rw [← P.rest]
  effects := P.effects.symm
  claims := P.claims.symm
  reads := by
    have h := P.reads
    generalize op.reads = reads, op'.reads = reads' at h
    cases h with
    | none => exact .none
    | some h => exact .some h.symm

theorem id_eq : op'.id = op.id := by rw [← P.rest]

theorem schema_eq : op'.inputSchema = op.inputSchema := by rw [← P.rest]

theorem semantic_eq : op'.semanticRevision = op.semanticRevision := by rw [← P.rest]

theorem result_eq : op'.resultKind = op.resultKind := by rw [← P.rest]

theorem normal_eq : normalOperation op' = normalOperation op := by
  have hreads : op'.reads.map sortDedup = op.reads.map sortDedup := by
    have h := P.reads
    generalize op.reads = reads, op'.reads = reads' at h
    cases h with
    | none => rfl
    | some h => rw [Option.map_some, Option.map_some, sortDedup_eq_of_perm h]
  simp only [normalOperation, P.semantic_eq, hreads, P.schema_eq, P.result_eq,
    sortDedup_eq_of_perm P.effects, sortDedup_eq_of_perm P.claims]

theorem fit {host : Host} {owned : BTreeMap String String} (F : OperationFit host owned op) :
    OperationFit host owned op' where
  id := P.id_eq ▸ F.id
  schema := P.schema_eq ▸ F.schema
  effects := nameList_perm P.effects F.effects
  custody := fun e he => F.custody e (P.effects.mem_iff.mpr he)
  claims := nameList_perm P.claims F.claims
  semanticRevision := P.semantic_eq ▸ F.semanticRevision
  reads := by
    intro r hr
    have h := P.reads
    have hF := F.reads
    rw [Option.mem_def.mp hr] at h
    cases hop : op.reads with
    | none =>
      rw [hop] at h
      cases h
    | some s =>
      rw [hop] at h
      cases h with
      | some h => exact nameList_perm h (hF s hop)
  resultKind := P.result_eq ▸ F.resultKind

end OperationCapabilityInput.Permuted

namespace CapabilityOwnerInput.Permuted

variable {o o' : CapabilityOwnerInput} (P : o.Permuted o')
include P

theorem symm : o'.Permuted o where
  owner := P.owner.symm
  revision := P.revision.symm
  domains := P.domains.symm
  effects := P.effects.symm
  operations := P.operations.symm fun _ _ h => h.symm
  requests := P.requests.symm

theorem domainNames_eq : o'.domainNames = o.domainNames := (sortDedup_eq_of_perm P.domains).symm

theorem effectNames_perm : o.effectNames.Perm o'.effectNames := P.effects.map _

theorem operationNames_perm : o.operationNames.Perm o'.operationNames :=
  P.operations.map fun _ _ h => by rw [h.id_eq]

theorem requestNames_perm : o.requestNames.Perm o'.requestNames := P.requests.map _

theorem effects_eq (h : o.effectNames.Nodup) :
    enter (∅ : BTreeMap String String) o'.effectEntries = enter ∅ o.effectEntries := by
  refine (enter_perm (P.effects.map _) ?_ ∅).symm
  rw [List.map_map]
  exact h

theorem normal_eq {host : Host} (F : o.Fit host) : o'.normal = o.normal := by
  have hoperations : enter (∅ : BTreeMap String NormalizedOperationCapability) o'.operationEntries =
      enter ∅ o.operationEntries := by
    refine (enter_perm (P.operations.map fun _ _ h => by rw [h.id_eq, h.normal_eq]) ?_ ∅).symm
    rw [List.map_map]
    exact F.distinctOperations
  have hrequests : enter (∅ : BTreeMap String NormalizedRequestShape) o'.requestEntries =
      enter ∅ o.requestEntries := by
    refine (enter_perm (P.requests.map _) ?_ ∅).symm
    rw [List.map_map]
    exact F.distinctRequests
  simp only [CapabilityOwnerInput.normal, P.revision, P.domainNames_eq,
    P.effects_eq F.distinctEffects, hoperations, hrequests]

theorem fit {host : Host} (F : o.Fit host) : o'.Fit host where
  owner := P.owner ▸ F.owner
  revision := P.revision ▸ F.revision
  domains := nameList_perm P.domains F.domains
  effects := fun e he => P.domainNames_eq ▸ F.effects e (P.effects.mem_iff.mpr he)
  distinctEffects := P.effectNames_perm.nodup_iff.mp F.distinctEffects
  operations := by
    rw [P.effects_eq F.distinctEffects]
    exact P.operations.forall (fun _ _ h => h.fit) F.operations
  distinctOperations := P.operationNames_perm.nodup_iff.mp F.distinctOperations
  requests := fun r hr => F.requests r (P.requests.mem_iff.mpr hr)
  distinctRequests := P.requestNames_perm.nodup_iff.mp F.distinctRequests

end CapabilityOwnerInput.Permuted

theorem disjoint_perm {xs xs' ys ys' : List String} (hx : xs.Perm xs') (hy : ys.Perm ys')
    (h : xs.Disjoint ys) : xs'.Disjoint ys' := fun _ hmem hmem' =>
  h (hx.mem_iff.mpr hmem) (hy.mem_iff.mpr hmem')

theorem Apart.permuted {o o' p p' : CapabilityOwnerInput} (O : o.Permuted o') (P : p.Permuted p')
    (A : Apart o p) : Apart o' p' where
  owner := by rw [O.owner, P.owner]; exact A.owner
  domains := by rw [O.domainNames_eq, P.domainNames_eq]; exact A.domains
  effects := disjoint_perm O.effectNames_perm P.effectNames_perm A.effects
  operations := disjoint_perm O.operationNames_perm P.operationNames_perm A.operations
  requests := disjoint_perm O.requestNames_perm P.requestNames_perm A.requests

theorem affects_perm {values values' : List String} {field : String} (h : values.Perm values')
    (hok : affects values field = .ok (sortDedup values)) :
    affects values' field = .ok (sortDedup values') := by
  obtain ⟨hne, hempty, hsupported, -⟩ := affects_eq_ok.mp hok
  rw [affects_eq_ok, ← sortDedup_eq_of_perm h]
  exact ⟨fun v hv => hne v (h.mem_iff.mpr hv), hempty, hsupported, rfl⟩

namespace CapabilityContractInput.Permuted

variable {k k' : CapabilityContractInput} (P : k.Permuted k')
include P

theorem symm : k'.Permuted k where
  kind := P.kind.symm
  revision := P.revision.symm
  owners := P.owners.symm fun _ _ h => h.symm
  claims := P.claims.symm
  restrictions := P.restrictions.symm fun _ _ h => ⟨h.owner.symm, h.affects.symm⟩

theorem claimEntries_perm : k.claimEntries.Perm k'.claimEntries := P.claims.map _

theorem restrictionEntries_perm : k.restrictionEntries.Perm k'.restrictionEntries :=
  P.restrictions.map fun _ _ h => by rw [h.owner, sortDedup_eq_of_perm h.affects]

theorem hasOwner {name : String} (h : k.HasOwner name) : k'.HasOwner name := by
  obtain ⟨o, ho, rfl⟩ := h
  obtain ⟨o', ho', Q⟩ := P.owners.exists_right ho
  exact ⟨o', ho', by rw [Q.owner]⟩

theorem operationAdmitted {owner : String} {op op' : OperationCapabilityInput}
    (Q : op.Permuted op') (h : k.OperationAdmitted owner op) : k'.OperationAdmitted owner op' := by
  constructor
  · intro reads' hreads' d hd
    have hrel := Q.reads
    rw [Option.mem_def.mp hreads'] at hrel
    cases hop : op.reads with
    | none =>
      rw [hop] at hrel
      cases hrel
    | some reads =>
      rw [hop] at hrel
      cases hrel with
      | some hperm =>
        obtain ⟨o, ho, hmem⟩ := h.1 reads hop d (hperm.mem_iff.mpr hd)
        obtain ⟨o', ho', O⟩ := P.owners.exists_right ho
        exact ⟨o', ho', O.domains.mem_iff.mp hmem⟩
  · intro claim hclaim
    exact P.claimEntries_perm.mem_iff.mp (h.2 claim (Q.claims.mem_iff.mpr hclaim))

theorem fit {host : Host} (F : k.Fit host) : k'.Fit host where
  kind := P.kind.trans F.kind
  revision := P.revision ▸ F.revision
  sha256 := P.revision ▸ F.sha256
  owners := P.owners.forall (fun _ _ h => h.fit) F.owners
  apart := P.owners.pairwise Apart.symm (fun _ _ _ _ hO hP => Apart.permuted hO hP) F.apart
  nonempty := fun h => F.nonempty (P.owners.nil_iff.mpr h)
  claims := fun a ha => by
    obtain ⟨hclaim, howner, hhas⟩ := F.claims a (P.claims.mem_iff.mpr ha)
    exact ⟨hclaim, howner, P.hasOwner hhas⟩
  distinctClaims := (P.claimEntries_perm.map _).nodup_iff.mp F.distinctClaims
  operations := P.owners.forall (fun o o' O h => by
    rw [O.owner]
    exact O.operations.forall (fun op op' Q => P.operationAdmitted Q) h) F.operations
  restrictions := P.restrictions.forall (fun g g' G h => by
    obtain ⟨howner, hhas, haffects⟩ := h
    rw [G.owner]
    exact ⟨howner, P.hasOwner hhas, affects_perm G.affects haffects⟩) F.restrictions
  distinctRestrictions := (P.restrictionEntries_perm.map _).nodup_iff.mp F.distinctRestrictions

/-- **A reordered contract has the same normal form.** -/
theorem normal_eq {host : Host} (F : k.Fit host) : k'.normal = k.normal := by
  have howners : enter (∅ : BTreeMap String NormalizedCapabilityOwner) k'.ownerEntries =
      enter ∅ k.ownerEntries := by
    have hnodup : (k.ownerEntries.map Prod.fst).Nodup := by
      rw [ownerEntries, List.map_map, List.Nodup, List.pairwise_map]
      exact F.apart.imp Apart.owner
    refine (enter_perm ?_ hnodup ∅).symm
    obtain ⟨mid, hperm, hall⟩ := P.owners
    have hfits : ∀ o ∈ mid, o.Fit host := fun o ho => F.owners o (hperm.mem_iff.mpr ho)
    have heq : mid.map (fun o => (trim o.owner, o.normal)) = k'.ownerEntries := by
      unfold ownerEntries
      generalize k'.owners = owners' at hall
      clear hperm hnodup
      induction hall with
      | nil => rfl
      | cons O _ ih =>
        rw [List.forall_mem_cons] at hfits
        rw [List.map_cons, List.map_cons, O.owner, O.normal_eq hfits.1, ih hfits.2]
    exact heq ▸ hperm.map _
  simp only [CapabilityContractInput.normal, P.revision, howners,
    ← enter_perm P.claimEntries_perm F.distinctClaims,
    ← enter_perm P.restrictionEntries_perm F.distinctRestrictions]

end CapabilityContractInput.Permuted

end AgenticCore
