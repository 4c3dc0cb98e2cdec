import AgenticCore.ReadyActions
import AgenticCore.Reordering

/-!
# Exclusive custody in an accepted capability contract

* `Holding`           : what an owner holds: domains, effects, operations and request kinds.
* `holds_iff`         : the accepted contract holds what its owners list.
* `listed_unique`     : nothing is listed by two owners.
* `exclusive_custody` : **everything has one holder, and an owner's own declarations refer to what
                        it holds**, whatever the order of the declarations.
-/

set_option autoImplicit false

namespace AgenticCore

open Json Text Registry

variable {host : Host}

inductive Holding where
  | domain
  | effect
  | operation
  | request
  deriving DecidableEq, Repr

/-- The names of one kind that an owner lists. -/
def CapabilityOwnerInput.names (o : CapabilityOwnerInput) : Holding → List String
  | .domain => o.domainNames
  | .effect => o.effectNames
  | .operation => o.operationNames
  | .request => o.requestNames

/-- The names of one kind that an admitted owner holds. -/
def NormalizedCapabilityOwner.names (k : NormalizedCapabilityOwner) : Holding → List String
  | .domain => k.domains
  | .effect => k.effects.keys
  | .operation => k.operations.keys
  | .request => k.requests.keys

/-- The owner holds the name under the accepted contract. -/
def NormalizedCapabilityContract.Holds (normal : NormalizedCapabilityContract) (kind : Holding)
    (name owner : String) : Prop :=
  ∃ k, normal.owners[owner]? = some k ∧ name ∈ k.names kind

/-- The contract lists the name under the owner. -/
def CapabilityContractInput.Lists (contract : CapabilityContractInput) (kind : Holding)
    (name owner : String) : Prop :=
  ∃ o ∈ contract.owners, trim o.owner = owner ∧ name ∈ o.names kind

/-- What an admitted owner declares refers to what is held: its effects write its own domains, its
    operations have its own effects and its own claims, and read domains that someone holds. -/
structure OwnCustody (normal : NormalizedCapabilityContract) (owner : String)
    (k : NormalizedCapabilityOwner) : Prop where
  effects : ∀ effect domain : String, k.effects[effect]? = some domain → domain ∈ k.domains
  operations : ∀ (id : String) operation, k.operations[id]? = some operation →
    ∀ effect ∈ operation.effects, k.effects[effect]?.isSome = true
  claims : ∀ (id : String) operation, k.operations[id]? = some operation →
    ∀ claim ∈ operation.claims, normal.claimAuthorities[claim]? = some owner
  reads : ∀ (id : String) operation, k.operations[id]? = some operation →
    ∀ reads ∈ operation.reads, ∀ domain ∈ reads, ∃ holder, normal.Holds .domain domain holder

/-! ## What is held is what is listed -/

theorem mem_keys_enter {α : Type} {entries : List (String × α)} {name : String} :
    name ∈ (enter (∅ : BTreeMap String α) entries).keys ↔ name ∈ entries.map Prod.fst := by
  rw [Std.ExtTreeMap.mem_keys, Std.ExtTreeMap.mem_iff_isSome_getElem?, Option.isSome_iff_ne_none,
    ne_eq, enter_get_none]
  simp

theorem mem_names_normal {o : CapabilityOwnerInput} {kind : Holding} {name : String} :
    name ∈ o.normal.names kind ↔ name ∈ o.names kind := by
  cases kind with
  | domain => exact Iff.rfl
  | effect =>
    show name ∈ (enter ∅ o.effectEntries).keys ↔ _
    rw [mem_keys_enter, CapabilityOwnerInput.effectEntries, List.map_map]
    rfl
  | operation =>
    show name ∈ (enter ∅ o.operationEntries).keys ↔ _
    rw [mem_keys_enter, CapabilityOwnerInput.operationEntries, List.map_map]
    rfl
  | request =>
    show name ∈ (enter ∅ o.requestEntries).keys ↔ _
    rw [mem_keys_enter, CapabilityOwnerInput.requestEntries, List.map_map]
    rfl

variable {contract : CapabilityContractInput}

theorem holds_iff (F : contract.Fit host) {kind : Holding} {name owner : String} :
    contract.normal.Holds kind name owner ↔ contract.Lists kind name owner := by
  constructor
  · rintro ⟨k, hget, hname⟩
    obtain ⟨o, ho, howner, rfl⟩ := (owners_get F.apart).mp hget
    exact ⟨o, ho, howner, mem_names_normal.mp hname⟩
  · rintro ⟨o, ho, howner, hname⟩
    exact ⟨o.normal, (owners_get F.apart).mpr ⟨o, ho, howner, rfl⟩, mem_names_normal.mpr hname⟩

theorem Apart.names {o p : CapabilityOwnerInput} (A : Apart o p) (kind : Holding) :
    (o.names kind).Disjoint (p.names kind) := by
  cases kind with
  | domain => exact A.domains
  | effect => exact A.effects
  | operation => exact A.operations
  | request => exact A.requests

/-- Nothing is listed by two owners. -/
theorem listed_unique (F : contract.Fit host) {kind : Holding} {name owner owner' : String}
    (h : contract.Lists kind name owner) (h' : contract.Lists kind name owner') :
    owner = owner' := by
  obtain ⟨o, ho, rfl, hname⟩ := h
  obtain ⟨p, hp, rfl, hname'⟩ := h'
  by_cases heq : o = p
  · rw [heq]
  · have hsymm : Std.Symm Apart := ⟨fun _ _ => Apart.symm⟩
    exact absurd hname' ((F.apart.forall ho hp heq).names kind hname)

/-- A listed claim has the one owner it is listed under. -/
theorem claim_holder (F : contract.Fit host) {claim owner : String} :
    contract.normal.claimAuthorities[claim]? = some owner ↔
      ∃ a ∈ contract.claimAuthorities, trim a.claim = claim ∧ trim a.owner = owner := by
  rw [CapabilityContractInput.normal, enter_get F.distinctClaims]
  simp [CapabilityContractInput.claimEntries]

/-! ## What an owner declares refers to what it holds -/

theorem own_custody (F : contract.Fit host) {owner : String} {k : NormalizedCapabilityOwner}
    (hget : contract.normal.owners[owner]? = some k) : OwnCustody contract.normal owner k := by
  obtain ⟨o, ho, rfl, rfl⟩ := (owners_get F.apart).mp hget
  have O := F.owners o ho
  constructor
  · intro effect domain heffect
    obtain ⟨e, he, -, rfl⟩ := (effects_get O).mp heffect
    exact (O.effects e he).2.2
  · intro id operation hoperation effect heffect
    obtain ⟨op, hop, -, rfl⟩ := (operations_get O).mp hoperation
    have hcustody := (O.operations op hop).custody effect (mem_sortDedup.mp heffect)
    exact Option.isSome_iff_ne_none.mpr hcustody
  · intro id operation hoperation claim hclaim
    obtain ⟨op, hop, -, rfl⟩ := (operations_get O).mp hoperation
    have hentry := (F.operations o ho op hop).2 claim (mem_sortDedup.mp hclaim)
    rw [CapabilityContractInput.normal, enter_get F.distinctClaims]
    exact Or.inl hentry
  · intro id operation hoperation reads hreads domain hdomain
    obtain ⟨op, hop, -, rfl⟩ := (operations_get O).mp hoperation
    obtain ⟨raw, hraw, rfl⟩ := Option.map_eq_some_iff.mp hreads
    obtain ⟨p, hp, hmem⟩ := (F.operations o ho op hop).1 raw hraw domain (mem_sortDedup.mp hdomain)
    exact ⟨trim p.owner, (holds_iff F).mpr ⟨p, hp, rfl, mem_sortDedup.mpr hmem⟩⟩

theorem filterMap_isSome {α β : Type} {f : α → Option β} {l : List α}
    (h : ∀ a ∈ l, (f a).isSome = true) : (l.filterMap f).map some = l.map f := by
  induction l with
  | nil => rfl
  | cons a l ih =>
    rw [List.forall_mem_cons] at h
    obtain ⟨b, hb⟩ := Option.isSome_iff_exists.mp h.1
    rw [List.filterMap_cons, hb, List.map_cons, List.map_cons, ih h.2, hb]

/-- **Custody is exclusive in every accepted contract.** What the owners list is held by the one
owner that lists it, and every claim by one owner; what an owner declares refers to what it holds, so
that the footprint of an action finds every effect's domain; and the same declarations in any order
give the same contract. -/
theorem exclusive_custody {host : Host} {contract : CapabilityContractInput}
    {normal : NormalizedCapabilityContract}
    (h : host.normalizeCapabilityContract contract = .ok normal) :
    (∀ kind name owner, contract.Lists kind name owner →
        normal.Holds kind name owner ∧ ∀ other, normal.Holds kind name other → other = owner) ∧
      (∀ kind name owner, normal.Holds kind name owner → contract.Lists kind name owner) ∧
      (∀ a ∈ contract.claimAuthorities, normal.claimAuthorities[trim a.claim]? =
          some (trim a.owner) ∧ (normal.owners[trim a.owner]?).isSome = true) ∧
      (∀ (owner : String) k, normal.owners[owner]? = some k → OwnCustody normal owner k) ∧
      (∀ owned reads writes, Composed.footprint normal owned = some (reads, writes) →
        ∃ k operation, normal.owners[owned.owner]? = some k ∧
          k.operations[owned.action.operationId]? = some operation ∧
          writes.map some = operation.effects.map fun effect => k.effects[effect]?) ∧
      ∀ contract', contract.Permuted contract' →
        host.normalizeCapabilityContract contract' = .ok normal := by
  obtain ⟨F, rfl⟩ := normalizeCapabilityContract_eq_ok.mp h
  refine ⟨?_, fun kind name owner => (holds_iff F).mp, ?_, fun owner k => own_custody F, ?_, ?_⟩
  · intro kind name owner hlisted
    exact ⟨(holds_iff F).mpr hlisted, fun other hother =>
      listed_unique F ((holds_iff F).mp hother) hlisted⟩
  · intro a ha
    exact ⟨(claim_holder F).mpr ⟨a, ha, rfl, rfl⟩, owners_isSome.mpr (F.claims a ha).2.2⟩
  · intro owned reads writes hfootprint
    simp only [Composed.footprint, Option.bind_eq_bind, Option.bind_eq_some_iff, Option.pure_def,
      Option.some.injEq, Prod.mk.injEq] at hfootprint
    obtain ⟨k, hk, operation, hoperation, _, -, -, rfl⟩ := hfootprint
    refine ⟨k, operation, hk, hoperation, filterMap_isSome ?_⟩
    exact (own_custody F hk).operations _ operation hoperation
  · intro contract' P
    exact normalizeCapabilityContract_eq_ok.mpr ⟨P.fit F, (P.normal_eq F).symm⟩

/-! ### Two owners apart -/

theorem sampleContract_accepted : ∃ normal,
    sampleHost.normalizeCapabilityContract sampleContract = .ok normal ∧
      normal.owners.keys = ["a", "b"] := by
  have h : (sampleHost.normalizeCapabilityContract sampleContract).toOption.map (·.owners.keys) =
      some ["a", "b"] := by
    decide
  cases hnormal : sampleHost.normalizeCapabilityContract sampleContract with
  | error problem =>
    rw [hnormal] at h
    cases h
  | ok normal =>
    rw [hnormal] at h
    exact ⟨normal, rfl, Option.some.inj h⟩

theorem exclusive_custody_pair : ∃ normal, normal.owners.keys = ["a", "b"] ∧
    (∀ kind name owner, sampleContract.Lists kind name owner →
        normal.Holds kind name owner ∧ ∀ other, normal.Holds kind name other → other = owner) ∧
      ∀ contract', sampleContract.Permuted contract' →
        sampleHost.normalizeCapabilityContract contract' = .ok normal := by
  obtain ⟨normal, hnormal, hkeys⟩ := sampleContract_accepted
  obtain ⟨hlisted, -, -, -, -, horder⟩ := exclusive_custody hnormal
  exact ⟨normal, hkeys, hlisted, horder⟩

end AgenticCore
