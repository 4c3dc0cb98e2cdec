import AgenticCore.CapabilityContract
import AgenticCore.Registry

/-!
# What an accepted capability contract declares

`normalizeCapabilityContract` threads maps of taken names through the owners. Here it is put in
closed form: it succeeds exactly when every declaration is fit and no name is taken twice, and
then returns `normalContract`.

* `normalizeOperation_eq_ok`, `declareOwner_eq_ok` : one operation, one owner.
* `normalizeCapabilityContract_eq_ok`              : the whole contract.
-/

set_option autoImplicit false

namespace AgenticCore

open Json Text Registry

variable {host : Host}

theorem transposeM_eq_ok {α β : Type} {f : α → Result β} {o : Option α} {r : Option β} :
    transposeM f o = .ok r ↔ (o = none ∧ r = none) ∨ ∃ a b, o = some a ∧ f a = .ok b ∧ r = some b := by
  cases o with
  | none =>
    rw [transposeM, Except.pure_eq_ok_iff]
    simp [eq_comm]
  | some a =>
    cases h : f a with
    | error e => simp [transposeM, h, Functor.map, Except.map]
    | ok b => simp [transposeM, h, Functor.map, Except.map, eq_comm]

theorem claimName_eq_ok {m m' : BTreeMap String String} {name owner : String}
    {message : String → String} :
    claimName m name owner message = .ok m' ↔ m[name]? = none ∧ m' = m.insert name owner := by
  simp only [claimName, Except.bind_eq_ok_iff, refuse_eq_ok, Except.pure_eq_ok_iff]
  constructor
  · rintro ⟨_, h, rfl⟩
    exact ⟨h, rfl⟩
  · rintro ⟨h, rfl⟩
    exact ⟨(), h, rfl⟩

/-- A fit list of names without repetition. -/
def NameList (values : List String) : Prop :=
  (∀ v ∈ values, v ≠ "") ∧ (sortDedup values).length = values.length

/-- The schema library takes the schema. -/
def Host.SchemaFit (host : Host) (schema : Value) : Prop :=
  (schema.get? "$schema").bind Value.asStr = some "https://json-schema.org/draft/2020-12/schema" ∧
    host.builds schema = true

theorem schemaValidator_eq_ok {schema : Value} {field : String} {f : Value → Bool} :
    host.schemaValidator schema field = .ok f ↔ host.SchemaFit schema ∧ f = host.accepts schema := by
  simp only [Host.schemaValidator, Except.bind_eq_ok_iff, check_eq_ok, Except.pure_eq_ok_iff,
    Host.SchemaFit]
  constructor
  · rintro ⟨_, h, _, hb, rfl⟩
    exact ⟨⟨h, hb⟩, rfl⟩
  · rintro ⟨⟨h, hb⟩, rfl⟩
    exact ⟨(), h, (), hb, rfl⟩

theorem validateOperationArguments_eq_ok {value schema : Value} {field : String} {u : Unit} :
    host.validateOperationArguments value schema field = .ok u ↔
      value.isObject = true ∧ host.SchemaFit schema ∧ host.accepts schema value = true := by
  simp only [Host.validateOperationArguments, Except.bind_eq_ok_iff, check_eq_ok,
    schemaValidator_eq_ok]
  constructor
  · rintro ⟨_, ho, _, ⟨hs, rfl⟩, ha⟩
    exact ⟨ho, hs, ha⟩
  · rintro ⟨ho, hs, ha⟩
    exact ⟨(), ho, _, ⟨hs, rfl⟩, ha⟩

/-! ## One operation -/

def normalOperation (operation : OperationCapabilityInput) : NormalizedOperationCapability where
  semanticRevision := trim operation.semanticRevision
  reads := operation.reads.map sortDedup
  inputSchema := operation.inputSchema
  resultKind := trim operation.resultKind
  effects := sortDedup operation.effects
  claims := sortDedup operation.claims

/-- An operation an owner with these effects may declare. -/
structure OperationFit (host : Host) (owned : BTreeMap String String)
    (operation : OperationCapabilityInput) : Prop where
  id : trim operation.id ≠ ""
  schema : host.SchemaFit operation.inputSchema
  effects : NameList operation.effects
  custody : ∀ e ∈ operation.effects, owned[e]? ≠ none
  claims : NameList operation.claims
  semanticRevision : trim operation.semanticRevision ≠ ""
  reads : ∀ reads ∈ operation.reads, NameList reads
  resultKind : trim operation.resultKind ≠ ""

theorem uniqueStrings_eq_ok' {values result : List String} {field : String} :
    uniqueStrings values field = .ok result ↔ NameList values ∧ result = sortDedup values := by
  rw [uniqueStrings_eq_ok, NameList, and_assoc]

theorem find?_sortDedup_eq_none {values : List String} {p : String → Bool} :
    (sortDedup values).find? p = none ↔ ∀ v ∈ values, ¬p v = true := by
  rw [List.find?_eq_none]
  simp only [mem_sortDedup]

theorem reads_eq_ok {reads result : Option (List String)} :
    transposeM (fun reads => uniqueStrings reads "operation.reads") reads = .ok result ↔
      (∀ r ∈ reads, NameList r) ∧ result = reads.map sortDedup := by
  cases reads with
  | none => simp [transposeM_eq_ok]
  | some values =>
    simp only [transposeM_eq_ok, uniqueStrings_eq_ok', Option.mem_some_iff, forall_eq',
      Option.map_some]
    simp

theorem normalizeOperation_eq_ok {owner id : String} {effects : BTreeMap String String}
    {operation : OperationCapabilityInput} {result : NormalizedOperationCapability} :
    trim operation.id ≠ "" ∧ host.normalizeOperation owner id effects operation = .ok result ↔
      OperationFit host effects operation ∧ result = normalOperation operation := by
  simp only [Host.normalizeOperation, Except.bind_eq_ok_iff, schemaValidator_eq_ok,
    uniqueStrings_eq_ok', refuse_eq_ok, requireText_eq_ok, reads_eq_ok, Except.pure_eq_ok_iff]
  constructor
  · rintro ⟨hid, _, ⟨hschema, -⟩, _, ⟨heffects, rfl⟩, _, hcustody, _, ⟨hclaims, rfl⟩, _,
      ⟨hsemantic, rfl⟩, _, ⟨hreads, rfl⟩, _, ⟨hresult, rfl⟩, rfl⟩
    rw [find?_sortDedup_eq_none] at hcustody
    exact ⟨⟨hid, hschema, heffects, by simpa using hcustody, hclaims, hsemantic, hreads, hresult⟩,
      rfl⟩
  · rintro ⟨F, rfl⟩
    refine ⟨F.id, _, ⟨F.schema, rfl⟩, _, ⟨F.effects, rfl⟩, (), ?_, _, ⟨F.claims, rfl⟩, _,
      ⟨F.semanticRevision, rfl⟩, _, ⟨F.reads, rfl⟩, _, ⟨F.resultKind, rfl⟩, rfl⟩
    rw [find?_sortDedup_eq_none]
    simpa using F.custody

/-! ## One owner -/

/-- An effect an owner of these domains may declare. -/
def EffectFit (domains : List String) (effect : EffectAuthorityInput) : Prop :=
  trim effect.id ≠ "" ∧ trim effect.domain ≠ "" ∧ trim effect.domain ∈ domains

theorem declareEffect_eq_ok {owner : String} {domains : List String}
    {s s' : BTreeMap String String × BTreeMap String String} {effect : EffectAuthorityInput}
    {index : Nat} :
    declareEffect owner domains s (effect, index) = .ok s' ↔
      EffectFit domains effect ∧ (True → s.1[trim effect.id]? = none) ∧
        s.2[trim effect.id]? = none ∧
        s' = (s.1.insert (trim effect.id) (trim effect.domain),
          s.2.insert (trim effect.id) owner) := by
  simp only [declareEffect, Except.bind_eq_ok_iff, requireText_eq_ok, check_eq_ok, claimName_eq_ok,
    Except.pure_eq_ok_iff, EffectFit, Option.isNone_iff_eq_none]
  constructor
  · rintro ⟨_, ⟨hid, rfl⟩, _, ⟨hdomain, rfl⟩, _, hmem, _, hlocal, _, ⟨hfresh, rfl⟩, rfl⟩
    exact ⟨⟨hid, hdomain, hmem⟩, fun _ => hlocal, hfresh, rfl⟩
  · rintro ⟨⟨hid, hdomain, hmem⟩, hlocal, hfresh, rfl⟩
    exact ⟨_, ⟨hid, rfl⟩, _, ⟨hdomain, rfl⟩, (), hmem, (), hlocal trivial, _, ⟨hfresh, rfl⟩, rfl⟩

theorem declareOperation_eq_ok {owner : String} {effects : BTreeMap String String}
    {s s' : BTreeMap String NormalizedOperationCapability × BTreeMap String String}
    {operation : OperationCapabilityInput} {index : Nat} :
    host.declareOperation owner effects s (operation, index) = .ok s' ↔
      OperationFit host effects operation ∧ (False → s.1[trim operation.id]? = none) ∧
        s.2[trim operation.id]? = none ∧
        s' = (s.1.insert (trim operation.id) (normalOperation operation),
          s.2.insert (trim operation.id) owner) := by
  simp only [Host.declareOperation, Except.bind_eq_ok_iff, requireText_eq_ok, claimName_eq_ok,
    Except.pure_eq_ok_iff, false_implies, true_and]
  constructor
  · rintro ⟨_, ⟨hid, rfl⟩, _, ⟨hfresh, rfl⟩, _, hoperation, rfl⟩
    obtain ⟨hfit, rfl⟩ := normalizeOperation_eq_ok.mp ⟨hid, hoperation⟩
    exact ⟨hfit, hfresh, rfl⟩
  · rintro ⟨hfit, hfresh, rfl⟩
    obtain ⟨hid, hoperation⟩ := normalizeOperation_eq_ok.mpr ⟨hfit, rfl⟩
    exact ⟨_, ⟨hid, rfl⟩, _, ⟨hfresh, rfl⟩, _, hoperation, rfl⟩

def RequestFit (host : Host) (request : RequestShapeInput) : Prop :=
  trim request.kind ≠ "" ∧ host.SchemaFit request.inputSchema ∧ trim request.resultKind ≠ ""

theorem declareRequest_eq_ok {owner : String}
    {s s' : BTreeMap String NormalizedRequestShape × BTreeMap String String}
    {request : RequestShapeInput} :
    host.declareRequest owner s request = .ok s' ↔
      RequestFit host request ∧ (False → s.1[trim request.kind]? = none) ∧
        s.2[trim request.kind]? = none ∧
        s' = (s.1.insert (trim request.kind) ⟨request.inputSchema, trim request.resultKind⟩,
          s.2.insert (trim request.kind) owner) := by
  simp only [Host.declareRequest, Except.bind_eq_ok_iff, requireText_eq_ok, claimName_eq_ok,
    schemaValidator_eq_ok, Except.pure_eq_ok_iff, RequestFit, false_implies, true_and]
  constructor
  · rintro ⟨_, ⟨hkind, rfl⟩, _, ⟨hfresh, rfl⟩, _, ⟨hschema, -⟩, _, ⟨hresult, rfl⟩, rfl⟩
    exact ⟨⟨hkind, hschema, hresult⟩, hfresh, rfl⟩
  · rintro ⟨⟨hkind, hschema, hresult⟩, hfresh, rfl⟩
    exact ⟨_, ⟨hkind, rfl⟩, _, ⟨hfresh, rfl⟩, _, ⟨hschema, rfl⟩, _, ⟨hresult, rfl⟩, rfl⟩

namespace CapabilityOwnerInput

variable (o : CapabilityOwnerInput)

/-- The names an owner takes, of each kind. -/
def domainNames : List String := sortDedup o.domains

def effectNames : List String := o.effects.map fun e => trim e.id

def operationNames : List String := o.operations.map fun op => trim op.id

def requestNames : List String := o.requests.map fun r => trim r.kind

def effectEntries : List (String × String) := o.effects.map fun e => (trim e.id, trim e.domain)

def operationEntries : List (String × NormalizedOperationCapability) :=
  o.operations.map fun op => (trim op.id, normalOperation op)

def requestEntries : List (String × NormalizedRequestShape) :=
  o.requests.map fun r => (trim r.kind, ⟨r.inputSchema, trim r.resultKind⟩)

def normal : NormalizedCapabilityOwner where
  revision := trim o.revision
  domains := o.domainNames
  effects := enter ∅ o.effectEntries
  operations := enter ∅ o.operationEntries
  requests := enter ∅ o.requestEntries

/-- An owner that may be declared on its own. -/
structure Fit (host : Host) : Prop where
  owner : trim o.owner ≠ ""
  revision : trim o.revision ≠ ""
  domains : NameList o.domains
  effects : ∀ e ∈ o.effects, EffectFit o.domainNames e
  distinctEffects : o.effectNames.Nodup
  operations : ∀ op ∈ o.operations, OperationFit host (enter ∅ o.effectEntries) op
  distinctOperations : o.operationNames.Nodup
  requests : ∀ r ∈ o.requests, RequestFit host r
  distinctRequests : o.requestNames.Nodup

end CapabilityOwnerInput

/-- Claim a list of names for one owner. -/
def claimAll (m : BTreeMap String String) (names : List String) (owner : String) :
    BTreeMap String String :=
  enter m (names.map (·, owner))

theorem declareDomains_eq_ok {owner : String} {names : List String} {m m' : BTreeMap String String}
    (hnodup : names.Nodup) :
    names.foldlM (fun owned domain => claimName owned domain owner
        fun existing => s!"domain {domain} has conflicting owners {existing} and {owner}") m = .ok m' ↔
      (∀ d ∈ names, m[d]? = none) ∧ m' = claimAll m names owner := by
  have hf : ∀ (m : BTreeMap String String) (d : String) (m' : BTreeMap String String),
      claimName m d owner
          (fun existing => s!"domain {d} has conflicting owners {existing} and {owner}") = .ok m' ↔
        True ∧ m[id d]? = none ∧ m' = m.insert (id d) owner := by
    intro m d m'
    rw [claimName_eq_ok]
    simp
  rw [register_eq_ok hf]
  simp [hnodup, claimAll]

namespace Declared

/-- None of the names an owner takes is taken. -/
structure Fresh (s : Declared) (o : CapabilityOwnerInput) : Prop where
  owner : s.owners[trim o.owner]? = none
  domains : ∀ d ∈ o.domainNames, s.ownedDomains[d]? = none
  effects : ∀ e ∈ o.effectNames, s.ownedEffects[e]? = none
  operations : ∀ op ∈ o.operationNames, s.operationOwners[op]? = none
  requests : ∀ r ∈ o.requestNames, s.requestKinds[r]? = none

def add (s : Declared) (o : CapabilityOwnerInput) : Declared where
  owners := s.owners.insert (trim o.owner) o.normal
  ownedDomains := claimAll s.ownedDomains o.domainNames (trim o.owner)
  ownedEffects := claimAll s.ownedEffects o.effectNames (trim o.owner)
  operationOwners := claimAll s.operationOwners o.operationNames (trim o.owner)
  requestKinds := claimAll s.requestKinds o.requestNames (trim o.owner)

end Declared

theorem declareEffects_eq_ok {owner : String} {domains : List String}
    {effects : List EffectAuthorityInput} {owned : BTreeMap String String}
    {s' : BTreeMap String String × BTreeMap String String} :
    effects.zipIdx.foldlM (declareEffect owner domains) (∅, owned) = .ok s' ↔
      (∀ e ∈ effects, EffectFit domains e) ∧ (effects.map fun e => trim e.id).Nodup ∧
        (∀ e ∈ effects, owned[trim e.id]? = none) ∧
        s' = (enter ∅ (effects.map fun e => (trim e.id, trim e.domain)),
          claimAll owned (effects.map fun e => trim e.id) owner) := by
  rw [foldlM_zipIdx_eq_ok fun _ _ _ _ _ h => declareEffect_eq_ok.mpr (declareEffect_eq_ok.mp h),
    declare_eq_ok fun s e s' => @declareEffect_eq_ok owner domains s s' e 0]
  simp [claimAll, Function.comp_def]

theorem declareOperations_eq_ok {owner : String} {effects : BTreeMap String String}
    {operations : List OperationCapabilityInput} {owned : BTreeMap String String}
    {s' : BTreeMap String NormalizedOperationCapability × BTreeMap String String} :
    operations.zipIdx.foldlM (host.declareOperation owner effects) (∅, owned) = .ok s' ↔
      (∀ op ∈ operations, OperationFit host effects op) ∧
        (operations.map fun op => trim op.id).Nodup ∧
        (∀ op ∈ operations, owned[trim op.id]? = none) ∧
        s' = (enter ∅ (operations.map fun op => (trim op.id, normalOperation op)),
          claimAll owned (operations.map fun op => trim op.id) owner) := by
  rw [foldlM_zipIdx_eq_ok fun _ _ _ _ _ h =>
      declareOperation_eq_ok.mpr (declareOperation_eq_ok.mp h),
    declare_eq_ok fun s op s' => @declareOperation_eq_ok host owner effects s s' op 0]
  simp [claimAll, Function.comp_def]

theorem declareRequests_eq_ok {owner : String} {requests : List RequestShapeInput}
    {owned : BTreeMap String String}
    {s' : BTreeMap String NormalizedRequestShape × BTreeMap String String} :
    requests.foldlM (host.declareRequest owner) (∅, owned) = .ok s' ↔
      (∀ r ∈ requests, RequestFit host r) ∧ (requests.map fun r => trim r.kind).Nodup ∧
        (∀ r ∈ requests, owned[trim r.kind]? = none) ∧
        s' = (enter ∅ (requests.map fun r => (trim r.kind, ⟨r.inputSchema, trim r.resultKind⟩)),
          claimAll owned (requests.map fun r => trim r.kind) owner) := by
  rw [declare_eq_ok fun s r s' => @declareRequest_eq_ok host owner s s' r]
  simp [claimAll, Function.comp_def]

theorem declareOwner_eq_ok {s s' : Declared} {o : CapabilityOwnerInput} {index : Nat} :
    host.declareOwner s (o, index) = .ok s' ↔ o.Fit host ∧ s.Fresh o ∧ s' = s.add o := by
  simp only [Host.declareOwner, Except.bind_eq_ok_iff, requireText_eq_ok, check_eq_ok,
    uniqueStrings_eq_ok', Except.pure_eq_ok_iff, Option.isNone_iff_eq_none, declareEffects_eq_ok,
    declareOperations_eq_ok, declareRequests_eq_ok]
  constructor
  · rintro ⟨_, ⟨howner, rfl⟩, _, hfresh, _, ⟨hrevision, rfl⟩, _, ⟨hdomains, rfl⟩, _, hclaimed,
      _, ⟨hefit, henodup, hefresh, rfl⟩, _, ⟨hofit, honodup, hofresh, rfl⟩,
      _, ⟨hrfit, hrnodup, hrfresh, rfl⟩, rfl⟩
    obtain ⟨hdfresh, rfl⟩ := (declareDomains_eq_ok (nodup_sortDedup _)).mp hclaimed
    refine ⟨⟨howner, hrevision, hdomains, hefit, henodup, hofit, honodup, hrfit, hrnodup⟩,
      ⟨hfresh, hdfresh, ?_, ?_, ?_⟩, rfl⟩
    · exact List.forall_mem_map.mpr hefresh
    · exact List.forall_mem_map.mpr hofresh
    · exact List.forall_mem_map.mpr hrfresh
  · rintro ⟨F, R, rfl⟩
    refine ⟨_, ⟨F.owner, rfl⟩, (), R.owner, _, ⟨F.revision, rfl⟩, _, ⟨F.domains, rfl⟩, _,
      (declareDomains_eq_ok (nodup_sortDedup _)).mpr ⟨R.domains, rfl⟩,
      _, ⟨F.effects, F.distinctEffects, List.forall_mem_map.mp R.effects, rfl⟩,
      _, ⟨F.operations, F.distinctOperations, List.forall_mem_map.mp R.operations, rfl⟩,
      _, ⟨F.requests, F.distinctRequests, List.forall_mem_map.mp R.requests, rfl⟩, rfl⟩

/-! ## The whole contract -/

/-- Two owners take no common name. -/
structure Apart (o p : CapabilityOwnerInput) : Prop where
  owner : trim o.owner ≠ trim p.owner
  domains : o.domainNames.Disjoint p.domainNames
  effects : o.effectNames.Disjoint p.effectNames
  operations : o.operationNames.Disjoint p.operationNames
  requests : o.requestNames.Disjoint p.requestNames

theorem Apart.symm {o p : CapabilityOwnerInput} (A : Apart o p) : Apart p o :=
  ⟨A.owner.symm, A.domains.symm, A.effects.symm, A.operations.symm, A.requests.symm⟩

theorem claimAll_none {m : BTreeMap String String} {names others : List String} {owner : String} :
    (∀ n ∈ others, (claimAll m names owner)[n]? = none) ↔
      (∀ n ∈ others, m[n]? = none) ∧ names.Disjoint others := by
  simp only [claimAll, enter_get_none, List.map_map, List.disjoint_right]
  simp only [Function.comp_def, List.map_id']
  exact ⟨fun h => ⟨fun n hn => (h n hn).2, fun n hn => (h n hn).1⟩,
    fun h n hn => ⟨h.2 hn, h.1 n hn⟩⟩

theorem fresh_add {s : Declared} {o p : CapabilityOwnerInput} :
    (s.add o).Fresh p ↔ s.Fresh p ∧ Apart o p := by
  have howner : (s.owners.insert (trim o.owner) o.normal)[trim p.owner]? = none ↔
      s.owners[trim p.owner]? = none ∧ trim o.owner ≠ trim p.owner := by
    rw [Std.ExtTreeMap.getElem?_insert]
    by_cases h : trim o.owner = trim p.owner <;> simp [h]
  constructor
  · intro F
    obtain ⟨h₁, a₁⟩ := howner.mp F.owner
    obtain ⟨h₂, a₂⟩ := claimAll_none.mp F.domains
    obtain ⟨h₃, a₃⟩ := claimAll_none.mp F.effects
    obtain ⟨h₄, a₄⟩ := claimAll_none.mp F.operations
    obtain ⟨h₅, a₅⟩ := claimAll_none.mp F.requests
    exact ⟨⟨h₁, h₂, h₃, h₄, h₅⟩, ⟨a₁, a₂, a₃, a₄, a₅⟩⟩
  · rintro ⟨F, A⟩
    exact ⟨howner.mpr ⟨F.owner, A.owner⟩, claimAll_none.mpr ⟨F.domains, A.domains⟩,
      claimAll_none.mpr ⟨F.effects, A.effects⟩, claimAll_none.mpr ⟨F.operations, A.operations⟩,
      claimAll_none.mpr ⟨F.requests, A.requests⟩⟩

theorem declareOwners_eq_ok {owners : List CapabilityOwnerInput} {s s' : Declared} {k : Nat} :
    (owners.zipIdx k).foldlM host.declareOwner s = .ok s' ↔
      (∀ o ∈ owners, o.Fit host) ∧ owners.Pairwise Apart ∧ (∀ o ∈ owners, s.Fresh o) ∧
        s' = owners.foldl Declared.add s := by
  induction owners generalizing s k with
  | nil => simp [pure, Except.pure, eq_comm]
  | cons o owners ih =>
    rw [List.zipIdx_cons, foldlM_cons_eq_ok]
    simp only [declareOwner_eq_ok, ih, List.forall_mem_cons, List.pairwise_cons, List.foldl_cons]
    constructor
    · rintro ⟨_, ⟨F, R, rfl⟩, hfit, happart, hfresh, rfl⟩
      simp only [fresh_add] at hfresh
      exact ⟨⟨F, hfit⟩, ⟨fun p hp => (hfresh p hp).2, happart⟩, ⟨R, fun p hp => (hfresh p hp).1⟩,
        rfl⟩
    · rintro ⟨⟨F, hfit⟩, ⟨ho, happart⟩, ⟨R, hfresh⟩, rfl⟩
      exact ⟨_, ⟨F, R, rfl⟩, hfit, happart, fun p hp => fresh_add.mpr ⟨hfresh p hp, ho p hp⟩, rfl⟩

theorem Declared.fresh_empty (o : CapabilityOwnerInput) : Declared.Fresh ⟨∅, ∅, ∅, ∅, ∅⟩ o :=
  ⟨by simp, by simp, by simp, by simp, by simp⟩

namespace CapabilityContractInput

variable (input : CapabilityContractInput)

def ownerEntries : List (String × NormalizedCapabilityOwner) :=
  input.owners.map fun o => (trim o.owner, o.normal)

def claimEntries : List (String × String) :=
  input.claimAuthorities.map fun a => (trim a.claim, trim a.owner)

def restrictionEntries : List (String × List String) :=
  input.restrictionAuthorities.map fun g => (trim g.owner, sortDedup g.affects)

def normal : NormalizedCapabilityContract where
  revision := trim input.revision
  owners := enter ∅ input.ownerEntries
  claimAuthorities := enter ∅ input.claimEntries
  restrictionAuthorities := enter ∅ input.restrictionEntries

/-- Some owner of the contract has the name. -/
def HasOwner (owner : String) : Prop := ∃ o ∈ input.owners, trim o.owner = owner

/-- The domains the operation reads are declared, and the claims it advertises are its owner's. -/
def OperationAdmitted (owner : String) (operation : OperationCapabilityInput) : Prop :=
  (∀ reads ∈ operation.reads, ∀ d ∈ reads, ∃ o ∈ input.owners, d ∈ o.domains) ∧
    ∀ claim ∈ operation.claims, (claim, owner) ∈ input.claimEntries

structure Fit (host : Host) : Prop where
  kind : input.kind = CAPABILITY_CONTRACT_KIND
  revision : trim input.revision ≠ ""
  sha256 : sha256Revision (trim input.revision) = true
  owners : ∀ o ∈ input.owners, o.Fit host
  apart : input.owners.Pairwise Apart
  nonempty : input.owners ≠ []
  claims : ∀ a ∈ input.claimAuthorities,
    trim a.claim ≠ "" ∧ trim a.owner ≠ "" ∧ input.HasOwner (trim a.owner)
  distinctClaims : (input.claimEntries.map Prod.fst).Nodup
  operations : ∀ o ∈ input.owners, ∀ op ∈ o.operations, input.OperationAdmitted (trim o.owner) op
  restrictions : ∀ g ∈ input.restrictionAuthorities,
    trim g.owner ≠ "" ∧ input.HasOwner (trim g.owner) ∧
      affects g.affects "restriction authority.affects" = .ok (sortDedup g.affects)
  distinctRestrictions : (input.restrictionEntries.map Prod.fst).Nodup

end CapabilityContractInput

theorem foldl_add {owners : List CapabilityOwnerInput} {s : Declared} :
    (owners.foldl Declared.add s).owners =
        enter s.owners (owners.map fun o => (trim o.owner, o.normal)) ∧
      (owners.foldl Declared.add s).ownedDomains =
        enter s.ownedDomains (owners.flatMap fun o => o.domainNames.map (·, trim o.owner)) := by
  induction owners generalizing s with
  | nil => exact ⟨rfl, rfl⟩
  | cons o owners ih =>
    rw [List.foldl_cons, List.map_cons, enter_cons, List.flatMap_cons, enter_append]
    exact ih

theorem owners_get {input : CapabilityContractInput} (happart : input.owners.Pairwise Apart)
    {name : String} {capability : NormalizedCapabilityOwner} :
    (enter ∅ input.ownerEntries)[name]? = some capability ↔
      ∃ o ∈ input.owners, trim o.owner = name ∧ o.normal = capability := by
  have hnodup : (input.ownerEntries.map Prod.fst).Nodup := by
    rw [CapabilityContractInput.ownerEntries, List.map_map, List.Nodup, List.pairwise_map]
    exact happart.imp Apart.owner
  rw [enter_get hnodup]
  simp [CapabilityContractInput.ownerEntries]

theorem owners_isSome {input : CapabilityContractInput} {name : String} :
    (enter ∅ input.ownerEntries)[name]?.isSome = true ↔ input.HasOwner name := by
  rw [Option.isSome_iff_ne_none, ne_eq, enter_get_none]
  simp [CapabilityContractInput.ownerEntries, CapabilityContractInput.HasOwner]

theorem declareClaimAuthorities_eq_ok {input : CapabilityContractInput}
    {authorities : BTreeMap String String} :
    input.claimAuthorities.zipIdx.foldlM (declareClaimAuthority (enter ∅ input.ownerEntries)) ∅ =
        .ok authorities ↔
      (∀ a ∈ input.claimAuthorities,
        trim a.claim ≠ "" ∧ trim a.owner ≠ "" ∧ input.HasOwner (trim a.owner)) ∧
        (input.claimEntries.map Prod.fst).Nodup ∧ authorities = enter ∅ input.claimEntries := by
  have hstep : ∀ (m : BTreeMap String String) (a : ClaimAuthorityInput) (i : Nat)
      (m' : BTreeMap String String),
      declareClaimAuthority (enter ∅ input.ownerEntries) m (a, i) = .ok m' ↔
        (trim a.claim ≠ "" ∧ trim a.owner ≠ "" ∧ input.HasOwner (trim a.owner)) ∧
          m[trim a.claim]? = none ∧ m' = m.insert (trim a.claim) (trim a.owner) := by
    intro m a i m'
    simp only [declareClaimAuthority, Except.bind_eq_ok_iff, requireText_eq_ok, check_eq_ok,
      claimName_eq_ok, owners_isSome]
    constructor
    · rintro ⟨_, ⟨hclaim, rfl⟩, _, ⟨howner, rfl⟩, _, hhas, hfresh, rfl⟩
      exact ⟨⟨hclaim, howner, hhas⟩, hfresh, rfl⟩
    · rintro ⟨⟨hclaim, howner, hhas⟩, hfresh, rfl⟩
      exact ⟨_, ⟨hclaim, rfl⟩, _, ⟨howner, rfl⟩, (), hhas, hfresh, rfl⟩
  rw [foldlM_zipIdx_eq_ok fun m a i j m' h => (hstep m a j m').mpr ((hstep m a i m').mp h),
    register_eq_ok fun m a m' => hstep m a 0 m']
  simp [CapabilityContractInput.claimEntries, Function.comp_def]

theorem declareRestrictionAuthorities_eq_ok {input : CapabilityContractInput}
    {authorities : BTreeMap String (List String)} :
    input.restrictionAuthorities.foldlM
        (declareRestrictionAuthority (enter ∅ input.ownerEntries)) ∅ = .ok authorities ↔
      (∀ g ∈ input.restrictionAuthorities, trim g.owner ≠ "" ∧ input.HasOwner (trim g.owner) ∧
        affects g.affects "restriction authority.affects" = .ok (sortDedup g.affects)) ∧
        (input.restrictionEntries.map Prod.fst).Nodup ∧
        authorities = enter ∅ input.restrictionEntries := by
  have hstep : ∀ (m : BTreeMap String (List String)) (g : RestrictionAuthorityInput)
      (m' : BTreeMap String (List String)),
      declareRestrictionAuthority (enter ∅ input.ownerEntries) m g = .ok m' ↔
        (trim g.owner ≠ "" ∧ input.HasOwner (trim g.owner) ∧
            affects g.affects "restriction authority.affects" = .ok (sortDedup g.affects)) ∧
          m[trim g.owner]? = none ∧ m' = m.insert (trim g.owner) (sortDedup g.affects) := by
    intro m g m'
    simp only [declareRestrictionAuthority, Except.bind_eq_ok_iff, requireText_eq_ok, check_eq_ok,
      owners_isSome, Except.pure_eq_ok_iff, Option.isNone_iff_eq_none]
    constructor
    · rintro ⟨_, ⟨howner, rfl⟩, _, hhas, scopes, hscopes, _, hfresh, rfl⟩
      obtain rfl := (affects_eq_ok.mp hscopes).2.2.2
      exact ⟨⟨howner, hhas, hscopes⟩, hfresh, rfl⟩
    · rintro ⟨⟨howner, hhas, hscopes⟩, hfresh, rfl⟩
      exact ⟨_, ⟨howner, rfl⟩, (), hhas, _, hscopes, (), hfresh, rfl⟩
  rw [register_eq_ok hstep]
  simp [CapabilityContractInput.restrictionEntries, Function.comp_def]

theorem checkOperation_eq_ok {input : CapabilityContractInput} {owner id : String}
    {operation : OperationCapabilityInput} (hclaims : (input.claimEntries.map Prod.fst).Nodup)
    {u : Unit} :
    checkOperation
        (enter ∅ (input.owners.flatMap fun o => o.domainNames.map (·, trim o.owner)))
        (enter ∅ input.claimEntries) owner (id, normalOperation operation) = .ok u ↔
      input.OperationAdmitted owner operation := by
  have hreads : ((normalOperation operation).reads.getD []).find? (fun domain =>
      (enter (∅ : BTreeMap String String) (input.owners.flatMap fun o =>
        o.domainNames.map (·, trim o.owner)))[domain]?.isNone) = none ↔
      ∀ reads ∈ operation.reads, ∀ d ∈ reads, ∃ o ∈ input.owners, d ∈ o.domains := by
    have hd : ∀ d : String, (enter (∅ : BTreeMap String String) (input.owners.flatMap fun o =>
        o.domainNames.map (·, trim o.owner)))[d]?.isNone = true ↔
        ¬∃ o ∈ input.owners, d ∈ o.domains := by
      intro d
      rw [Option.isNone_iff_eq_none, enter_get_none]
      simp only [Std.ExtTreeMap.getElem?_empty, and_true, List.map_flatMap, List.map_map,
        Function.comp_def, List.map_id', List.mem_flatMap, CapabilityOwnerInput.domainNames,
        mem_sortDedup]
    cases hr : operation.reads with
    | none => simp [normalOperation, hr]
    | some reads =>
      simp only [normalOperation, hr, Option.map_some, Option.getD_some, find?_sortDedup_eq_none, hd,
        not_not, Option.mem_some_iff, forall_eq']
  have hadvertised : (normalOperation operation).claims.find? (fun claim =>
      (enter (∅ : BTreeMap String String) input.claimEntries)[claim]? ≠ some owner) = none ↔
      ∀ claim ∈ operation.claims, (claim, owner) ∈ input.claimEntries := by
    simp only [normalOperation, find?_sortDedup_eq_none, decide_eq_true_eq, not_not, ne_eq,
      enter_get hclaims]
    simp
  simp only [checkOperation, Except.bind_eq_ok_iff, refuse_eq_ok]
  rw [hreads, hadvertised]
  simp [CapabilityContractInput.OperationAdmitted]

/-- Every declared operation is checked, whatever the order of the maps. -/
theorem checkOperations_eq_ok {input : CapabilityContractInput} (hfit : ∀ o ∈ input.owners, o.Fit host)
    (happart : input.owners.Pairwise Apart) {check : String → String × NormalizedOperationCapability →
      Result Unit} {u : Unit} :
    ((enter ∅ input.ownerEntries : BTreeMap String NormalizedCapabilityOwner).toList.forM
        fun (owner, capability) => capability.operations.toList.forM (check owner)) = .ok u ↔
      ∀ o ∈ input.owners, ∀ op ∈ o.operations,
        check (trim o.owner) (trim op.id, normalOperation op) = .ok () := by
  rw [forM_eq_ok]
  have hmem : ∀ o ∈ input.owners, ∀ (id : String) (op : NormalizedOperationCapability),
      (id, op) ∈ o.normal.operations.toList ↔
        ∃ operation ∈ o.operations, trim operation.id = id ∧ normalOperation operation = op := by
    intro o ho id op
    have hnodup : (o.operationEntries.map Prod.fst).Nodup := by
      rw [CapabilityOwnerInput.operationEntries, List.map_map]
      exact (hfit o ho).distinctOperations
    rw [Std.ExtTreeMap.mem_toList_iff_getElem?_eq_some, CapabilityOwnerInput.normal,
      enter_get hnodup]
    simp [CapabilityOwnerInput.operationEntries]
  constructor
  · intro h o ho op hop
    have hentry : (trim o.owner, o.normal) ∈ (enter (∅ : BTreeMap String NormalizedCapabilityOwner)
        input.ownerEntries).toList :=
      Std.ExtTreeMap.mem_toList_iff_getElem?_eq_some.mpr
        ((owners_get happart).mpr ⟨o, ho, rfl, rfl⟩)
    exact forM_eq_ok.mp (h _ hentry) _ ((hmem o ho _ _).mpr ⟨op, hop, rfl, rfl⟩)
  · rintro h ⟨name, capability⟩ hentry
    obtain ⟨o, ho, rfl, rfl⟩ := (owners_get happart).mp
      (Std.ExtTreeMap.mem_toList_iff_getElem?_eq_some.mp hentry)
    refine forM_eq_ok.mpr ?_
    rintro ⟨id, op⟩ hop
    obtain ⟨operation, hoperation, rfl, rfl⟩ := (hmem o ho _ _).mp hop
    exact h o ho operation hoperation

/-- **A contract is accepted exactly when it is fit, and its normal form forgets the order of its
declarations.** -/
theorem normalizeCapabilityContract_eq_ok {input : CapabilityContractInput}
    {contract : NormalizedCapabilityContract} :
    host.normalizeCapabilityContract input = .ok contract ↔
      input.Fit host ∧ contract = input.normal := by
  have howners := (@foldl_add input.owners ⟨∅, ∅, ∅, ∅, ∅⟩).1
  have hdomains := (@foldl_add input.owners ⟨∅, ∅, ∅, ∅, ∅⟩).2
  have hempty : (enter (∅ : BTreeMap String NormalizedCapabilityOwner)
      input.ownerEntries).isEmpty = false ↔ input.owners ≠ [] := by
    cases h : input.owners with
    | nil => simp [CapabilityContractInput.ownerEntries, h]
    | cons o rest =>
      have hsome : (enter (∅ : BTreeMap String NormalizedCapabilityOwner)
          input.ownerEntries)[trim o.owner]?.isSome = true :=
        owners_isSome.mpr ⟨o, by simp [h], rfl⟩
      have hne : enter (∅ : BTreeMap String NormalizedCapabilityOwner) input.ownerEntries ≠ ∅ := by
        intro heq
        rw [heq, Std.ExtTreeMap.getElem?_empty] at hsome
        cases hsome
      simpa using hne
  simp only [Host.normalizeCapabilityContract, Except.bind_eq_ok_iff, check_eq_ok,
    requireText_eq_ok, declareOwners_eq_ok, Except.pure_eq_ok_iff]
  constructor
  · rintro ⟨_, hkind, _, ⟨hrevision, rfl⟩, _, hsha, _, ⟨hfit, happart, -, rfl⟩, _, hne, claims,
      hclaims, _, hoperations, restrictions, hrestrictions, rfl⟩
    rw [howners] at hne hclaims hoperations hrestrictions
    rw [hdomains] at hoperations
    obtain ⟨hclaimFit, hclaimNodup, rfl⟩ := declareClaimAuthorities_eq_ok.mp hclaims
    obtain ⟨hrestrictFit, hrestrictNodup, rfl⟩ :=
      declareRestrictionAuthorities_eq_ok.mp hrestrictions
    have hadmitted := (checkOperations_eq_ok hfit happart).mp hoperations
    refine ⟨⟨hkind, hrevision, hsha, hfit, happart, hempty.mp hne, hclaimFit, hclaimNodup, ?_,
      hrestrictFit, hrestrictNodup⟩, ?_⟩
    · exact fun o ho op hop => (checkOperation_eq_ok hclaimNodup).mp (hadmitted o ho op hop)
    · rw [howners]
      rfl
  · rintro ⟨F, rfl⟩
    refine ⟨(), F.kind, _, ⟨F.revision, rfl⟩, (), F.sha256, _,
      ⟨F.owners, F.apart, fun o _ => Declared.fresh_empty o, rfl⟩, ?_⟩
    rw [howners, hdomains]
    refine ⟨(), hempty.mpr F.nonempty, _,
      declareClaimAuthorities_eq_ok.mpr ⟨F.claims, F.distinctClaims, rfl⟩, (), ?_, _,
      declareRestrictionAuthorities_eq_ok.mpr ⟨F.restrictions, F.distinctRestrictions, rfl⟩, rfl⟩
    exact (checkOperations_eq_ok F.owners F.apart).mpr fun o ho op hop =>
      (checkOperation_eq_ok F.distinctClaims).mpr (F.operations o ho op hop)

end AgenticCore
