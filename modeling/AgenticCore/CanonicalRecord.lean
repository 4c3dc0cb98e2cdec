import AgenticCore.Lineage
import AgenticCore.PublicRequest
import AgenticCore.Registry
import AgenticCore.JsonText

/-!
# Canonical decision records (`continuity.rs`)

* `Record.ofValue` / `Record.toValue` : records as they are read and written.
* `normalize`              : the normal form of a written record.
* `normalized_eq_ok`       : the records that are accepted, and their normal form.
* `normalize_canonical`    : **normalisation is idempotent, forgets order and repetition, and the
                             material revision names everything but the source.**
-/

set_option autoImplicit false

namespace AgenticCore.Continuity

open Json Text

/-! ## Records as values -/

def Reference.ofValue (v : Value) : Option Reference := do
  let field ← v.structFields ["owner", "reference", "revision"]
  let owner ← (field "owner").bind Value.asStr
  let reference ← (field "reference").bind Value.asStr
  let revision ← (field "revision").bind Value.asStr
  pure { owner, reference, revision }

def ActorKind.ofName : String → Option ActorKind
  | "agent" => some .agent
  | "human" => some .human
  | "unattributed" => some .unattributed
  | _ => none

/-- A unit variant: its name, or an object with null under its name. -/
def ActorKind.ofValue : Value → Option ActorKind
  | .string name => ActorKind.ofName name
  | .object [(name, .null)] => ActorKind.ofName name
  | _ => none

def Actor.ofValue (v : Value) : Option Actor := do
  let field ← v.structFields ["kind", "id"]
  let kind ← (field "kind").bind ActorKind.ofValue
  let id ← (field "id").bind Value.asStr
  pure { kind, id }

def listOf {α : Type} (f : Value → Option α) (v : Value) : Option (List α) :=
  v.asArray.bind (·.mapM f)

/-- `#[serde(default)]` on a list. -/
def listOrEmpty {α : Type} (f : Value → Option α) : Option Value → Option (List α)
  | none => some []
  | some v => listOf f v

def Authority.ofValue (v : Value) : Option Authority := do
  let field ← v.structFields ["actor", "basis"]
  let actor ← (field "actor").bind Actor.ofValue
  let basis ← (field "basis").bind (listOf Reference.ofValue)
  pure { actor, basis }

def Supersedes.ofValue (v : Value) : Option Supersedes := do
  let field ← v.structFields ["id", "material_revision", "scope"]
  let id ← (field "id").bind Value.asStr
  let materialRevision ← (field "material_revision").bind Value.asStr
  let scope ← (field "scope").bind stringItems
  pure { id, materialRevision, scope }

def RECORD_FIELDS : List String :=
  ["id", "source", "decision", "consequence", "rationale_reference", "authors", "contributors",
    "authority", "scope", "semantic_routes", "dependencies", "context", "supersedes",
    "material_revision"]

/-- An optional text; absent or null is none. -/
def optionalStr : Option Value → Option (Option String)
  | none | some .null => some none
  | some v => v.asStr.map some

/-- The last field has no default, so an array of fields is complete. -/
def Record.ofValue (v : Value) : Option Record := do
  let field ← v.structFields RECORD_FIELDS
  guard (∀ items ∈ v.asArray, items.length = RECORD_FIELDS.length)
  let id ← (field "id").bind Value.asStr
  let source ← (field "source").bind Reference.ofValue
  let decision ← (field "decision").bind Value.asStr
  let consequence ← (field "consequence").bind Value.asStr
  let rationaleReference ← (field "rationale_reference").bind Value.asStr
  let authors ← (field "authors").bind (listOf Actor.ofValue)
  let contributors ← listOrEmpty Actor.ofValue (field "contributors")
  let authority ← (field "authority").bind Authority.ofValue
  let scope ← (field "scope").bind stringItems
  let semanticRoutes ← listOrEmpty Value.asStr (field "semantic_routes")
  let dependencies ← listOrEmpty Reference.ofValue (field "dependencies")
  let context ← listOrEmpty Reference.ofValue (field "context")
  let supersedes ← listOrEmpty Supersedes.ofValue (field "supersedes")
  let materialRevision ← optionalStr (field "material_revision")
  pure { id, source, decision, consequence, rationaleReference, authors, contributors, authority
         scope, semanticRoutes, dependencies, context, supersedes, materialRevision }

def Record.members (r : Record) : List (String × Option Value) :=
  [("authority", some r.authority.toValue),
    ("authors", some (.array (r.authors.map Actor.toValue))),
    ("consequence", some (.string r.consequence)),
    ("context", some (.array (r.context.map Reference.toValue))),
    ("contributors", some (.array (r.contributors.map Actor.toValue))),
    ("decision", some (.string r.decision)),
    ("dependencies", some (.array (r.dependencies.map Reference.toValue))),
    ("id", some (.string r.id)),
    ("material_revision", some (.orNull (r.materialRevision.map .string))),
    ("rationale_reference", some (.string r.rationaleReference)),
    ("scope", some (.strings r.scope)),
    ("semantic_routes", if r.semanticRoutes = [] then none else some (.strings r.semanticRoutes)),
    ("source", some r.source.toValue),
    ("supersedes", some (.array (r.supersedes.map Supersedes.toValue)))]

def Record.toValue (r : Record) : Value := .record r.members

variable (digest : Value → String)

def normalize (v : Value) : Result Value := do
  let record ← okOr (Record.ofValue v) MALFORMED
  let normal ← normalized digest record
  pure normal.toValue

variable {digest}

/-! ### A written record is read back -/

theorem mapM_map_some {α β : Type} {f : β → Option α} {g : α → β} (h : ∀ a, f (g a) = some a)
    (l : List α) : (l.map g).mapM f = some l := by
  induction l with
  | nil => rfl
  | cons a l ih => simp [List.mapM_cons, h, ih]

theorem listOf_array {α : Type} {f : Value → Option α} {g : α → Value} (h : ∀ a, f (g a) = some a)
    (l : List α) : listOf f (.array (l.map g)) = some l := mapM_map_some h l

theorem stringItems_strings (l : List String) : stringItems (.strings l) = some l :=
  mapM_map_some (g := Value.string) (fun _ => rfl) l

/-- Routes are read back also where they are left out. -/
theorem listOrEmpty_routes (routes : List String) :
    listOrEmpty Value.asStr (if routes = [] then none else some (.strings routes)) = some routes := by
  split
  · rename_i h
    rw [h]
    rfl
  · exact stringItems_strings _

theorem Reference.ofValue_toValue (r : Reference) : Reference.ofValue r.toValue = some r := rfl

theorem Actor.ofValue_toValue (a : Actor) : Actor.ofValue a.toValue = some a := by
  obtain ⟨kind, id⟩ := a
  cases kind <;> rfl

theorem Authority.ofValue_toValue (a : Authority) : Authority.ofValue a.toValue = some a := by
  show ((some a.actor.toValue).bind Actor.ofValue).bind _ = some a
  rw [Option.bind_some, Actor.ofValue_toValue, Option.bind_some]
  show ((some (Value.array (a.basis.map Reference.toValue))).bind
    (listOf Reference.ofValue)).bind _ = some a
  rw [Option.bind_some, listOf_array Reference.ofValue_toValue]
  rfl

theorem Supersedes.ofValue_toValue (s : Supersedes) : Supersedes.ofValue s.toValue = some s := by
  show (stringItems (.strings s.scope)).bind _ = some s
  rw [stringItems_strings]
  rfl

theorem Record.ofValue_toValue (r : Record) : Record.ofValue r.toValue = some r := by
  have hrevision : optionalStr (some (.orNull (r.materialRevision.map .string))) =
      some r.materialRevision := by
    cases r.materialRevision <;> rfl
  obtain ⟨field, hfield⟩ : ∃ field, field = fun name => ((r.members).lookup name).join := ⟨_, rfl⟩
  have hstruct : r.toValue.structFields RECORD_FIELDS = some field := by
    rw [hfield]
    exact structFields_record (by simp [Record.members, RECORD_FIELDS]) (by simp [Record.members])
  have hid : field "id" = some (.string r.id) := by rw [hfield]; rfl
  have hsource : field "source" = some r.source.toValue := by rw [hfield]; rfl
  have hdecision : field "decision" = some (.string r.decision) := by rw [hfield]; rfl
  have hconsequence : field "consequence" = some (.string r.consequence) := by rw [hfield]; rfl
  have hrationale : field "rationale_reference" = some (.string r.rationaleReference) := by
    rw [hfield]; rfl
  have hauthors : field "authors" = some (.array (r.authors.map Actor.toValue)) := by
    rw [hfield]; rfl
  have hcontributors : field "contributors" = some (.array (r.contributors.map Actor.toValue)) := by
    rw [hfield]; rfl
  have hauthority : field "authority" = some r.authority.toValue := by rw [hfield]; rfl
  have hscope : field "scope" = some (.strings r.scope) := by rw [hfield]; rfl
  have hdependencies : field "dependencies" =
      some (.array (r.dependencies.map Reference.toValue)) := by rw [hfield]; rfl
  have hcontext : field "context" = some (.array (r.context.map Reference.toValue)) := by
    rw [hfield]; rfl
  have hsupersedes : field "supersedes" = some (.array (r.supersedes.map Supersedes.toValue)) := by
    rw [hfield]; rfl
  have hroutesField : field "semantic_routes" = if r.semanticRoutes = [] then none
      else some (Value.strings r.semanticRoutes) := by rw [hfield]; rfl
  have hrevisionField : field "material_revision" =
      some (.orNull (r.materialRevision.map .string)) := by rw [hfield]; rfl
  have hguard : (guard (∀ items ∈ r.toValue.asArray, items.length = RECORD_FIELDS.length) :
      Option Unit) = some () := rfl
  rw [Record.ofValue, hstruct, Option.bind_eq_bind, Option.bind_some, hguard]
  simp only [Option.bind_eq_bind, Option.bind_some, hid, hsource, hdecision, hconsequence,
    hrationale, hauthors, hcontributors, hauthority, hscope, hdependencies, hcontext, hsupersedes,
    hroutesField, listOrEmpty_routes, hrevisionField, hrevision, Value.asStr,
    Reference.ofValue_toValue, Authority.ofValue_toValue, stringItems_strings,
    listOf_array Actor.ofValue_toValue]
  simp only [listOrEmpty, Option.bind_some, listOf_array Actor.ofValue_toValue,
    listOf_array Reference.ofValue_toValue, listOf_array Supersedes.ofValue_toValue]
  rfl

/-! ## The normal form -/

theorem Reference.key_injective : Function.Injective Reference.key := by
  rintro ⟨owner, reference, revision⟩ ⟨owner', reference', revision'⟩ h
  simp only [Reference.key, EmbeddingLike.apply_eq_iff_eq, Prod.mk.injEq] at h
  obtain ⟨rfl, rfl, rfl⟩ := h
  rfl

theorem Actor.key_injective : Function.Injective Actor.key := by
  rintro ⟨kind, id⟩ ⟨kind', id'⟩ h
  simp only [Actor.key, EmbeddingLike.apply_eq_iff_eq, Prod.mk.injEq] at h
  obtain ⟨hkind, rfl⟩ := h
  cases kind <;> cases kind' <;> first | rfl | cases hkind

/-- Neighbours in a list sorted by identity repeat one exactly when the list does. -/
theorem duplicateTarget_eq_false {l : List Supersedes}
    (h : l.Pairwise fun a b => a.id ≤ b.id) :
    duplicateTarget l = false ↔ (l.map (·.id)).Nodup := by
  induction l with
  | nil => simp [duplicateTarget]
  | cons a l ih =>
    rw [List.pairwise_cons] at h
    cases l with
    | nil => simp [duplicateTarget]
    | cons b l =>
      have hfirst : a.id ≠ b.id ↔ a.id ∉ (b :: l).map (·.id) := by
        constructor
        · intro hne hmem
          obtain ⟨c, hc, hid⟩ := List.mem_map.mp hmem
          have hab := h.1 b List.mem_cons_self
          rcases List.mem_cons.mp hc with rfl | hc
          · exact hne hid.symm
          · have hbc := (List.pairwise_cons.mp h.2).1 c hc
            exact hne (le_antisymm hab (hid ▸ hbc))
        · intro hmem heq
          exact hmem (List.mem_map.mpr ⟨b, List.mem_cons_self, heq.symm⟩)
      show (a.id == b.id || duplicateTarget (b :: l)) = false ↔ (a.id :: (b :: l).map (·.id)).Nodup
      rw [Bool.or_eq_false_iff, ih h.2, beq_eq_false_iff_ne, hfirst, List.nodup_cons]

/-- A relation as a record of the given identity and scope may state it. -/
structure RelationFit (recordId : String) (recordScope : List String) (relation : Supersedes) :
    Prop where
  id : trim relation.id ≠ ""
  materialRevision : trim relation.materialRevision ≠ ""
  scopes : ∀ s ∈ relation.scope, scopeIdentity s = .ok ()
  other : relation.id ≠ recordId
  nonempty : relation.scope ≠ []
  within : ∀ s ∈ relation.scope, s ∈ recordScope

theorem sortDedup_ne_nil {α : Type*} [LinearOrder α] {l : List α} :
    sortDedup l ≠ [] ↔ l ≠ [] := by
  simp only [ne_eq, List.eq_nil_iff_forall_not_mem, mem_sortDedup]

theorem supersession_eq_ok_iff {id : String} {scope : List String} {relation result : Supersedes} :
    supersession id (sortDedup scope) relation = .ok result ↔
      RelationFit id scope relation ∧ result = relation.normal := by
  simp only [supersession, scopes, Except.bind_eq_ok_iff, requireText_eq_ok, forM_eq_ok, check_eq_ok,
    Except.pure_eq_ok_iff]
  constructor
  · rintro ⟨_, ⟨hid, -⟩, _, ⟨hrevision, -⟩, _, ⟨_, hscopes, rfl⟩, _, ⟨hother, hscoped, hwithin⟩, rfl⟩
    exact ⟨⟨hid, hrevision, hscopes, hother, sortDedup_ne_nil.mp hscoped,
      fun s hs => mem_sortDedup.mp (hwithin s (mem_sortDedup.mpr hs))⟩, rfl⟩
  · rintro ⟨F, rfl⟩
    exact ⟨_, ⟨F.id, rfl⟩, _, ⟨F.materialRevision, rfl⟩, _, ⟨(), F.scopes, rfl⟩, (),
      ⟨F.other, sortDedup_ne_nil.mpr F.nonempty,
        fun s hs => mem_sortDedup.mpr (F.within s (mem_sortDedup.mp hs))⟩, rfl⟩

/-- References of which none is at two revisions. -/
structure ReferencesFit (refs : List Reference) : Prop where
  each : ∀ r ∈ refs, reference r = .ok ()
  compatible : conflicting (sortReferences refs) = false

theorem references_eq_ok_iff {refs result : List Reference} :
    references refs = .ok result ↔ ReferencesFit refs ∧ result = sortReferences refs := by
  simp only [references, Except.bind_eq_ok_iff, forM_eq_ok, check_eq_ok, Except.pure_eq_ok_iff]
  constructor
  · rintro ⟨_, heach, _, hcompatible, rfl⟩
    exact ⟨⟨heach, hcompatible⟩, rfl⟩
  · rintro ⟨F, rfl⟩
    exact ⟨(), F.each, (), F.compatible, rfl⟩

/-- Where a record says it comes from. -/
structure Record.Sourced (r : Record) : Prop where
  rationale : trim r.rationaleReference ≠ ""
  source : reference r.source = .ok ()

/-- What a record decides, as it may be stated. -/
structure Record.Fit (r : Record) : Prop where
  routes : ∀ v ∈ r.semanticRoutes, semanticRouteId v = true
  routesOnce : (sortDedup r.semanticRoutes).length = r.semanticRoutes.length
  id : trim r.id ≠ ""
  decision : trim r.decision ≠ ""
  consequence : trim r.consequence ≠ ""
  attributed : r.authority.actor.kind ≠ .unattributed
  stated : r.authors ≠ [] ∧ r.authority.basis ≠ [] ∧ r.scope ≠ []
  actors : ∀ a ∈ r.authors ++ r.contributors ++ [r.authority.actor], trim a.id ≠ ""
  scopes : ∀ s ∈ r.scope, scopeIdentity s = .ok ()
  basis : ReferencesFit r.authority.basis
  dependencies : ReferencesFit r.dependencies
  context : ReferencesFit r.context
  relations : ∀ relation ∈ r.supersedes, RelationFit r.id r.scope relation
  targets : (r.supersedes.map (·.id)).Nodup

/-- The record with its lists in order, as the material revision is computed of it. -/
def Record.normal (r : Record) : Record :=
  { r with
    semanticRoutes := sortDedup r.semanticRoutes
    authors := sortActors r.authors
    contributors := sortActors r.contributors
    authority := { r.authority with basis := sortReferences r.authority.basis }
    scope := sortDedup r.scope
    dependencies := sortReferences r.dependencies
    context := sortReferences r.context
    supersedes := (r.supersedes.map Supersedes.normal).insertionSort fun a b => a.id ≤ b.id }

theorem sorted_supersedes (l : List Supersedes) :
    (l.insertionSort fun a b => a.id ≤ b.id).Pairwise fun a b => a.id ≤ b.id := by
  have : Std.Total fun a b : Supersedes => a.id ≤ b.id := ⟨fun a b => le_total a.id b.id⟩
  have : IsTrans Supersedes fun a b => a.id ≤ b.id := ⟨fun _ _ _ => le_trans⟩
  exact List.pairwise_insertionSort _ _

theorem duplicateTarget_normal {relations : List Supersedes} :
    duplicateTarget ((relations.map Supersedes.normal).insertionSort fun a b => a.id ≤ b.id) =
      false ↔ (relations.map (·.id)).Nodup := by
  rw [duplicateTarget_eq_false (sorted_supersedes _),
    ((List.perm_insertionSort _ _).map _).nodup_iff, List.map_map]
  rfl

/-- **The records that are accepted, and what becomes of them.** -/
theorem normalized_eq_ok {r n : Record} :
    normalized digest r = .ok n ↔ r.Fit ∧ r.Sourced ∧
      (∀ expected ∈ r.materialRevision, expected = digest r.normal.material) ∧
      n = { r.normal with materialRevision := some (digest r.normal.material) } := by
  have hrelations : ∀ relations : List Supersedes,
      r.supersedes.mapM (supersession r.id (sortDedup r.scope)) = .ok relations ↔
        (∀ relation ∈ r.supersedes, RelationFit r.id r.scope relation) ∧
          relations = r.supersedes.map Supersedes.normal := fun _ =>
    mapM_eq_ok_map fun _ _ => supersession_eq_ok_iff
  simp only [normalized, Except.bind_eq_ok_iff, routeIds_eq_ok, requireText_eq_ok, check_eq_ok,
    forM_eq_ok, scopes, references_eq_ok_iff, Except.pure_eq_ok_iff]
  constructor
  · rintro ⟨_, ⟨hroutes, honce, rfl⟩, _, ⟨hid, -⟩, _, ⟨hdecision, -⟩, _, ⟨hconsequence, -⟩, _,
      ⟨hrationale, -⟩, _, hsource, _, hattributed, _, hstated, _, hactors, _, ⟨_, hscopes, rfl⟩, _,
      ⟨hbasis, rfl⟩, _, ⟨hdependencies, rfl⟩, _, ⟨hcontext, rfl⟩, _, hmapped, _, htargets, _,
      hexpected, rfl⟩
    obtain ⟨hfit, rfl⟩ := (hrelations _).mp hmapped
    refine ⟨⟨hroutes, honce, hid, hdecision, hconsequence, hattributed, hstated, fun a ha => ?_,
      hscopes, hbasis, hdependencies, hcontext, hfit, duplicateTarget_normal.mp htargets⟩,
      ⟨hrationale, hsource⟩, hexpected, rfl⟩
    obtain ⟨_, ⟨ha, -⟩, -⟩ := hactors a ha
    exact ha
  · rintro ⟨F, S, hexpected, rfl⟩
    exact ⟨_, ⟨F.routes, F.routesOnce, rfl⟩, _, ⟨F.id, rfl⟩, _, ⟨F.decision, rfl⟩, _,
      ⟨F.consequence, rfl⟩, _, ⟨S.rationale, rfl⟩, (), S.source, (), F.attributed, (), F.stated, (),
      fun a ha => ⟨_, ⟨F.actors a ha, rfl⟩, trivial⟩, _, ⟨(), F.scopes, rfl⟩, _, ⟨F.basis, rfl⟩, _,
      ⟨F.dependencies, rfl⟩, _, ⟨F.context, rfl⟩, _, (hrelations _).mpr ⟨F.relations, rfl⟩, (),
      duplicateTarget_normal.mpr F.targets, (), hexpected, rfl⟩

/-! ## Records that decide the same -/

/-- Two relations that name the same scopes. -/
structure Supersedes.Same (a b : Supersedes) : Prop where
  id : b.id = a.id
  materialRevision : b.materialRevision = a.materialRevision
  scope : ∀ s, s ∈ b.scope ↔ s ∈ a.scope

theorem Supersedes.Same.normal_eq {a b : Supersedes} (h : a.Same b) : b.normal = a.normal := by
  rw [Supersedes.normal, Supersedes.normal, h.id, h.materialRevision, sortDedup_eq h.scope]

theorem Supersedes.same_map {α : Type} (f : Supersedes → α)
    (hf : ∀ a b : Supersedes, a.Same b → f b = f a) {l l' : List Supersedes}
    (h : List.Forall₂ Supersedes.Same l l') : l.map f = l'.map f := by
  induction h with
  | nil => rfl
  | cons hab _ ih => rw [List.map_cons, List.map_cons, ih, hf _ _ hab]

theorem Supersedes.same_normal (a : Supersedes) : a.Same a.normal :=
  ⟨rfl, rfl, fun _ => mem_sortDedup⟩

/-- `r'` is `r` but for the order and the repetition of what its lists name, for where it comes
    from and for the revision it records. Routes may not be repeated. -/
structure Record.SameDecision (r r' : Record) : Prop where
  authors : ∀ a, a ∈ r'.authors ↔ a ∈ r.authors
  contributors : ∀ a, a ∈ r'.contributors ↔ a ∈ r.contributors
  basis : ∀ b, b ∈ r'.authority.basis ↔ b ∈ r.authority.basis
  scope : ∀ s, s ∈ r'.scope ↔ s ∈ r.scope
  routes : r'.semanticRoutes.Perm r.semanticRoutes
  dependencies : ∀ d, d ∈ r'.dependencies ↔ d ∈ r.dependencies
  context : ∀ c, c ∈ r'.context ↔ c ∈ r.context
  supersedes : ∃ relations, List.Forall₂ Supersedes.Same r.supersedes relations ∧
    relations.Perm r'.supersedes
  rest : { r with
      source := r'.source, rationaleReference := r'.rationaleReference, authors := r'.authors
      contributors := r'.contributors, authority := { r.authority with basis := r'.authority.basis }
      scope := r'.scope, semanticRoutes := r'.semanticRoutes, dependencies := r'.dependencies
      context := r'.context, supersedes := r'.supersedes
      materialRevision := r'.materialRevision } = r'

section Same

variable {r r' : Record}

theorem Record.SameDecision.id (h : r.SameDecision r') : r'.id = r.id :=
  (congrArg Record.id h.rest).symm

theorem Record.SameDecision.decision (h : r.SameDecision r') : r'.decision = r.decision :=
  (congrArg Record.decision h.rest).symm

theorem Record.SameDecision.consequence (h : r.SameDecision r') : r'.consequence = r.consequence :=
  (congrArg Record.consequence h.rest).symm

theorem Record.SameDecision.actor (h : r.SameDecision r') :
    r'.authority.actor = r.authority.actor :=
  (congrArg (·.authority.actor) h.rest).symm

theorem Record.SameDecision.relation (h : r.SameDecision r') {b : Supersedes}
    (hb : b ∈ r'.supersedes) : ∃ a ∈ r.supersedes, a.Same b := by
  obtain ⟨relations, hsame, hperm⟩ := h.supersedes
  exact hsame.exists_left b (hperm.mem_iff.mpr hb)

theorem Record.SameDecision.targets (h : r.SameDecision r') :
    (r.supersedes.map (·.id)).Perm (r'.supersedes.map (·.id)) := by
  obtain ⟨relations, hsame, hperm⟩ := h.supersedes
  rw [Supersedes.same_map (·.id) (fun _ _ hab => hab.id) hsame]
  exact hperm.map _

/-- Relations of distinct targets are sorted alike. -/
theorem Record.SameDecision.supersedes_eq (h : r.SameDecision r')
    (htargets : (r.supersedes.map (·.id)).Nodup) :
    r'.normal.supersedes = r.normal.supersedes := by
  obtain ⟨relations, hsame, hperm⟩ := h.supersedes
  have hnormal := Supersedes.same_map Supersedes.normal (fun _ _ hab => hab.normal_eq) hsame
  show (r'.supersedes.map Supersedes.normal).insertionSort _ = _
  rw [Record.normal]
  refine (insertionSort_key_eq_of_perm (·.id) (hnormal ▸ hperm.map _) ?_).symm
  intro n hn m hm hid
  obtain ⟨a, ha, rfl⟩ := List.mem_map.mp hn
  obtain ⟨b, hb, rfl⟩ := List.mem_map.mp hm
  rw [List.inj_on_of_nodup_map htargets ha hb hid]

theorem ReferencesFit.congr {refs refs' : List Reference} (h : ∀ x, x ∈ refs' ↔ x ∈ refs)
    (F : ReferencesFit refs) : ReferencesFit refs' := by
  refine ⟨fun x hx => F.each x ((h x).mp hx), ?_⟩
  rw [sortReferences, dedupRuns_insertionSort_eq Reference.key_injective h]
  exact F.compatible

/-- What one may be stated as, the other may. -/
theorem Record.SameDecision.fit (h : r.SameDecision r') (F : r.Fit) : r'.Fit where
  routes v hv := F.routes v (h.routes.mem_iff.mp hv)
  routesOnce := by
    rw [sortDedup_eq_of_perm h.routes, h.routes.length_eq]
    exact F.routesOnce
  id := h.id ▸ F.id
  decision := h.decision ▸ F.decision
  consequence := h.consequence ▸ F.consequence
  attributed := h.actor ▸ F.attributed
  stated := by
    have hnil : ∀ {α : Type} {l l' : List α}, (∀ x, x ∈ l' ↔ x ∈ l) → l ≠ [] → l' ≠ [] := by
      intro α l l' hmem hne hnil
      obtain ⟨x, hx⟩ := List.exists_mem_of_ne_nil l hne
      have hx' := (hmem x).mpr hx
      rw [hnil] at hx'
      exact absurd hx' List.not_mem_nil
    exact ⟨hnil h.authors F.stated.1, hnil h.basis F.stated.2.1, hnil h.scope F.stated.2.2⟩
  actors a ha := by
    apply F.actors a
    rw [List.mem_append, List.mem_append, List.mem_singleton] at ha ⊢
    rwa [← h.authors, ← h.contributors, ← h.actor]
  scopes s hs := F.scopes s ((h.scope s).mp hs)
  basis := F.basis.congr h.basis
  dependencies := F.dependencies.congr h.dependencies
  context := F.context.congr h.context
  relations b hb := by
    obtain ⟨a, ha, hab⟩ := h.relation hb
    have R := F.relations a ha
    refine ⟨hab.id ▸ R.id, hab.materialRevision ▸ R.materialRevision,
      fun s hs => R.scopes s ((hab.scope s).mp hs), hab.id ▸ h.id ▸ R.other, fun hnil => ?_,
      fun s hs => (h.scope s).mpr (R.within s ((hab.scope s).mp hs))⟩
    obtain ⟨s, hs⟩ := List.exists_mem_of_ne_nil _ R.nonempty
    have hs' := (hab.scope s).mpr hs
    rw [hnil] at hs'
    exact absurd hs' List.not_mem_nil
  targets := h.targets.nodup_iff.mp F.targets

/-- Their normal forms differ in where they come from. -/
theorem Record.SameDecision.normal_eq (h : r.SameDecision r') (F : r.Fit) :
    r'.normal = { r.normal with
      source := r'.source, rationaleReference := r'.rationaleReference
      materialRevision := r'.materialRevision } := by
  have hsupersedes := h.supersedes_eq F.targets
  have hauthors : sortActors r'.authors = sortActors r.authors :=
    dedupRuns_insertionSort_eq Actor.key_injective h.authors
  have hcontributors : sortActors r'.contributors = sortActors r.contributors :=
    dedupRuns_insertionSort_eq Actor.key_injective h.contributors
  have hreferences : ∀ {refs refs' : List Reference}, (∀ x, x ∈ refs' ↔ x ∈ refs) →
      sortReferences refs' = sortReferences refs := fun hmem =>
    dedupRuns_insertionSort_eq Reference.key_injective hmem
  simp only [Record.normal, Record.mk.injEq, Authority.mk.injEq, true_and, and_true]
  exact ⟨h.id, h.decision, h.consequence, hauthors, hcontributors,
    ⟨h.actor, hreferences h.basis⟩, sortDedup_eq h.scope, sortDedup_eq_of_perm h.routes,
    hreferences h.dependencies, hreferences h.context, hsupersedes⟩

theorem Record.SameDecision.material_eq (h : r.SameDecision r') (F : r.Fit) :
    r'.normal.material = r.normal.material := by
  rw [h.normal_eq F]
  rfl

end Same

/-- The normal form decides the same. -/
theorem Record.sameDecision_normal (r : Record) (F : r.Fit) (revision : Option String) :
    r.SameDecision { r.normal with materialRevision := revision } where
  authors a := by
    show a ∈ dedupRuns _ ↔ _
    rw [mem_dedupRuns, List.mem_insertionSort]
  contributors a := by
    show a ∈ dedupRuns _ ↔ _
    rw [mem_dedupRuns, List.mem_insertionSort]
  basis _ := mem_sortReferences
  scope _ := mem_sortDedup
  routes := by
    have hsub : (sortDedup r.semanticRoutes).Subperm r.semanticRoutes :=
      (nodup_sortDedup _).subperm fun _ hv => mem_sortDedup.mp hv
    exact hsub.perm_of_length_le F.routesOnce.ge
  dependencies _ := mem_sortReferences
  context _ := mem_sortReferences
  supersedes := ⟨r.supersedes.map Supersedes.normal,
    List.forall₂_map_right_iff.mpr (List.forall₂_same.mpr fun a _ => a.same_normal),
    (List.perm_insertionSort _ _).symm⟩
  rest := rfl

/-- **A record that decides the same is accepted where it comes from somewhere and records no other
revision, and it has the same revision.** -/
theorem Record.SameDecision.normalized_iff {r r' n n' : Record} (h : r.SameDecision r')
    (hn : normalized digest r = .ok n) :
    normalized digest r' = .ok n' ↔ r'.Sourced ∧
      (∀ expected ∈ r'.materialRevision, n.materialRevision = some expected) ∧
      n' = { n with source := r'.source, rationaleReference := r'.rationaleReference } := by
  obtain ⟨F, -, -, rfl⟩ := normalized_eq_ok.mp hn
  rw [normalized_eq_ok, h.material_eq F, h.normal_eq F]
  constructor
  · rintro ⟨-, S, hexpected, rfl⟩
    exact ⟨S, fun e he => by rw [hexpected e he], rfl⟩
  · rintro ⟨S, hexpected, rfl⟩
    exact ⟨h.fit F, S, fun e he => (Option.some.inj (hexpected e he)).symm, rfl⟩

/-- Normalisation is idempotent. -/
theorem normalized_normalized {r n : Record} (h : normalized digest r = .ok n) :
    normalized digest n = .ok n := by
  obtain ⟨F, S, -, rfl⟩ := normalized_eq_ok.mp h
  apply ((r.sameDecision_normal F _).normalized_iff h).mpr
  exact ⟨⟨S.rationale, S.source⟩, fun e he => he, rfl⟩

/-! ## What the revision names -/

theorem map_toValue_inj {α : Type} {f : Value → Option α} {g : α → Value}
    (h : ∀ a, f (g a) = some a) {l l' : List α} (heq : Value.array (l.map g) = .array (l'.map g)) :
    l = l' := by
  have hlist := listOf_array h l
  rw [heq, listOf_array h] at hlist
  exact (Option.some.inj hlist).symm

/-- The material of a record has all of it but where it comes from. -/
theorem Record.material_inj {r r' : Record} (h : r.material = r'.material) :
    r' = { r with
      source := r'.source, rationaleReference := r'.rationaleReference
      materialRevision := r'.materialRevision } := by
  unfold Record.material at h
  have hmembers := record_inj (by simp) (by rfl) h
  simp only [List.cons.injEq, Prod.mk.injEq, Option.some.injEq, and_true, true_and] at hmembers
  obtain ⟨hauthority, hauthors, hconsequence, hcontext, hcontributors, hdecision, hdependencies, hid,
    hscope, hroutes, hsupersedes⟩ := hmembers
  have hroutes' := congrArg (listOrEmpty Value.asStr) hroutes
  rw [listOrEmpty_routes, listOrEmpty_routes] at hroutes'
  have hauthority' := congrArg Authority.ofValue hauthority
  rw [Authority.ofValue_toValue, Authority.ofValue_toValue] at hauthority'
  obtain ⟨id, source, decision, consequence, rationale, authors, contributors, authority, scope,
    routes, dependencies, context, supersedes, revision⟩ := r'
  simp only [Record.mk.injEq, true_and, and_true]
  exact ⟨(Value.string.inj hid).symm, (Value.string.inj hdecision).symm,
    (Value.string.inj hconsequence).symm, (map_toValue_inj Actor.ofValue_toValue hauthors).symm,
    (map_toValue_inj Actor.ofValue_toValue hcontributors).symm, (Option.some.inj hauthority').symm,
    (strings_inj.mp hscope).symm, (Option.some.inj hroutes').symm,
    (map_toValue_inj Reference.ofValue_toValue hdependencies).symm,
    (map_toValue_inj Reference.ofValue_toValue hcontext).symm,
    (map_toValue_inj Supersedes.ofValue_toValue hsupersedes).symm⟩

/-- **Records of one revision agree in all but where they come from.** -/
theorem normalized_agree (hdigest : Function.Injective digest) {r r' n n' : Record}
    (h : normalized digest r = .ok n) (h' : normalized digest r' = .ok n')
    (hrevision : n.materialRevision = n'.materialRevision) :
    n' = { n with source := n'.source, rationaleReference := n'.rationaleReference } := by
  obtain ⟨-, -, -, rfl⟩ := normalized_eq_ok.mp h
  obtain ⟨-, -, -, rfl⟩ := normalized_eq_ok.mp h'
  have hmaterial := Record.material_inj (hdigest (Option.some.inj hrevision))
  show { r'.normal with materialRevision := some (digest r'.normal.material) } = _
  rw [← Option.some.inj hrevision]
  exact congrArg (fun m : Record => { m with
    materialRevision := some (digest r.normal.material) }) hmaterial

/-! ## Values -/

theorem normalize_eq_ok {v w : Value} : normalize digest v = .ok w ↔
    ∃ r n, Record.ofValue v = some r ∧ normalized digest r = .ok n ∧ w = n.toValue := by
  simp only [normalize, Except.bind_eq_ok_iff, okOr_eq_ok, Except.pure_eq_ok_iff]
  constructor
  · rintro ⟨r, hr, n, hn, rfl⟩
    exact ⟨r, n, hr, hn, rfl⟩
  · rintro ⟨r, n, hr, hn, rfl⟩
    exact ⟨r, hr, n, hn, rfl⟩

theorem Record.toValue_get? (r : Record) (name : String) :
    r.toValue.get? name = (r.members.lookup name).join :=
  record_get? (by simp [Record.members]) name

theorem Record.toValue_revision (r : Record) :
    r.toValue.get? "material_revision" = some (.orNull (r.materialRevision.map .string)) := by
  rw [Record.toValue_get?]
  rfl

theorem Record.toValue_revision_iff {r : Record} {revision : String} :
    r.toValue.get? "material_revision" = some (.string revision) ↔
      r.materialRevision = some revision := by
  rw [Record.toValue_revision]
  cases r.materialRevision <;> simp [Value.orNull]

/-- Only two members of a written record say where it comes from. -/
theorem Record.toValue_get?_of_ne (r : Record) (source : Reference) (rationale name : String)
    (hsource : name ≠ "source") (hrationale : name ≠ "rationale_reference") :
    { r with source, rationaleReference := rationale }.toValue.get? name = r.toValue.get? name := by
  rw [Record.toValue_get?, Record.toValue_get?]
  have hsource' : (name == "source") = false := by simpa using hsource
  have hrationale' : (name == "rationale_reference") = false := by simpa using hrationale
  simp only [Record.members, List.lookup_cons, hsource', hrationale']

theorem normalized_revision {r n : Record} (h : normalized digest r = .ok n) :
    ∃ revision, n.materialRevision = some revision := by
  obtain ⟨-, -, -, rfl⟩ := normalized_eq_ok.mp h
  exact ⟨_, rfl⟩

/-- **Decision records are normalised canonically.** A normal form is its own. A record that
decides the same as an accepted one is accepted where its source is fit and it records no other
revision, and has the same revision. Two normal forms of one revision agree in every member but the
two that say where the record comes from. -/
theorem normalize_canonical :
    (∀ v w, normalize digest v = .ok w → normalize digest w = .ok w) ∧
      (∀ v v' r r' w, Record.ofValue v = some r → Record.ofValue v' = some r' →
        r.SameDecision r' → normalize digest v = .ok w →
          ((∃ w', normalize digest v' = .ok w') ↔ r'.Sourced ∧
            ∀ expected ∈ r'.materialRevision,
              w.get? "material_revision" = some (.string expected)) ∧
          ∀ w', normalize digest v' = .ok w' →
            w'.get? "material_revision" = w.get? "material_revision") ∧
      (Function.Injective digest → ∀ v v' w w', normalize digest v = .ok w →
        normalize digest v' = .ok w' → w.get? "material_revision" = w'.get? "material_revision" →
          ∀ name, name ≠ "source" → name ≠ "rationale_reference" → w.get? name = w'.get? name) := by
  refine ⟨fun v w h => ?_, fun v v' r r' w hr hr' hsame h => ?_,
    fun hdigest v v' w w' h h' hrevision => ?_⟩
  · obtain ⟨r, n, -, hn, rfl⟩ := normalize_eq_ok.mp h
    exact normalize_eq_ok.mpr ⟨n, n, n.ofValue_toValue, normalized_normalized hn, rfl⟩
  · obtain ⟨_, n, hr₀, hn, rfl⟩ := normalize_eq_ok.mp h
    obtain rfl := Option.some.inj (hr₀.symm.trans hr)
    have haccepted : ∀ w', normalize digest v' = .ok w' ↔ ∃ n', normalized digest r' = .ok n' ∧
        w' = n'.toValue := by
      intro w'
      rw [normalize_eq_ok]
      constructor
      · rintro ⟨_, n', hr₀', hn', rfl⟩
        obtain rfl := Option.some.inj (hr₀'.symm.trans hr')
        exact ⟨n', hn', rfl⟩
      · rintro ⟨n', hn', rfl⟩
        exact ⟨r', n', hr', hn', rfl⟩
    constructor
    · simp only [haccepted, Record.toValue_revision_iff]
      constructor
      · rintro ⟨_, n', hn', -⟩
        obtain ⟨hsourced, hexpected, -⟩ := (hsame.normalized_iff hn).mp hn'
        exact ⟨hsourced, hexpected⟩
      · rintro ⟨hsourced, hexpected⟩
        exact ⟨_, _, (hsame.normalized_iff hn).mpr ⟨hsourced, hexpected, rfl⟩, rfl⟩
    · intro w' h'
      obtain ⟨n', hn', rfl⟩ := (haccepted w').mp h'
      obtain ⟨-, -, rfl⟩ := (hsame.normalized_iff hn).mp hn'
      rw [Record.toValue_revision, Record.toValue_revision]
  · obtain ⟨r, n, -, hn, rfl⟩ := normalize_eq_ok.mp h
    obtain ⟨r', n', -, hn', rfl⟩ := normalize_eq_ok.mp h'
    obtain ⟨revision, hr⟩ := normalized_revision hn
    have hr' : n'.materialRevision = some revision :=
      Record.toValue_revision_iff.mp (hrevision.symm.trans (Record.toValue_revision_iff.mpr hr))
    intro name hsource hrationale
    rw [normalized_agree hdigest hn hn' (hr.trans hr'.symm)]
    exact (Record.toValue_get?_of_ne n _ _ name hsource hrationale).symm

/-! ### A record and its reordering -/

def sampleAuthor (id : String) : Actor := { kind := .human, id }

def sampleReference (reference : String) : Reference := ⟨"docs", reference, "r1"⟩

def sampleDecision : Record where
  id := "decision-1"
  source := sampleReference "docs/a.md"
  decision := "keep"
  consequence := "kept"
  rationaleReference := "docs/a.md"
  authors := [sampleAuthor "ann", sampleAuthor "bob"]
  contributors := []
  authority := { actor := sampleAuthor "ann", basis := [sampleReference "a", sampleReference "b"] }
  scope := ["owner:a", "path:src"]
  semanticRoutes := []
  dependencies := []
  context := []
  supersedes := []
  materialRevision := none

/-- The same decision from another source, with its lists in another order and with repetitions. -/
def reorderedDecision : Record :=
  { sampleDecision with
    source := sampleReference "docs/b.md"
    authors := [sampleAuthor "bob", sampleAuthor "ann", sampleAuthor "bob"]
    authority := { sampleDecision.authority with
      basis := [sampleReference "b", sampleReference "a"] }
    scope := ["path:src", "path:src", "owner:a"] }

theorem reorderedDecision_same : sampleDecision.SameDecision reorderedDecision where
  authors _ := by simp [sampleDecision, reorderedDecision]; tauto
  contributors _ := Iff.rfl
  basis _ := by simp [sampleDecision, reorderedDecision]; tauto
  scope _ := by simp [sampleDecision, reorderedDecision]; tauto
  routes := .nil
  dependencies _ := Iff.rfl
  context _ := Iff.rfl
  supersedes := ⟨[], .nil, .nil⟩
  rest := rfl

theorem normalize_canonical_reordered : ∃ w w',
    normalize text sampleDecision.toValue = .ok w ∧ normalize text w = .ok w ∧
      normalize text reorderedDecision.toValue = .ok w' ∧
      w'.get? "material_revision" = w.get? "material_revision" ∧
      ∀ name, name ≠ "source" → name ≠ "rationale_reference" → w.get? name = w'.get? name := by
  obtain ⟨w, hw⟩ := Except.isOk_iff.mp
    (by decide : (normalize text sampleDecision.toValue).isOk = true)
  have C := @normalize_canonical text
  obtain ⟨haccepted, hrevision⟩ := C.2.1 _ _ _ _ w (Record.ofValue_toValue _)
    (Record.ofValue_toValue reorderedDecision) reorderedDecision_same hw
  obtain ⟨w', hw'⟩ := haccepted.mpr ⟨⟨by decide, rfl⟩, fun _ h => by cases h⟩
  exact ⟨w, w', hw, C.1 _ _ hw, hw', hrevision w' hw',
    C.2.2 text_injective _ _ w w' hw hw' (hrevision w' hw').symm⟩

end AgenticCore.Continuity
