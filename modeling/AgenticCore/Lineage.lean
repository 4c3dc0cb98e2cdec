import AgenticCore.Continuity

/-!
# Lineages of material decisions

What `project` guarantees of the supersession graph it accepts, over the records as the host
supplied them.

* `normalized_ok`       : the normal form keeps identity, scope and relations.
* `Graph`               : the admitted graph: targets present, scopes covered, and `replaced`
                          holding exactly the superseded scopes.
* `lineageHeads_marks`  : the worklists mark everything below each head with that head.
* `project_unique_head` : the graph is acyclic and each scope of each record has one current head.
-/

set_option autoImplicit false

namespace AgenticCore.Continuity

open Json Text

variable {digest : Value → String}

/-! ## The normal form of a record -/

/-- `later` supersedes `prior` for scope `s`. -/
def Record.Replaces (s : String) (later prior : Record) : Prop :=
  ∃ relation ∈ later.supersedes, relation.id = prior.id ∧ s ∈ relation.scope

def Supersedes.normal (relation : Supersedes) : Supersedes :=
  { relation with scope := sortDedup relation.scope }

theorem scopes_eq_ok {values result : List String} (h : scopes values = .ok result) :
    result = sortDedup values := by
  obtain ⟨-, -, h⟩ := Except.bind_eq_ok_iff.mp h
  exact (Except.pure_eq_ok_iff.mp h).symm

theorem references_eq_ok {refs result : List Reference} (h : references refs = .ok result) :
    result = sortReferences refs := by
  simp only [references, Except.bind_eq_ok_iff, Except.pure_eq_ok_iff] at h
  obtain ⟨_, -, _, -, rfl⟩ := h
  rfl

theorem mem_sortReferences {refs : List Reference} {r : Reference} :
    r ∈ sortReferences refs ↔ r ∈ refs := by
  rw [sortReferences, mem_dedupRuns, List.mem_insertionSort]

theorem supersession_eq_ok {id : String} {scope : List String} {relation result : Supersedes}
    (h : supersession id scope relation = .ok result) :
    result = relation.normal ∧ relation.id ≠ id ∧ ∀ s ∈ relation.scope, s ∈ scope := by
  simp only [supersession, Except.bind_eq_ok_iff, check_eq_ok, Except.pure_eq_ok_iff] at h
  obtain ⟨_, -, _, -, values, hvalues, -, ⟨hid, -, hscope⟩, rfl⟩ := h
  obtain rfl := scopes_eq_ok hvalues
  exact ⟨rfl, hid, fun s hs => hscope s (mem_sortDedup.mpr hs)⟩

/-- `normal` is the normal form of `record`. -/
structure NormalForm (digest : Value → String) (record normal : Record) : Prop where
  id : normal.id = record.id
  source : normal.source = record.source
  rationale : normal.rationaleReference = record.rationaleReference
  scope : normal.scope = sortDedup record.scope
  routes : normal.semanticRoutes = sortDedup record.semanticRoutes
  basis : normal.authority.basis = sortReferences record.authority.basis
  dependencies : normal.dependencies = sortReferences record.dependencies
  context : normal.context = sortReferences record.context
  relations : normal.supersedes.Perm (record.supersedes.map Supersedes.normal)
  within : ∀ relation ∈ record.supersedes,
    relation.id ≠ record.id ∧ ∀ s ∈ relation.scope, s ∈ record.scope
  revision : normal.materialRevision = some (digest normal.material)
  declared : ∀ expected ∈ record.materialRevision, expected = digest normal.material

theorem normalized_ok {record normal : Record} (h : normalized digest record = .ok normal) :
    NormalForm digest record normal := by
  simp only [normalized, Except.bind_eq_ok_iff, check_eq_ok, Except.pure_eq_ok_iff] at h
  obtain ⟨routes, hroutes, _, -, _, -, _, -, _, -, _, -, _, -, _, -, _, -, scope, hscope, basis,
    hbasis, dependencies, hdependencies, context, hcontext, relations, hrelations, _, -, _,
    hdeclared, rfl⟩ := h
  obtain rfl := scopes_eq_ok hscope
  obtain ⟨-, -, rfl⟩ := routeIds_eq_ok.mp hroutes
  have hmap := mapM_ok_eq_map (fun _ _ h => (supersession_eq_ok h).1) hrelations
  refine ⟨rfl, rfl, rfl, rfl, rfl, references_eq_ok hbasis, references_eq_ok hdependencies,
    references_eq_ok hcontext, ?_, ?_, rfl, hdeclared⟩
  · rw [← hmap]
    exact List.perm_insertionSort _ _
  · intro relation hmem
    obtain ⟨_, -, hok⟩ := mapM_ok_mem hrelations relation hmem
    obtain ⟨-, hid, hs⟩ := supersession_eq_ok hok
    exact ⟨hid, fun s hm => mem_sortDedup.mp (hs s hm)⟩

theorem NormalForm.mem_scope {record normal : Record} (n : NormalForm digest record normal)
    {s : String} : s ∈ normal.scope ↔ s ∈ record.scope := by
  rw [n.scope, mem_sortDedup]

theorem NormalForm.mem_restsOn {record normal : Record} (n : NormalForm digest record normal)
    {r : Reference} : r ∈ normal.restsOn ↔ r ∈ record.restsOn := by
  simp only [Record.restsOn, List.mem_append, n.basis, n.dependencies, n.context,
    mem_sortReferences]

theorem NormalForm.mem_routes {record normal : Record} (n : NormalForm digest record normal)
    {route : String} : route ∈ normal.semanticRoutes ↔ route ∈ record.semanticRoutes := by
  rw [n.routes, mem_sortDedup]

theorem NormalForm.mem_supersedes {record normal : Record} (n : NormalForm digest record normal)
    {relation : Supersedes} :
    relation ∈ normal.supersedes ↔ ∃ raw ∈ record.supersedes, raw.normal = relation := by
  rw [n.relations.mem_iff, List.mem_map]

/-- Normalisation keeps what a record says about a target in a scope. -/
theorem NormalForm.names_iff {record normal : Record} (n : NormalForm digest record normal)
    {id s : String} : (∃ relation ∈ normal.supersedes, relation.id = id ∧ s ∈ relation.scope) ↔
      ∃ relation ∈ record.supersedes, relation.id = id ∧ s ∈ relation.scope := by
  constructor
  · rintro ⟨_, hmem, hid, hs⟩
    obtain ⟨raw, hraw, rfl⟩ := n.mem_supersedes.mp hmem
    exact ⟨raw, hraw, hid, mem_sortDedup.mp hs⟩
  · rintro ⟨raw, hraw, hid, hs⟩
    exact ⟨raw.normal, n.mem_supersedes.mpr ⟨raw, hraw, rfl⟩, hid, mem_sortDedup.mpr hs⟩

/-! ## The admitted records -/

/-- `records` holds the normal form of each listed record under its identity, and nothing else. -/
structure Holds (digest : Value → String) (listed : List Record) (records : Records) : Prop where
  distinct : (listed.map (·.id)).Nodup
  holds : ∀ record ∈ listed, ∃ normal, records[record.id]? = some normal ∧
    normalized digest record = .ok normal
  origin : ∀ (id : String) (normal : Record), records[id]? = some normal →
    ∃ record ∈ listed, record.id = id ∧ normalized digest record = .ok normal

theorem admitRecords_holds {listed : List Record} {records : Records}
    (h : listed.foldlM (admitRecord digest) ∅ = .ok records) : Holds digest listed records := by
  have K : KeyedBy (normalized digest) (·.id) listed records := keyedBy_of_foldlM h
  refine ⟨?_, ?_, ?_⟩
  · refine List.pairwise_map.mpr (K.distinct.imp_of_mem fun {a b} ha hb hne => ?_)
    obtain ⟨n, hn, -⟩ := K.holds a ha
    obtain ⟨m, hm, -⟩ := K.holds b hb
    rw [← (normalized_ok hn).id, ← (normalized_ok hm).id]
    exact hne n m hn hm
  · intro record hrecord
    obtain ⟨normal, hnormal, hm⟩ := K.holds record hrecord
    rw [(normalized_ok hnormal).id] at hm
    exact ⟨normal, hm, hnormal⟩
  · intro id normal hm
    obtain ⟨record, hrecord, hnormal, hid⟩ := K.origin id normal hm
    exact ⟨record, hrecord, by rw [← (normalized_ok hnormal).id, hid], hnormal⟩

theorem Holds.id_eq {listed : List Record} {records : Records} (H : Holds digest listed records)
    {id : String} {normal : Record} (h : records[id]? = some normal) : normal.id = id := by
  obtain ⟨record, -, rfl, hnorm⟩ := H.origin id normal h
  exact (normalized_ok hnorm).id

theorem Holds.mem_values_iff {listed : List Record} {records : Records}
    (H : Holds digest listed records) {normal : Record} :
    normal ∈ valuesOf records ↔ records[normal.id]? = some normal := by
  rw [mem_valuesOf]
  constructor
  · rintro ⟨id, h⟩
    rw [H.id_eq h]
    exact h
  · exact fun h => ⟨_, h⟩

/-! ## The supersession graph -/

theorem has_replace {replaced : Replaced} {relation : Supersedes} {id s : String} :
    (replace replaced relation).has id s = true ↔
      replaced.has id s = true ∨ relation.id = id ∧ s ∈ relation.scope := by
  simp only [Replaced.has, replace, Std.ExtTreeMap.getElem?_insert,
    Std.LawfulEqCmp.compare_eq_iff_eq]
  split
  · rename_i scopes h
    split at h
    · rename_i heq
      cases h
      rw [Std.ExtTreeSet.contains_insertMany_list, Bool.or_eq_true, List.contains_iff_mem,
        Std.ExtTreeMap.getD_eq_getD_getElem?, heq]
      cases replaced[id]? <;> simp
    · rename_i hne
      simp [h, hne]
  · rename_i h
    split at h
    · cases h
    · rename_i hne
      simp [h, hne]

/-- The target of a relation is present at the revision it names and covers its scope. -/
def Bound (records : Records) (relation : Supersedes) : Prop :=
  ∃ prior, records[relation.id]? = some prior ∧
    some relation.materialRevision = prior.materialRevision ∧ ∀ s ∈ relation.scope, s ∈ prior.scope

/-- `admitRelation` folded over a list of relations. -/
structure Relations (records : Records) (base : Replaced) (relations : List Supersedes)
    (replaced : Replaced) : Prop where
  bound : ∀ relation ∈ relations, Bound records relation
  replaced_iff : ∀ id s, replaced.has id s = true ↔
    base.has id s = true ∨ ∃ relation ∈ relations, relation.id = id ∧ s ∈ relation.scope

theorem Relations.nil {records : Records} {base : Replaced} : Relations records base [] base :=
  ⟨by simp, by simp⟩

theorem Relations.append {records : Records} {base mid replaced : Replaced}
    {first second : List Supersedes} (h : Relations records base first mid)
    (h' : Relations records mid second replaced) :
    Relations records base (first ++ second) replaced := by
  refine ⟨List.forall_mem_append.mpr ⟨h.bound, h'.bound⟩, fun id s => ?_⟩
  rw [h'.replaced_iff, h.replaced_iff, or_assoc]
  simp only [List.mem_append, or_and_right, exists_or]

theorem admitRelation_relations {records : Records} {base replaced : Replaced}
    {relation : Supersedes} (h : admitRelation records base relation = .ok replaced) :
    Relations records base [relation] replaced := by
  simp only [admitRelation, Except.bind_eq_ok_iff, okOr_eq_ok, check_eq_ok,
    Except.pure_eq_ok_iff] at h
  obtain ⟨prior, hprior, -, ⟨hrev, hscope⟩, rfl⟩ := h
  exact ⟨by simpa using ⟨prior, hprior, hrev, hscope⟩, by simp [has_replace]⟩

theorem admitProvenance_relations {records : Records} {admissions : BTreeMap String Admission}
    {base replaced : Replaced} {record : Record}
    (h : admitProvenance records admissions base record = .ok replaced) :
    Relations records base record.supersedes replaced := by
  simp only [admitProvenance, Except.bind_eq_ok_iff, okOr_eq_ok, check_eq_ok] at h
  obtain ⟨_, -, -, -, hfold⟩ := h
  exact foldlM_ok_induction (Relations records base)
    (fun _ _ _ _ R h => R.append (admitRelation_relations h)) .nil hfold

theorem admitProvenances_relations {records : Records} {admissions : BTreeMap String Admission}
    {listed : List Record} {base replaced : Replaced}
    (h : listed.foldlM (admitProvenance records admissions) base = .ok replaced) :
    Relations records base (listed.flatMap (·.supersedes)) replaced := by
  refine foldlM_ok_induction
    (fun done replaced => Relations records base (done.flatMap (·.supersedes)) replaced)
    (fun done a _ _ R h => ?_) .nil h
  rw [List.flatMap_append]
  simpa using R.append (admitProvenance_relations h)

theorem mem_scopedSuccessors {records : Records} {s later prior : String} :
    prior ∈ scopedSuccessors records s later ↔ ∃ record, records[later]? = some record ∧
      ∃ relation ∈ record.supersedes, relation.id = prior ∧ s ∈ relation.scope := by
  unfold scopedSuccessors
  split
  · rename_i record h
    simp only [List.mem_map, List.mem_filter, decide_eq_true_eq, h, Option.some.injEq,
      exists_eq_left']
    exact ⟨fun ⟨r, ⟨hr, hs⟩, hid⟩ => ⟨r, hr, hid, hs⟩, fun ⟨r, hr, hid, hs⟩ => ⟨r, ⟨hr, hs⟩, hid⟩⟩
  · rename_i h
    simp [h]

theorem mem_successors {records : Records} {later prior : String} :
    prior ∈ successors records later ↔ ∃ record, records[later]? = some record ∧
      ∃ relation ∈ record.supersedes, relation.id = prior := by
  unfold successors
  split <;> simp_all

theorem scopedSuccessors_subset {records : Records} {s later prior : String}
    (h : prior ∈ scopedSuccessors records s later) : prior ∈ successors records later := by
  obtain ⟨record, hr, relation, hmem, hid, -⟩ := mem_scopedSuccessors.mp h
  exact mem_successors.mpr ⟨record, hr, relation, hmem, hid⟩

/-- The admitted graph. -/
structure Graph (records : Records) (replaced : Replaced) : Prop where
  bound : ∀ (id : String) (record : Record), records[id]? = some record →
    ∀ relation ∈ record.supersedes, Bound records relation
  replaced_iff : ∀ id s, replaced.has id s = true ↔ ∃ later, id ∈ scopedSuccessors records s later
  acyclic : ∀ id ∈ records, ¬ Relation.TransGen (fun a b => b ∈ successors records a) id id

theorem Graph.mem_of_successor {records : Records} {replaced : Replaced}
    (G : Graph records replaced) {later prior : String} (h : prior ∈ successors records later) :
    prior ∈ records := by
  obtain ⟨record, hr, relation, hmem, rfl⟩ := mem_successors.mp h
  obtain ⟨p, hp, -, -⟩ := G.bound later record hr relation hmem
  exact Std.ExtTreeMap.mem_iff_isSome_getElem?.mpr (by rw [hp]; rfl)

theorem mem_of_successor {records : Records} {later prior : String}
    (h : prior ∈ successors records later) : later ∈ records := by
  obtain ⟨record, hr, -⟩ := mem_successors.mp h
  exact Std.ExtTreeMap.mem_iff_isSome_getElem?.mpr (by rw [hr]; rfl)

theorem checkAcyclic_ok {records : Records} (h : checkAcyclic records = .ok ()) :
    ∀ id ∈ records, ¬ Relation.TransGen (fun a b => b ∈ successors records a) id id := by
  unfold checkAcyclic at h
  split at h
  · rename_i hall
    intro id hid
    exact Acyclic.not_transGen_self
      (Acyclic.checkAll_acyclic hall id (Std.ExtTreeMap.mem_keys.mpr hid))
  · cases h
  · cases h

theorem graph_of_admitted {records : Records} {replaced : Replaced}
    {admissions : BTreeMap String Admission}
    (hrel : (valuesOf records).foldlM (admitProvenance records admissions) ∅ = .ok replaced)
    (hacyclic : checkAcyclic records = .ok ()) : Graph records replaced := by
  have R := admitProvenances_relations hrel
  refine ⟨?_, ?_, checkAcyclic_ok hacyclic⟩
  · intro id record hr relation hmem
    exact R.bound relation (List.mem_flatMap.mpr ⟨record, mem_valuesOf.mpr ⟨id, hr⟩, hmem⟩)
  · intro id s
    have hempty : (∅ : Replaced).has id s = false := by simp [Replaced.has]
    simp only [R.replaced_iff, hempty, Bool.false_eq_true, false_or, mem_scopedSuccessors,
      List.mem_flatMap, mem_valuesOf]
    constructor
    · rintro ⟨relation, ⟨record, ⟨later, hr⟩, hmem⟩, hid, hs⟩
      exact ⟨later, record, hr, relation, hmem, hid, hs⟩
    · rintro ⟨later, record, hr, relation, hmem, hid, hs⟩
      exact ⟨relation, ⟨record, ⟨later, hr⟩, hmem⟩, hid, hs⟩

/-! ## Heads of lineages -/

/-- `prior` is reached from `later` by relations that cover scope `s`. -/
abbrev Descends (records : Records) (s later prior : String) : Prop :=
  Worklist.Reach (scopedSuccessors records s) later prior

theorem markAncestor_follows {records : Records} {head s : String} :
    Worklist.Follows (markAncestor records head s) (scopedSuccessors records s) := by
  intro x heads heads' next h
  simp only [markAncestor, Except.bind_eq_ok_iff, Except.pure_eq_ok_iff] at h
  obtain ⟨_, -, h⟩ := h
  exact (Prod.mk.inj h).2.symm

/-- No mark is taken back. -/
def Extends (heads heads' : LineageHeads) : Prop :=
  ∀ key head, heads key = some head → heads' key = some head

theorem Extends.trans {heads mid heads' : LineageHeads} (h : Extends heads mid)
    (h' : Extends mid heads') : Extends heads heads' :=
  fun key head hk => h' key head (h key head hk)

theorem markAncestor_ok {records : Records} {head s x : String} {heads : LineageHeads}
    {result : LineageHeads × List String} (h : markAncestor records head s x heads = .ok result) :
    Extends heads result.1 ∧ result.1 (x, s) = some head := by
  simp only [markAncestor, Except.bind_eq_ok_iff, check_eq_ok, Except.pure_eq_ok_iff] at h
  obtain ⟨_, hsame, rfl⟩ := h
  refine ⟨fun key other hk => ?_, by simp⟩
  by_cases hkey : key = (x, s)
  · rw [hkey] at hk
    simp only [hkey, if_true]
    rw [hsame other hk]
  · simp only [hkey, if_false]
    exact hk

/-- The head is marked on everything below it. -/
def Marked (records : Records) (heads : LineageHeads) (head s : String) : Prop :=
  ∀ x, Descends records s head x → heads (x, s) = some head

theorem Marked.mono {records : Records} {heads heads' : LineageHeads} {head s : String}
    (h : Marked records heads head s) (he : Extends heads heads') : Marked records heads' head s :=
  fun x hx => he _ _ (h x hx)

theorem markLineage_ok {records : Records} {replaced : Replaced} {id s : String}
    {heads heads' : LineageHeads} (h : markLineage records replaced id heads s = .ok heads') :
    Extends heads heads' ∧ (replaced.has id s = false → Marked records heads' id s) := by
  unfold markLineage at h
  split at h
  · rename_i hrep
    cases h
    exact ⟨fun _ _ hk => hk, fun hno => by rw [hrep] at hno; cases hno⟩
  split at h
  · rename_i heads₁ visited hwalk
    cases h
    obtain ⟨order, -, V⟩ := Worklist.walk_ok markAncestor_follows hwalk
    have hmarks : Extends heads heads' ∧ ∀ x ∈ order, heads' (x, s) = some id := by
      refine foldlM_ok_induction
        (fun done marked => Extends heads marked ∧ ∀ x ∈ done, marked (x, s) = some id)
        ?_ ⟨fun _ _ hk => hk, by simp⟩ V.folded
      rintro done x marked marked' ⟨hext, hdone⟩ hx
      obtain ⟨result, hr, rfl⟩ : ∃ result, markAncestor records id s x marked = .ok result ∧
          result.1 = marked' := by
        cases hv : markAncestor records id s x marked with
        | error e => rw [hv] at hx; cases hx
        | ok result => rw [hv] at hx; exact ⟨result, rfl, by cases hx; rfl⟩
      obtain ⟨hext', hx⟩ := markAncestor_ok hr
      refine ⟨hext.trans hext', fun y hy => ?_⟩
      rcases List.mem_append.mp hy with hy | hy
      · exact hext' _ _ (hdone y hy)
      · rw [List.mem_singleton.mp hy]
        exact hx
    exact ⟨hmarks.1, fun _ x hx => hmarks.2 x ((V.mem_iff x).mpr ⟨id, by simp, hx⟩)⟩
  · cases h
  · cases h

theorem markScopes_ok {records : Records} {replaced : Replaced} {id : String} {scope : List String}
    {heads heads' : LineageHeads} (h : scope.foldlM (markLineage records replaced id) heads = .ok heads') :
    Extends heads heads' ∧
      ∀ s ∈ scope, replaced.has id s = false → Marked records heads' id s := by
  refine foldlM_ok_induction
    (fun done marked => Extends heads marked ∧
      ∀ s ∈ done, replaced.has id s = false → Marked records marked id s)
    ?_ ⟨fun _ _ hk => hk, by simp⟩ h
  rintro done s marked marked' ⟨hext, hdone⟩ hs
  obtain ⟨hext', hmark⟩ := markLineage_ok hs
  refine ⟨hext.trans hext', List.forall_mem_append.mpr ⟨fun t ht hrep => ?_, by simpa using hmark⟩⟩
  exact (hdone t ht hrep).mono hext'

theorem lineageHeads_marks {records : Records} {replaced : Replaced} {heads : LineageHeads}
    (h : lineageHeads records replaced = .ok heads) : ∀ record ∈ valuesOf records,
      ∀ s ∈ record.scope, replaced.has record.id s = false → Marked records heads record.id s := by
  refine foldlM_ok_induction
    (fun done marked => ∀ record ∈ done, ∀ s ∈ record.scope,
      replaced.has record.id s = false → Marked records marked record.id s)
    ?_ (by simp) h
  intro done record marked marked' hdone hr
  obtain ⟨hext, hmark⟩ := markScopes_ok hr
  refine List.forall_mem_append.mpr ⟨fun other ho s hs hrep => ?_, by simpa using hmark⟩
  exact (hdone other ho s hs hrep).mono hext

/-- Below two current heads of one scope there is nothing in common. -/
theorem heads_unique {records : Records} {replaced : Replaced} {heads : LineageHeads}
    (h : lineageHeads records replaced = .ok heads) {a b : Record} (ha : a ∈ valuesOf records)
    (hb : b ∈ valuesOf records) {s x : String} (has : s ∈ a.scope) (hbs : s ∈ b.scope)
    (hra : replaced.has a.id s = false) (hrb : replaced.has b.id s = false)
    (hax : Descends records s a.id x) (hbx : Descends records s b.id x) : a.id = b.id := by
  have hmark := lineageHeads_marks h a ha s has hra x hax
  rw [lineageHeads_marks h b hb s hbs hrb x hbx] at hmark
  exact (Option.some.inj hmark).symm

/-! ## The bounds on the walks are never reached -/

theorem checkAll_ne_fuel {records : Records} {replaced : Replaced} (G : Graph records replaced) :
    Acyclic.checkAll (successors records) (records.size + 1) records.keys ≠ .error .fuel := by
  have hsweep : ∀ (ids done : List String), (∀ id ∈ ids, id ∈ records) →
      ids.foldlM (Acyclic.visit (successors records) (records.size + 1) []) done ≠ .error .fuel := by
    intro ids
    induction ids with
    | nil => intro _ _ h; cases h
    | cons id ids ih =>
      intro done hids h
      rw [List.foldlM_cons] at h
      obtain ⟨hid, hids⟩ := List.forall_mem_cons.mp hids
      cases hv : Acyclic.visit (successors records) (records.size + 1) [] done id with
      | error e =>
        rw [hv] at h
        cases h
        refine Acyclic.visit_fuel records.keys.toFinset ?_ (by simpa using hid) ?_ hv
        · intro x _ y hy
          simpa using G.mem_of_successor hy
        · have := List.toFinset_card_le records.keys
          rw [Std.ExtTreeMap.length_keys] at this
          simpa using Nat.lt_succ_of_le this
      | ok done' =>
        rw [hv] at h
        exact ih done' hids h
  exact hsweep _ _ fun id hid => Std.ExtTreeMap.mem_keys.mp hid

theorem markWalk_isSome {records : Records} {replaced : Replaced} (G : Graph records replaced)
    {head s : String} {heads : LineageHeads} (hhead : head ∈ records) :
    (Worklist.walk (markAncestor records head s) (records.size + 1) [head] [] heads).isSome := by
  refine Worklist.walk_isSome markAncestor_follows records.keys.toFinset ?_ ?_ ?_
  · intro x _ y hy
    exact Or.inl (by simpa using G.mem_of_successor (scopedSuccessors_subset hy))
  · intro x hx
    rw [List.mem_singleton.mp hx]
    exact Or.inl (by simpa using hhead)
  · have := List.toFinset_card_le records.keys
    rw [Std.ExtTreeMap.length_keys] at this
    simpa using Nat.lt_succ_of_le this

/-! ## Over the records as supplied -/

/-- The relation names its target, whatever the scope. -/
def Record.Names (later prior : Record) : Prop :=
  ∃ relation ∈ later.supersedes, relation.id = prior.id

/-- One relation of the listed records whose scope contains `s`. -/
def Supersession (listed : List Record) (s : String) (later prior : Record) : Prop :=
  later ∈ listed ∧ prior ∈ listed ∧ later.Replaces s prior

/-- A listed record of scope `s` that no listed record supersedes for `s`. -/
def IsHead (listed : List Record) (s : String) (head : Record) : Prop :=
  head ∈ listed ∧ s ∈ head.scope ∧ ∀ later ∈ listed, ¬ later.Replaces s head

theorem Holds.mem_iff {listed : List Record} {records : Records} (H : Holds digest listed records)
    {id : String} : id ∈ records ↔ ∃ record ∈ listed, record.id = id := by
  rw [Std.ExtTreeMap.mem_iff_isSome_getElem?, Option.isSome_iff_exists]
  constructor
  · rintro ⟨normal, h⟩
    obtain ⟨record, hmem, hid, -⟩ := H.origin id normal h
    exact ⟨record, hmem, hid⟩
  · rintro ⟨record, hmem, rfl⟩
    obtain ⟨normal, h, -⟩ := H.holds record hmem
    exact ⟨normal, h⟩

theorem Holds.eq_of_id {listed : List Record} {records : Records} (H : Holds digest listed records)
    {a b : Record} (ha : a ∈ listed) (hb : b ∈ listed) (h : a.id = b.id) : a = b :=
  List.inj_on_of_nodup_map H.distinct ha hb h

theorem Holds.scoped_iff {listed : List Record} {records : Records} (H : Holds digest listed records)
    {s : String} {later prior : Record} (hlater : later ∈ listed) :
    prior.id ∈ scopedSuccessors records s later.id ↔ later.Replaces s prior := by
  obtain ⟨normal, hn, hnorm⟩ := H.holds later hlater
  rw [mem_scopedSuccessors, hn]
  simp only [Option.some.injEq, exists_eq_left']
  exact (normalized_ok hnorm).names_iff

theorem Holds.successor_iff {listed : List Record} {records : Records}
    (H : Holds digest listed records) {later prior : Record} (hlater : later ∈ listed) :
    prior.id ∈ successors records later.id ↔ later.Names prior := by
  obtain ⟨normal, hn, hnorm⟩ := H.holds later hlater
  rw [mem_successors, hn]
  simp only [Option.some.injEq, exists_eq_left']
  constructor
  · rintro ⟨_, hmem, hid⟩
    obtain ⟨raw, hraw, rfl⟩ := (normalized_ok hnorm).mem_supersedes.mp hmem
    exact ⟨raw, hraw, hid⟩
  · rintro ⟨raw, hraw, hid⟩
    exact ⟨raw.normal, (normalized_ok hnorm).mem_supersedes.mpr ⟨raw, hraw, rfl⟩, hid⟩

theorem Holds.descends_iff {listed : List Record} {records : Records}
    (H : Holds digest listed records) {s : String} {head a : Record} (hhead : head ∈ listed) (ha : a ∈ listed) :
    Descends records s head.id a.id ↔ Relation.ReflTransGen (Supersession listed s) head a := by
  constructor
  · intro h
    suffices ∀ id, Descends records s head.id id → ∀ a ∈ listed, a.id = id →
        Relation.ReflTransGen (Supersession listed s) head a from this a.id h a ha rfl
    intro id h
    induction h with
    | refl =>
      intro a ha hid
      rw [H.eq_of_id ha hhead hid]
    | tail _ hstep ih =>
      rintro a ha rfl
      obtain ⟨mid, hmid, rfl⟩ := H.mem_iff.mp (mem_of_successor (scopedSuccessors_subset hstep))
      exact (ih mid hmid rfl).tail ⟨hmid, ha, (H.scoped_iff hmid).mp hstep⟩
  · intro h
    refine h.lift (p := fun a b => b ∈ scopedSuccessors records s a) (·.id) ?_
    exact fun _ _ ⟨hlater, _, hrep⟩ => (H.scoped_iff hlater).mpr hrep

theorem Holds.replaced_iff {listed : List Record} {records : Records} {replaced : Replaced}
    (H : Holds digest listed records) (G : Graph records replaced) {s : String} {record : Record} :
    replaced.has record.id s = true ↔ ∃ later ∈ listed, later.Replaces s record := by
  rw [G.replaced_iff]
  constructor
  · rintro ⟨id, h⟩
    obtain ⟨later, hlater, rfl⟩ := H.mem_iff.mp (mem_of_successor (scopedSuccessors_subset h))
    exact ⟨later, hlater, (H.scoped_iff hlater).mp h⟩
  · rintro ⟨later, hlater, h⟩
    exact ⟨later.id, (H.scoped_iff hlater).mpr h⟩

theorem Holds.head_iff {listed : List Record} {records : Records} {replaced : Replaced}
    (H : Holds digest listed records) (G : Graph records replaced) {s : String} {head : Record} :
    IsHead listed s head ↔
      head ∈ listed ∧ s ∈ head.scope ∧ replaced.has head.id s = false := by
  unfold IsHead
  rw [← Bool.not_eq_true, H.replaced_iff G]
  push Not
  rfl

/-- Everything above a scope's records carries that scope. -/
theorem Holds.scope_of_supersession {listed : List Record} {records : Records}
    (H : Holds digest listed records) {s : String} {later prior : Record}
    (h : Supersession listed s later prior) : s ∈ later.scope := by
  obtain ⟨hlater, -, relation, hmem, -, hs⟩ := h
  obtain ⟨normal, -, hnorm⟩ := H.holds later hlater
  exact ((normalized_ok hnorm).within relation hmem).2 s hs

theorem exists_head {listed : List Record} {records : Records} {replaced : Replaced}
    (H : Holds digest listed records) (G : Graph records replaced) {s : String} {a : Record}
    (ha : a ∈ listed) (hs : s ∈ a.scope) :
    ∃ head, IsHead listed s head ∧ Relation.ReflTransGen (Supersession listed s) head a := by
  have hfinite : {id | id ∈ records}.Finite :=
    records.keys.toFinset.finite_toSet.subset fun id hid => by simpa using hid
  have hacyclic : ∀ id ∈ {id | id ∈ records},
      ¬ Relation.TransGen (fun a b => b ∈ scopedSuccessors records s a) id id := by
    intro id hid hcycle
    refine G.acyclic id hid (hcycle.lift (p := fun a b => b ∈ successors records a) (fun x => x) ?_)
    exact fun _ _ => scopedSuccessors_subset
  obtain ⟨id, hid, hreach, htop⟩ :=
    Acyclic.exists_top hfinite hacyclic (H.mem_iff.mpr ⟨a, ha, rfl⟩)
  obtain ⟨head, hhead, rfl⟩ := H.mem_iff.mp hid
  have hdesc := (H.descends_iff hhead ha).mp hreach
  refine ⟨head, ⟨hhead, ?_, fun later hlater hrep => ?_⟩, hdesc⟩
  · rcases hdesc.cases_head with rfl | ⟨next, hstep, -⟩
    · exact hs
    · exact H.scope_of_supersession hstep
  · exact htop later.id (H.mem_iff.mpr ⟨later, hlater, rfl⟩) ((H.scoped_iff hlater).mpr hrep)

theorem admit_ok {context : Context} {admitted : Admitted}
    (h : admitContext digest context = .ok admitted) :
    Holds digest context.records admitted.records ∧ Graph admitted.records admitted.replaced ∧
      ∃ heads, lineageHeads admitted.records admitted.replaced = .ok heads := by
  simp only [admitContext, Except.bind_eq_ok_iff, Except.pure_eq_ok_iff] at h
  obtain ⟨_, -, _, -, records, hrecords, _, -, _, -, replaced, hreplaced, _, hacyclic, heads,
    hheads, rfl⟩ := h
  exact ⟨admitRecords_holds hrecords, graph_of_admitted hreplaced hacyclic, heads, hheads⟩

theorem project_admit {context : Context} {routes : Option Value} {report : Option Projection}
    (h : project digest context routes = .ok report) :
    ∃ admitted, admitContext digest context = .ok admitted := by
  obtain ⟨admitted, hadmission, -⟩ := Except.bind_eq_ok_iff.mp h
  exact ⟨admitted, hadmission⟩

/-- **Unique current head.** In an accepted context every supersession target is present, no record
    is superseded by way of itself, and each scope of each record has exactly one current head
    above it. -/
theorem project_unique_head {context : Context} {routes : Option Value}
    {report : Option Projection} (h : project digest context routes = .ok report) :
    (∀ later ∈ context.records, ∀ relation ∈ later.supersedes,
      ∃ prior ∈ context.records, prior.id = relation.id) ∧
    (∀ record ∈ context.records, ¬ Relation.TransGen
      (fun later prior => later ∈ context.records ∧ prior ∈ context.records ∧ later.Names prior)
      record record) ∧
    ∀ a ∈ context.records, ∀ s ∈ a.scope, ∃! head,
      IsHead context.records s head ∧
        Relation.ReflTransGen (Supersession context.records s) head a := by
  obtain ⟨admitted, hadmission⟩ := project_admit h
  obtain ⟨H, G, heads, hheads⟩ := admit_ok hadmission
  refine ⟨?_, ?_, ?_⟩
  · intro later hlater relation hmem
    obtain ⟨normal, hn, hnorm⟩ := H.holds later hlater
    obtain ⟨prior, hp, -, -⟩ := G.bound later.id normal hn relation.normal
      ((normalized_ok hnorm).mem_supersedes.mpr ⟨relation, hmem, rfl⟩)
    obtain ⟨raw, hraw, hid, -⟩ := H.origin _ prior hp
    exact ⟨raw, hraw, hid⟩
  · intro record hrecord hcycle
    refine G.acyclic record.id (H.mem_iff.mpr ⟨record, hrecord, rfl⟩) ?_
    refine hcycle.lift (p := fun a b => b ∈ successors admitted.records a) (·.id) ?_
    exact fun _ _ ⟨hlater, _, hnames⟩ => (H.successor_iff hlater).mpr hnames
  · intro a ha s hs
    obtain ⟨head, hhead, hreach⟩ := exists_head H G ha hs
    refine ⟨head, ⟨hhead, hreach⟩, ?_⟩
    rintro other ⟨hother, horeach⟩
    obtain ⟨hlisted, hscope, hcurrent⟩ := (H.head_iff G).mp hhead
    obtain ⟨holisted, hoscope, hocurrent⟩ := (H.head_iff G).mp hother
    have hvalue : ∀ r ∈ context.records, ∃ n ∈ valuesOf admitted.records,
        n.id = r.id ∧ ∀ t ∈ r.scope, t ∈ n.scope := by
      intro r hr
      obtain ⟨n, hn, hnorm⟩ := H.holds r hr
      have N := normalized_ok hnorm
      exact ⟨n, mem_valuesOf.mpr ⟨_, hn⟩, N.id, fun t ht => N.mem_scope.mpr ht⟩
    obtain ⟨n, hn, hnid, hns⟩ := hvalue head hlisted
    obtain ⟨m, hm, hmid, hms⟩ := hvalue other holisted
    refine H.eq_of_id holisted hlisted ?_
    rw [← hnid, ← hmid]
    refine heads_unique hheads hm hn (hms s hoscope) (hns s hscope) (by rw [hmid]; exact hocurrent)
      (by rw [hnid]; exact hcurrent) (x := a.id) ?_ ?_
    · rw [hmid]
      exact (H.descends_iff holisted ha).mpr horeach
    · rw [hnid]
      exact (H.descends_iff hlisted ha).mpr hreach

/-- A record of one scope, as small as the checks allow. -/
def sampleRecord (id : String) (supersedes : List Supersedes) : Record where
  id := id
  source := ⟨"o", "s", "1"⟩
  decision := "d"
  consequence := "c"
  rationaleReference := "s"
  authors := [⟨.agent, "w"⟩]
  contributors := []
  authority := ⟨⟨.human, "h"⟩, [⟨"o", "b", "1"⟩]⟩
  scope := ["path:p"]
  semanticRoutes := []
  dependencies := []
  context := []
  supersedes := supersedes
  materialRevision := none

def sampleAdmission (id : String) : Admission := ⟨"s", id, "r", ⟨"o", "s", "1"⟩⟩

/-- A decision and its successor, where every digest is `r`. -/
def sampleContext : Context where
  records := [sampleRecord "a" [], sampleRecord "b" [⟨"a", "r", ["path:p"]⟩]]
  admissions := [sampleAdmission "a", sampleAdmission "b"]
  currentDependencies := [⟨"o", "b", "1"⟩]
  applicableScope := ["path:p"]
  reconciliation := none

theorem project_unique_head_sample : ∃! head,
    IsHead sampleContext.records "path:p" head ∧
      Relation.ReflTransGen (Supersession sampleContext.records "path:p") head
        (sampleRecord "a" []) := by
  have hok : (project (fun _ => "r") sampleContext none).isOk = true := by decide
  obtain ⟨report, h⟩ := Except.isOk_iff.mp hok
  exact (project_unique_head h).2.2 _ (by simp [sampleContext]) "path:p" (by simp [sampleRecord])

end AgenticCore.Continuity
