import AgenticCore.Lineage

/-!
# What `project` reports as current

* `project_reported_iff` : a scope of a record is reported as current exactly when the request
                           selects it, no listed record supersedes the record for it, and
                           everything the record rests on is current.
-/

set_option autoImplicit false

namespace AgenticCore.Continuity

open Json Text

variable {digest : Value → String}

theorem admitDependencies_ok {listed : List Reference} {current : Current}
    (h : listed.foldlM admitDependency (fun _ => none) = .ok current) (d : Reference) :
    current (d.owner, d.reference) = some d.revision ↔ d ∈ listed := by
  refine foldlM_ok_induction
    (fun done current => ∀ d : Reference,
      current (d.owner, d.reference) = some d.revision ↔ d ∈ done) ?_ (by simp) h d
  intro done item current current' hdone hitem d
  simp only [admitDependency, Except.bind_eq_ok_iff, check_eq_ok, Except.pure_eq_ok_iff] at hitem
  obtain ⟨-, -, -, hfresh, rfl⟩ := hitem
  rw [List.mem_append, List.mem_singleton]
  change (if (d.owner, d.reference) = (item.owner, item.reference) then some item.revision
    else current (d.owner, d.reference)) = some d.revision ↔ _
  by_cases hkey : (d.owner, d.reference) = (item.owner, item.reference)
  · have hout : d ∉ done := fun hd => by
      rw [← hdone d, hkey, hfresh] at hd
      cases hd
    obtain ⟨howner, href⟩ := Prod.mk.inj hkey
    rw [if_pos hkey, Option.some.injEq, or_iff_right hout]
    constructor
    · intro hrev
      cases d
      cases item
      simp_all
    · rintro rfl
      rfl
  · rw [if_neg hkey, hdone d]
    refine (or_iff_left ?_).symm
    rintro rfl
    exact hkey rfl

/-- The request selects scope `s` of the record: by the scope itself or, when no scope of the
    record is asked for, by one of its semantic routes. -/
def Requested (applicable : List String) (routes : Option Value) (record : Record) (s : String) :
    Prop :=
  s ∈ record.scope ∧
    (s ∈ applicable ∨
      (∀ t ∈ record.scope, t ∉ applicable) ∧ routeMatches routes record = true)

theorem routeMatches_routes {routes : Option Value} {record : Record}
    (h : routeMatches routes record = true) : record.semanticRoutes ≠ [] := by
  intro hnil
  unfold routeMatches at h
  split at h
  · cases h
  · rw [Bool.and_eq_true] at h
    obtain ⟨-, h⟩ := h
    split at h
    · simp [hnil] at h
    · cases h

theorem mem_selectedScope {applicable : List String} {routes : Option Value} {record : Record}
    {s : String} : s ∈ selectedScope applicable routes record ↔ Requested applicable routes record s := by
  have hnil : record.scope.filter (· ∈ applicable) = [] ↔ ∀ t ∈ record.scope, t ∉ applicable := by
    simp [List.filter_eq_nil_iff]
  simp only [selectedScope, Requested, hnil]
  split
  · rename_i h
    obtain ⟨hnone, -, hroute⟩ := h
    exact ⟨fun hs => ⟨hs, Or.inr ⟨hnone, hroute⟩⟩, fun h => h.1⟩
  · rename_i h
    rw [List.mem_filter, decide_eq_true_eq]
    constructor
    · exact fun ⟨hs, ha⟩ => ⟨hs, Or.inl ha⟩
    · rintro ⟨hs, ha | ⟨hnone, hroute⟩⟩
      · exact ⟨hs, ha⟩
      · exact absurd ⟨hnone, routeMatches_routes hroute, hroute⟩ h

theorem NormalForm.routeMatches {record normal : Record} (n : NormalForm digest record normal)
    (routes : Option Value) :
    Continuity.routeMatches routes normal = Continuity.routeMatches routes record := by
  unfold Continuity.routeMatches
  split
  · rfl
  · congr 1
    split
    · rw [Bool.eq_iff_iff, List.any_eq_true, List.any_eq_true]
      simp only [n.mem_routes]
    · rfl

theorem NormalForm.requested_iff {record normal : Record} (n : NormalForm digest record normal)
    {applicable : List String} {routes : Option Value} {s : String} :
    Requested applicable routes normal s ↔ Requested applicable routes record s := by
  simp only [Requested, n.mem_scope, n.routeMatches]

theorem staleDependencies_eq_nil {current : Current} {record : Record} :
    staleDependencies current record = [] ↔
      ∀ d ∈ record.restsOn, current (d.owner, d.reference) = some d.revision := by
  rw [List.eq_nil_iff_forall_not_mem]
  simp only [staleDependencies, mem_sortReferences, List.mem_filter, decide_eq_true_eq, not_and,
    not_not]

/-- A scope one record is reported current for. -/
theorem mem_projectRecord {applicable : List String} {routes : Option Value} {current : Current}
    {replaced : Replaced} {resolved : Resolved} {record : Record} {id s : String} :
    (∃ state ∈ (projectRecord applicable routes current replaced resolved record).1,
      state.id = id ∧ s ∈ state.currentScope) ↔
    record.id = id ∧ Requested applicable routes record s ∧ replaced.has record.id s = false ∧
      staleDependencies current record = [] := by
  -- The row of an unresolved record has no current scope.
  have hunresolved : ∀ state ∈ (unresolvedState applicable routes record).toList,
      s ∉ state.currentScope := by
    intro state hstate
    unfold unresolvedState at hstate
    split at hstate
    · rw [Option.toList_some, List.mem_singleton] at hstate
      simp [hstate]
    · simp at hstate
  rw [← mem_selectedScope]
  by_cases hnil : selectedScope applicable routes record = []
  · simp only [projectRecord, hnil, if_true, List.not_mem_nil, false_and, and_false, iff_false]
    rintro ⟨state, hstate, -, hs⟩
    exact hunresolved state hstate hs
  · simp only [projectRecord, hnil, if_false, List.mem_append, or_and_right, exists_or,
      List.mem_singleton, exists_eq_left]
    constructor
    · rintro (⟨state, hstate, -, hs⟩ | ⟨hid, hs⟩)
      · exact absurd hs (hunresolved state hstate)
      · split at hs
        · rename_i hcurrent
          rw [List.mem_filter, decide_eq_true_eq] at hs
          exact ⟨hid, hs.1, hs.2, (currency_eq_current.mp hcurrent).2⟩
        · cases hs
    · rintro ⟨hid, hsel, hrep, hstale⟩
      have hrem : s ∈ (selectedScope applicable routes record).filter
          fun s => replaced.has record.id s = false := by
        rw [List.mem_filter, decide_eq_true_eq]
        exact ⟨hsel, hrep⟩
      refine Or.inr ⟨hid, ?_⟩
      rw [if_pos (currency_eq_current.mpr ⟨List.ne_nil_of_mem hrem, hstale⟩)]
      exact hrem

/-- The report presents record `id` as current for scope `s`. -/
def Reported (report : Option Projection) (id s : String) : Prop :=
  ∃ p ∈ report, ∃ state ∈ p.states, state.id = id ∧ s ∈ state.currentScope

theorem project_states {context : Context} {routes : Option Value} {report : Option Projection}
    (h : project digest context routes = .ok report) :
    ∃ admitted resolved, admitContext digest context = .ok admitted ∧
      ∀ id s, Reported report id s ↔ ∃ record ∈ valuesOf admitted.records,
        ∃ state ∈ (projectRecord admitted.applicableScope routes admitted.current
          admitted.replaced resolved record).1, state.id = id ∧ s ∈ state.currentScope := by
  simp only [project, Except.bind_eq_ok_iff] at h
  obtain ⟨admitted, hadmission, resolved, -, h⟩ := h
  refine ⟨admitted, resolved, hadmission, fun id s => ?_⟩
  split at h
  · rename_i hnone
    cases h
    simp only [Reported, Option.not_mem_none, false_and, exists_false, false_iff]
    rintro ⟨record, hr, state, hstate, -⟩
    have hmem := List.mem_flatMap.mpr
      ⟨_, List.mem_map.mpr ⟨record, hr, rfl⟩, hstate⟩
    rw [hnone.1] at hmem
    cases hmem
  · cases h
    simp only [Reported, Option.mem_def, Option.some.injEq, exists_eq_left', List.mem_flatMap,
      List.mem_map]
    constructor
    · rintro ⟨state, ⟨_, ⟨record, hr, rfl⟩, hstate⟩, hid, hs⟩
      exact ⟨record, hr, state, hstate, hid, hs⟩
    · rintro ⟨record, hr, state, hstate, hid, hs⟩
      exact ⟨state, ⟨_, ⟨record, hr, rfl⟩, hstate⟩, hid, hs⟩

theorem admit_fields {context : Context} {admitted : Admitted}
    (h : admitContext digest context = .ok admitted) :
    (∀ s, s ∈ admitted.applicableScope ↔ s ∈ context.applicableScope) ∧
      ∀ d : Reference, admitted.current (d.owner, d.reference) = some d.revision ↔
        d ∈ context.currentDependencies := by
  simp only [admitContext, Except.bind_eq_ok_iff, Except.pure_eq_ok_iff] at h
  obtain ⟨_, -, applicable, happ, records, -, _, -, current, hcurrent, replaced, -, _, -, _, -,
    rfl⟩ := h
  obtain rfl := scopes_eq_ok happ
  exact ⟨fun s => mem_sortDedup, admitDependencies_ok hcurrent⟩

/-- **What is reported as current**, in terms of the context as supplied. -/
theorem project_reported_iff {context : Context} {routes : Option Value}
    {report : Option Projection} (h : project digest context routes = .ok report) (id s : String) :
    Reported report id s ↔ ∃ record ∈ context.records, record.id = id ∧
      Requested context.applicableScope routes record s ∧
      (∀ later ∈ context.records, ¬ later.Replaces s record) ∧
      ∀ d ∈ record.restsOn, d ∈ context.currentDependencies := by
  obtain ⟨admitted, resolved, hadmission, hstates⟩ := project_states h
  obtain ⟨H, G, -⟩ := admit_ok hadmission
  obtain ⟨happ, hcurrent⟩ := admit_fields hadmission
  -- One record, before and after normalisation.
  have hone : ∀ record ∈ context.records, ∀ normal, normalized digest record = .ok normal →
      ((∃ state ∈ (projectRecord admitted.applicableScope routes admitted.current
          admitted.replaced resolved normal).1, state.id = id ∧ s ∈ state.currentScope) ↔
        record.id = id ∧ Requested context.applicableScope routes record s ∧
        (∀ later ∈ context.records, ¬ later.Replaces s record) ∧
        ∀ d ∈ record.restsOn, d ∈ context.currentDependencies) := by
    intro record hrecord normal hnorm
    have N := normalized_ok hnorm
    have hrep : admitted.replaced.has normal.id s = false ↔
        ∀ later ∈ context.records, ¬ later.Replaces s record := by
      rw [N.id, ← Bool.not_eq_true, H.replaced_iff G]
      push Not
      rfl
    rw [mem_projectRecord, staleDependencies_eq_nil, hrep, N.id, N.requested_iff]
    simp only [N.mem_restsOn, hcurrent, Requested, happ]
  rw [hstates]
  constructor
  · rintro ⟨normal, hn, hstate⟩
    obtain ⟨key, hkey⟩ := mem_valuesOf.mp hn
    obtain ⟨record, hrecord, -, hnorm⟩ := H.origin key normal hkey
    exact ⟨record, hrecord, (hone record hrecord normal hnorm).mp hstate⟩
  · rintro ⟨record, hrecord, hcond⟩
    obtain ⟨normal, hn, hnorm⟩ := H.holds record hrecord
    exact ⟨normal, mem_valuesOf.mpr ⟨_, hn⟩, (hone record hrecord normal hnorm).mpr hcond⟩

end AgenticCore.Continuity
