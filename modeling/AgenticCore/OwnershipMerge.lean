import AgenticCore.OwnershipMembers

/-!
# The ownership merge, place by place

A ledger is read by places: a step leads to a member of an object or to the row of a section with
a given identity.

* `child`, `valueAt`   : the value one step down, and at a place.
* `Located`            : the sections of a value hold rows told apart by their identity.
* `Merge`              : what composition puts under each step.
* `compose_ok`         : a composition that succeeds takes the package's value or merges.
* `compose_error`      : a composition fails where a host value conflicts with a package fact.
-/

set_option autoImplicit false

namespace AgenticCore

open Json

namespace NativeOwnership

/-! ## Places -/

inductive Step where
  | member (key : String)
  | row (identity : String)
  deriving DecidableEq, Repr

/-- A place in a ledger, from its root. -/
abbrev Place := List Step

def Step.isMember : Step → Bool
  | .member _ => true
  | .row _ => false

def Step.path (path : String) : Step → String
  | .member key => memberPath path key
  | .row identity => rowPath path (.string identity)

/-- The value one step below the value at `path`. -/
def child (path : String) (v : Value) : Step → Option Value
  | .member key => v.get? key
  | .row identity => (rowIdentity path).bind fun key =>
      rowOf key (v.asArray.getD []) (.string identity)

def pathAt (path : String) : Place → String
  | [] => path
  | step :: place => pathAt (step.path path) place

/-- The value at a place below the value at `path`. -/
def valueAt (path : String) (v : Value) : Place → Option Value
  | [] => some v
  | step :: place => (child path v step).bind fun w => valueAt (step.path path) w place

theorem valueAt_cons_eq_some {path : String} {v w : Value} {step : Step} {place : Place} :
    valueAt path v (step :: place) = some w ↔
      ∃ u, child path v step = some u ∧ valueAt (step.path path) u place = some w := by
  rw [valueAt, Option.bind_eq_some_iff]

theorem valueAt_cons {path : String} {v u : Value} {step : Step} (h : child path v step = some u)
    (place : Place) : valueAt path v (step :: place) = valueAt (step.path path) u place := by
  rw [valueAt, h, Option.bind_some]

theorem child_null (path : String) (step : Step) : child path .null step = none := by
  cases step with
  | member key => rfl
  | row identity =>
    rw [child]
    cases rowIdentity path <;> rfl

/-- An absent child can be taken as null, since nothing is below null. -/
theorem valueAt_getD (path : String) (v : Value) (step next : Step) (place : Place) :
    valueAt (step.path path) ((child path v step).getD .null) (next :: place) =
      valueAt path v (step :: next :: place) := by
  cases hchild : child path v step with
  | some u => rw [valueAt_cons hchild, Option.getD_some]
  | none => rw [Option.getD_none, valueAt, child_null, valueAt, hchild, Option.bind_none,
      Option.bind_none]

/-- At an absent child, taken as null, there is nothing but null. -/
theorem valueAt_getD_some {path : String} {v w : Value} {step : Step} {place : Place}
    (h : valueAt (step.path path) ((child path v step).getD .null) place = some w)
    (hw : w ≠ .null) : valueAt path v (step :: place) = some w := by
  cases place with
  | cons next place => rw [← valueAt_getD, h]
  | nil =>
    cases hchild : child path v step with
    | some u =>
      rw [hchild, Option.getD_some] at h
      rw [valueAt_cons hchild, h]
    | none =>
      rw [hchild, Option.getD_none] at h
      exact absurd (Option.some.inj h).symm hw

/-- The sections at and below a path hold rows told apart by their identity. -/
def Located (path : String) (v : Value) : Prop :=
  ∀ place w key, valueAt path v place = some w → rowIdentity (pathAt path place) = some key →
    ∃ rows, w = .array rows ∧ Keyed key rows

theorem Located.here {path key : String} {v : Value} (h : Located path v)
    (hkey : rowIdentity path = some key) : ∃ rows, v = .array rows ∧ Keyed key rows :=
  h [] v key rfl hkey

theorem Located.child {path : String} {v w : Value} {step : Step} (h : Located path v)
    (hw : child path v step = some w) : Located (step.path path) w :=
  fun place u key hu hkey =>
    h (step :: place) u key (by rw [valueAt_cons hw, hu]) hkey

theorem plain_child {path : String} {v w : Value} {step : Step} (h : v.plain = true)
    (hw : child path v step = some w) : w.plain = true := by
  cases step with
  | member key => exact plain_get? h hw
  | row identity =>
    obtain ⟨key, -, hrow⟩ := Option.bind_eq_some_iff.mp hw
    cases v with
    | array rows => exact plain_array.mp h w (rowOf_mem hrow).1
    | null | bool | number | string | object => exact absurd (rowOf_mem hrow).1 (List.not_mem_nil)

/-- What a host or a prior baseline holds at a path: nothing, or a located value. -/
def Held (path : String) (v : Value) : Prop := v = .null ∨ v.plain = true ∧ Located path v

theorem Held.plain {path : String} {v : Value} (h : Held path v) : PlainOrNull v :=
  h.imp_right And.left

theorem Held.child {path : String} {v : Value} (h : Held path v) (step : Step) :
    Held (step.path path) ((child path v step).getD .null) := by
  cases hchild : NativeOwnership.child path v step with
  | none => exact Or.inl rfl
  | some w =>
    rcases h with rfl | ⟨hplain, hlocated⟩
    · rw [child_null] at hchild
      cases hchild
    · exact Or.inr ⟨plain_child hplain hchild, hlocated.child hchild⟩

/-- At a section a prior value is nothing or rows. -/
theorem Held.rows {path key : String} {v : Value} (h : Held path v)
    (hkey : rowIdentity path = some key) :
    Keyed key (v.asArray.getD []) ∧ ∀ members, v ≠ .object members := by
  rcases h with rfl | ⟨-, hlocated⟩
  · exact ⟨⟨fun row hrow => absurd hrow List.not_mem_nil, List.nodup_nil⟩,
      fun members h => nomatch h⟩
  · obtain ⟨rows, rfl, hkeyed⟩ := hlocated.here hkey
    exact ⟨hkeyed, fun members h => nomatch h⟩

/-- Every row of a section is found under a step. -/
theorem Keyed.child {path key : String} {rows : List Value} {row : Value} (h : Keyed key rows)
    (hkey : rowIdentity path = some key) (hrow : row ∈ rows) :
    ∃ identity, NativeOwnership.child path (.array rows) (.row identity) = some row := by
  obtain ⟨members, identity, rfl, hlookup⟩ := h.1 row hrow
  refine ⟨identity, ?_⟩
  rw [NativeOwnership.child, hkey, Option.bind_some]
  refine (rowOf_eq_some h.2).mpr ⟨hrow, ?_⟩
  simp [Value.field, Value.get?, hlookup]

/-! ## Retirement -/

/-- What is left under a step that the package does not state. -/
def dropped (path : String) (host prior : Value) : Step → Option Value
  | .member key => retired path key (host.get? key) (prior.get? key)
  | .row identity =>
    if child path host (.row identity) = child path prior (.row identity) then none
    else child path host (.row identity)

/-- A value that holds nothing but prior facts: everything in it is what the prior value has. -/
inductive Subsumed : String → Value → Value → Prop where
  | same (path : String) (v : Value) : Subsumed path v v
  | members {path : String} {members old : List (String × Value)}
      (known : ∀ key v, members.lookup key = some v → (old.lookup key).isSome)
      (each : ∀ key v w, members.lookup key = some v → old.lookup key = some w →
        Subsumed (memberPath path key) v w) :
      Subsumed path (.object members) (.object old)
  | rows {path key : String} {rows : List Value} {prior : Value}
      (hkey : rowIdentity path = some key) (each : ∀ row ∈ rows, row ∈ prior.asArray.getD []) :
      Subsumed path (.array rows) prior

theorem filter_prior {key : String} {rows old : List Value} :
    (rows.filter fun row => !old.any fun o => o.field key = row.field key ∧ o = row) =
      rows.filter fun row => row ∉ old := by
  apply List.filter_congr
  intro row _
  rw [Bool.eq_iff_iff]
  simp only [Bool.not_eq_true', decide_eq_true_eq, List.any_eq_false, decide_eq_true_eq, not_and]
  constructor
  · intro h hmem
    exact h row hmem rfl rfl
  · rintro h o ho - rfl
    exact h ho

theorem retireValue_rows {path key : String} {rows : List Value} {prior : Value}
    (hne : Value.array rows ≠ prior) (hkey : rowIdentity path = some key) :
    retireValue (.array rows) prior path =
      match rows.filter fun row => row ∉ prior.asArray.getD [] with
      | [] => none
      | kept => some (.array kept) := by
  unfold retireValue
  rw [if_neg hne]
  simp only [hkey, filter_prior]
  all_goals rfl

theorem retireValue_members {path : String} {members old : List (String × Value)}
    (hne : members ≠ old) :
    retireValue (.object members) (.object old) path =
      match retireMembers members old path with
      | [] => none
      | kept => some (.object kept) := by
  unfold retireValue
  exact (if_neg fun h => hne (Value.object.inj h)).trans rfl

/-- What is retired in neither way stays as it is. -/
theorem retireValue_other {path : String} {host prior : Value} (hne : host ≠ prior)
    (hobjects : ∀ members old, host = .object members → prior ≠ .object old)
    (hrows : ∀ rows key, host = .array rows → rowIdentity path ≠ some key) :
    retireValue host prior path = some host := by
  unfold retireValue
  rw [if_neg hne]
  cases host with
  | object members =>
    cases prior with
    | object old => exact absurd rfl (hobjects members old rfl)
    | null | bool | number | string | array => rfl
  | array rows =>
    cases hkey : rowIdentity path with
    | none => rfl
    | some key => exact absurd hkey (hrows rows key rfl)
  | null | bool | number | string => rfl

theorem retireValue_same (v : Value) (path : String) : retireValue v v path = none := by
  unfold retireValue
  rw [if_pos rfl]

theorem eq_nil_of_lookup {members : List (String × Value)}
    (h : ∀ key, members.lookup key = none) : members = [] := by
  cases members with
  | nil => rfl
  | cons member rest =>
    have hfirst := h member.1
    rw [List.lookup_cons, beq_self_eq_true] at hfirst
    cases hfirst

/-- An object goes when each of its members goes. -/
theorem retireValue_members_none {path : String} {members old : List (String × Value)}
    (hnodup : (members.map Prod.fst).Nodup) (hne : members ≠ old) :
    retireValue (.object members) (.object old) path = none ↔
      ∀ key v, members.lookup key = some v →
        ∃ w, old.lookup key = some w ∧ retireValue v w (memberPath path key) = none := by
  have hlookup := retireMembers_lookup old path hnodup
  rw [retireValue_members hne]
  constructor
  · intro h key v hv
    have hempty : retireMembers members old path = [] := by
      split at h
      · assumption
      · cases h
    have hkey := hlookup key
    rw [hempty, hv] at hkey
    cases hold : old.lookup key with
    | none =>
      rw [hold] at hkey
      cases hkey
    | some w =>
      rw [hold] at hkey
      exact ⟨w, rfl, hkey.symm⟩
  · intro h
    have hempty : retireMembers members old path = [] := by
      apply eq_nil_of_lookup
      intro key
      rw [hlookup]
      cases hv : members.lookup key with
      | none => rfl
      | some v =>
        obtain ⟨w, hw, hretire⟩ := h key v hv
        rw [hw]
        exact hretire
    rw [hempty]

/-- **A host value is removed exactly when it holds nothing but prior facts.** -/
theorem retireValue_none {host prior : Value} {path : String} (hplain : host.plain = true) :
    retireValue host prior path = none ↔ Subsumed path host prior := by
  induction host using Value.memberInduction generalizing prior path with
  | step host ih =>
    by_cases hne : host = prior
    · rw [hne, retireValue_same]
      exact ⟨fun _ => Subsumed.same path prior, fun _ => rfl⟩
    constructor
    · intro h
      by_cases hobjects : ∃ members old, host = .object members ∧ prior = .object old
      · obtain ⟨members, old, rfl, rfl⟩ := hobjects
        have hnodup := (plain_object.mp hplain).1.imp fun {_ _} hlt => ne_of_lt hlt
        have hnone := (retireValue_members_none hnodup fun h => hne (h ▸ rfl)).mp h
        refine Subsumed.members ?_ ?_
        · intro key v hv
          obtain ⟨w, hw, -⟩ := hnone key v hv
          rw [hw, Option.isSome_some]
        · intro key v w hv hw
          obtain ⟨w', hw', hretire⟩ := hnone key v hv
          rw [hw] at hw'
          cases hw'
          exact (ih key v hv (plain_get? hplain hv)).mp hretire
      by_cases hrows : ∃ rows key, host = .array rows ∧ rowIdentity path = some key
      · obtain ⟨rows, key, rfl, hkey⟩ := hrows
        rw [retireValue_rows hne hkey] at h
        have hempty : (rows.filter fun row => row ∉ prior.asArray.getD []) = [] := by
          split at h
          · assumption
          · cases h
        refine Subsumed.rows hkey fun row hrow => ?_
        have hkept := List.filter_eq_nil_iff.mp hempty row hrow
        rwa [decide_eq_true_eq, not_not] at hkept
      · rw [retireValue_other hne (fun members old hh hp => hobjects ⟨members, old, hh, hp⟩)
          (fun rows key hh hkey => hrows ⟨rows, key, hh, hkey⟩)] at h
        cases h
    · intro h
      cases h with
      | same => exact absurd rfl hne
      | @members _ members old known each =>
        have hnodup := (plain_object.mp hplain).1.imp fun {_ _} hlt => ne_of_lt hlt
        rw [retireValue_members_none hnodup fun h => hne (h ▸ rfl)]
        intro key v hv
        obtain ⟨w, hw⟩ := Option.isSome_iff_exists.mp (known key v hv)
        exact ⟨w, hw, (ih key v hv (plain_get? hplain hv)).mpr (each key v w hv hw)⟩
      | @rows _ key rows _ hkey each =>
        rw [retireValue_rows hne hkey]
        have hempty : (rows.filter fun row => row ∉ prior.asArray.getD []) = [] := by
          rw [List.filter_eq_nil_iff]
          intro row hrow
          rw [decide_eq_true_eq, not_not]
          exact each row hrow
        rw [hempty]

theorem child_row_of_not_array {path : String} {v : Value} (h : ∀ rows, v ≠ .array rows)
    (identity : String) : child path v (.row identity) = none := by
  cases hkey : rowIdentity path with
  | none => rw [child, hkey, Option.bind_none]
  | some key =>
    rw [child, hkey, Option.bind_some]
    cases v with
    | array rows => exact absurd rfl (h rows)
    | null | bool | number | string | object => rfl

theorem child_row_object (path : String) (members : List (String × Value)) (identity : String) :
    child path (.object members) (.row identity) = none := by
  apply child_row_of_not_array
  intro rows h
  cases h

theorem child_row {path key : String} (h : rowIdentity path = some key) (rows : List Value)
    (identity : String) :
    child path (.array rows) (.row identity) = rowOf key rows (.string identity) := by
  rw [child, h, Option.bind_some]
  rfl

theorem child_row_prior {path key : String} (h : rowIdentity path = some key) (v : Value)
    (identity : String) :
    child path v (.row identity) = rowOf key (v.asArray.getD []) (.string identity) := by
  rw [child, h, Option.bind_some]

theorem child_row_of_no_identity {path : String} (h : rowIdentity path = none) (v : Value)
    (identity : String) : child path v (.row identity) = none := by
  rw [child, h, Option.bind_none]

/-- **Retirement leaves, under each step, what the prior baseline does not have there.** -/
theorem retire_children {host prior kept : Value} {path : String} (hhost : host.plain = true)
    (hlocated : Located path host) (hprior : Held path prior)
    (h : retireValue host prior path = some kept) (step : Step) :
    child path kept step = dropped path host prior step := by
  have hne : host ≠ prior := by
    rintro rfl
    rw [retireValue_same] at h
    cases h
  by_cases hobjects : ∃ members old, host = .object members ∧ prior = .object old
  · obtain ⟨members, old, rfl, rfl⟩ := hobjects
    have hnodup := (plain_object.mp hhost).1.imp fun {_ _} hlt => ne_of_lt hlt
    rw [retireValue_members fun heq => hne (congrArg Value.object heq)] at h
    have hkept : kept = .object (retireMembers members old path) := by
      split at h
      · cases h
      · exact (Option.some.inj h).symm
    subst hkept
    cases step with
    | member key => exact retireMembers_lookup _ _ hnodup key
    | row identity =>
      rw [dropped, child_row_object, child_row_object, child_row_object, if_pos rfl]
  by_cases hrows : ∃ rows key, host = .array rows ∧ rowIdentity path = some key
  · obtain ⟨rows, key, rfl, hkey⟩ := hrows
    rw [retireValue_rows hne hkey] at h
    have hkept : kept = .array (rows.filter fun row => row ∉ prior.asArray.getD []) := by
      split at h
      · cases h
      · exact (Option.some.inj h).symm
    subst hkept
    cases step with
    | member name => rfl
    | row identity =>
      obtain ⟨rows', heq, hkeyed⟩ := hlocated.here hkey
      cases heq
      rw [dropped, child_row hkey, child_row hkey, child_row_prior hkey prior]
      refine rowOf_diff hkeyed.2 (hprior.rows hkey).1.2 List.filter_sublist ?_
      intro row _
      rw [List.mem_filter, decide_eq_true_eq]
  · rw [retireValue_other hne (fun members old hh hp => hobjects ⟨members, old, hh, hp⟩)
      (fun rows key hh hkey => hrows ⟨rows, key, hh, hkey⟩)] at h
    cases h
    cases step with
    | member key =>
      rw [child, dropped]
      cases host with
      | object members =>
        have hprior : prior.get? key = none :=
          Value.get?_of_not_object (fun old hold => hobjects ⟨members, old, rfl, hold⟩) key
        rw [hprior]
        cases (Value.object members).get? key <;> rfl
      | null | bool | number | string | array => rfl
    | row identity =>
      have hnone : child path host (.row identity) = none := by
        cases hkey : rowIdentity path with
        | none => exact child_row_of_no_identity hkey host identity
        | some key => exact child_row_of_not_array (fun rows hh => hrows ⟨rows, key, hh, hkey⟩) _
      rw [dropped, hnone, ite_self]

/-! ## Composition -/

/-- The result of a merge: what the package states is composed with the host's own value, and what
    it does not state is the host's, less what it has dropped. -/
structure Merge (path : String) (host package prior result : Value) : Prop where
  merges : Merges path host package
  kind : Merges path host result
  stated : ∀ step p, child path package step = some p →
    ∃ r, child path result step = some r ∧
      composeValue ((child path host step).getD .null) p ((child path prior step).getD .null)
        (step.path path) = .ok r
  unstated : ∀ step, child path package step = none →
    child path result step = dropped path host prior step

theorem field_getD (v : Value) (path key : String) :
    (child path v (.member key)).getD .null = v.field key := rfl

theorem priorRow_getD {path key : String} (hkey : rowIdentity path = some key) (v : Value)
    (identity : String) :
    (child path v (.row identity)).getD .null = priorRow key v (.string identity) := by
  rw [child, hkey, Option.bind_some, priorRow]
  cases v <;> rfl

theorem merge_objects {path : String} {members facts : List (String × Value)}
    {prior result : Value} (hne : members ≠ facts) (hfacts : (Value.object facts).plain = true)
    (hprior : Held path prior)
    (h : composeValue (.object members) (.object facts) prior path = .ok result) :
    Merge path (.object members) (.object facts) prior result := by
  have hnodup := (plain_object.mp hfacts).1.imp fun {_ _} hlt => ne_of_lt hlt
  obtain ⟨composed, rfl, hlookup⟩ := composeObject_ok hne hnodup hprior.plain h
  refine ⟨Or.inl ⟨rfl, rfl⟩, Or.inl ⟨rfl, rfl⟩, fun step p hp => ?_, fun step hnone => ?_⟩
  · cases step with
    | member key => exact (hlookup key).2 p hp
    | row identity =>
      rw [child_row_object] at hp
      cases hp
  · cases step with
    | member key => exact (hlookup key).1 hnone
    | row identity =>
      rw [dropped, child_row_object, child_row_object, ite_self]

theorem merge_rows {path key : String} {own facts : List Value} {prior result : Value}
    (hkey : rowIdentity path = some key) (hne : own ≠ facts) (hown : Keyed key own)
    (hfacts : Keyed key facts) (hplain : (Value.array facts).plain = true)
    (hprior : Held path prior)
    (h : composeValue (.array own) (.array facts) prior path = .ok result) :
    Merge path (.array own) (.array facts) prior result ∧
      ∃ rows, result = .array rows ∧ Keyed key rows := by
  rw [composeValue_rows prior hkey hne] at h
  obtain ⟨rows, hrows, hresult⟩ := Except.bind_eq_ok_iff.mp h
  cases hresult
  have hkept := hown.sublist (removeDropped_sublist key facts (prior.asArray.getD []) own)
  obtain ⟨hkeyed, hlookup⟩ := composeRows_rowOf hfacts (plain_array.mp hplain) hprior.plain hkept
    hrows
  have hsome : (rowIdentity path).isSome = true := by rw [hkey]; rfl
  refine ⟨⟨Or.inr ⟨hsome, rfl, rfl⟩, Or.inr ⟨hsome, rfl, rfl⟩, fun step p hp => ?_,
    fun step hnone => ?_⟩, rows, rfl, hkeyed⟩
  · cases step with
    | member name => cases hp
    | row identity =>
      rw [priorRow_getD hkey prior, child_row hkey, child_row hkey]
      rw [child_row hkey] at hp
      obtain ⟨r, hr, hcomposed⟩ := (hlookup (.string identity)).2 p hp
      rw [removeDropped_stated hown.2 hp] at hcomposed
      exact ⟨r, hr, hcomposed⟩
  · cases step with
    | member name => rfl
    | row identity =>
      rw [child_row hkey] at hnone
      rw [dropped, child_row hkey, child_row hkey, child_row_prior hkey prior]
      rw [← removeDropped_unstated hown.2 (hprior.rows hkey).1.2 hnone]
      exact (hlookup (.string identity)).1 hnone

section
variable {path : String} {host package prior : Value}

/-- Two located values that merge are two objects or two sections. -/
theorem merges_cases (hhost : Held path host) (hplain : package.plain = true)
    (hpackage : Located path package) (h : Merges path host package) :
    (∃ members facts, host = .object members ∧ package = .object facts) ∨
      ∃ key own facts, rowIdentity path = some key ∧ host = .array own ∧
        package = .array facts ∧ Keyed key own ∧ Keyed key facts := by
  rcases h with ⟨hobject, hobject'⟩ | ⟨hsome, harray, -⟩
  · left
    cases host with
    | object members =>
      cases package with
      | object facts => exact ⟨members, facts, rfl, rfl⟩
      | null | bool | number | string | array => cases hobject'
    | null | bool | number | string | array => cases hobject
  · right
    obtain ⟨key, hkey⟩ := Option.isSome_iff_exists.mp hsome
    obtain ⟨facts, rfl, hfacts⟩ := hpackage.here hkey
    rcases hhost with rfl | ⟨-, hlocated⟩
    · cases harray
    · obtain ⟨own, rfl, hown⟩ := hlocated.here hkey
      exact ⟨key, own, facts, hkey, rfl, rfl, hown, hfacts⟩

/-- **A composition that succeeds takes the package's value, where the host has none of its own or
    the prior baseline's, or merges.** -/
theorem compose_ok {result : Value} (hhost : Held path host) (hplain : package.plain = true)
    (hpackage : Located path package) (hprior : Held path prior)
    (h : composeValue host package prior path = .ok result) :
    (result = package ∧ (host = .null ∨ host = package ∨ host = prior)) ∨
      (host ≠ package ∧ Merge path host package prior result) := by
  by_cases hnull : host = .null
  · subst hnull
    rw [composeValue_null] at h
    cases h
    exact Or.inl ⟨rfl, Or.inl rfl⟩
  by_cases hne : host = package
  · subst hne
    rw [composeValue_self] at h
    cases h
    exact Or.inl ⟨rfl, Or.inr (Or.inl rfl)⟩
  by_cases hmerges : Merges path host package
  · refine Or.inr ⟨hne, ?_⟩
    rcases merges_cases hhost hplain hpackage hmerges with ⟨members, facts, rfl, rfl⟩ |
      ⟨key, own, facts, hkey, rfl, rfl, hown, hfacts⟩
    · exact merge_objects (fun heq => hne (congrArg Value.object heq)) hplain hprior h
    · exact (merge_rows hkey (fun heq => hne (congrArg Value.array heq)) hown hfacts hplain hprior
        h).1
  · rw [composeValue_whole prior hnull hne hmerges, composeWhole] at h
    left
    split at h
    · cases h
    · split at h
      · rename_i hsame
        cases h
        exact ⟨rfl, Or.inr (Or.inr hsame.2)⟩
      · cases h

/-- A host value stands against a package fact. -/
def Conflicts (path : String) (host package prior : Value) : Prop :=
  host ≠ .null ∧ host ≠ package ∧ ¬Merges path host package ∧ host ≠ prior

/-- A conflict fails. -/
theorem compose_conflict (h : Conflicts path host package prior) :
    ∃ e, composeValue host package prior path = .error e := by
  obtain ⟨hnull, hne, hmerges, hprior⟩ := h
  rw [composeValue_whole prior hnull hne hmerges, composeWhole]
  split
  · exact ⟨_, rfl⟩
  · rw [if_neg fun h => hprior h.2]
    exact ⟨_, rfl⟩

/-- **A composition that fails meets a conflict here, or fails one step down, where both the host
    and the package have a value.** -/
theorem compose_error {e : CoreError} (hhost : Held path host) (hplain : package.plain = true)
    (hpackage : Located path package) (hprior : Held path prior)
    (h : composeValue host package prior path = .error e) :
    Conflicts path host package prior ∨
      ∃ step own p, child path host step = some own ∧ child path package step = some p ∧
        composeValue own p ((child path prior step).getD .null) (step.path path) = .error e := by
  have hnull : host ≠ .null := by
    rintro rfl
    rw [composeValue_null] at h
    cases h
  have hne : host ≠ package := by
    rintro rfl
    rw [composeValue_self] at h
    cases h
  by_cases hmerges : Merges path host package
  · right
    rcases merges_cases hhost hplain hpackage hmerges with ⟨members, facts, rfl, rfl⟩ |
      ⟨key, own, facts, hkey, rfl, rfl, hown, hfacts⟩
    · have hnodup := (plain_object.mp hplain).1.imp fun {_ _} hlt => ne_of_lt hlt
      obtain ⟨key, value, hvalue, herror⟩ := composeObject_error
        (fun heq => hne (congrArg Value.object heq)) hnodup hprior.plain h
      cases hmember : members.lookup key with
      | none =>
        rw [hmember, Option.getD_none, composeValue_null] at herror
        cases herror
      | some own =>
        rw [hmember, Option.getD_some] at herror
        exact ⟨.member key, own, value, hmember, hvalue, herror⟩
    · rw [composeValue_rows prior hkey fun heq => hne (congrArg Value.array heq)] at h
      rcases Except.bind_eq_error_iff.mp h with hfailed | ⟨rows, -, hresult⟩
      case inr => cases hresult
      have hkept := hown.sublist (removeDropped_sublist key facts (prior.asArray.getD []) own)
      obtain ⟨identity, fact, row, hfact, hrow, herror⟩ :=
        composeRows_error hfacts (plain_array.mp hplain) hprior.plain hkept.1 hfailed
      rw [removeDropped_stated hown.2 hfact] at hrow
      obtain ⟨hmem, hfield⟩ := rowOf_mem hfact
      obtain ⟨members, name, rfl, hname⟩ := hfacts.1 fact hmem
      have hidentity : identity = .string name := by
        rw [← hfield]
        simp [Value.field, Value.get?, hname]
      subst hidentity
      refine ⟨.row name, row, .object members, ?_, ?_, ?_⟩
      · rw [child, hkey, Option.bind_some]
        exact hrow
      · rw [child, hkey, Option.bind_some]
        exact hfact
      · rw [priorRow_getD hkey]
        exact herror
  · left
    refine ⟨hnull, hne, hmerges, ?_⟩
    rintro rfl
    rw [composeValue_whole host hnull hne hmerges, composeWhole] at h
    split at h
    · rename_i key hkey
      obtain ⟨facts, rfl, -⟩ := hpackage.here hkey
      rcases hhost with rfl | ⟨-, hlocated⟩
      · exact hnull rfl
      · obtain ⟨own, rfl, -⟩ := hlocated.here hkey
        exact hmerges (Or.inr ⟨by rw [hkey]; rfl, rfl, rfl⟩)
    · rw [if_pos ⟨hnull, rfl⟩] at h
      cases h

end

end NativeOwnership

end AgenticCore
