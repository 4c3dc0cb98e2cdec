import AgenticCore.OwnershipConservation

/-!
# Ownership ledgers are composed conservatively

* `compose_plain`, `compose_valid`   : what is composed is a table again, and valid.
* `ledger_located`, `admit_result`   : ledgers hold rows told apart by identity, and what is
                                       composed of two ledgers is a ledger.
* `Conservative`                     : the three-way merge that the composition is for.
* `conservative_iff`                 : **composition is conservative exactly where a host value
                                       conflicts or none is vacated.**
-/

set_option autoImplicit false

namespace AgenticCore

open Json

namespace NativeOwnership

/-! ## Tables -/

/-- A value whose members are in order is a table when everything one step down is. -/
theorem plain_of_members {path : String} {members : List (String × Value)}
    (hordered : (members.map Prod.fst).Pairwise (· < ·))
    (h : ∀ step w, child path (.object members) step = some w → w.plain = true) :
    (Value.object members).plain = true := by
  refine plain_object.mpr ⟨hordered, fun key w hmem => ?_⟩
  have hnodup : (members.map Prod.fst).Nodup := hordered.imp fun {_ _} hlt => ne_of_lt hlt
  exact h (.member key) w ((mem_lookup_iff hnodup).mpr hmem)

theorem plain_of_rows {path key : String} {rows : List Value} (hkey : rowIdentity path = some key)
    (hrows : Keyed key rows)
    (h : ∀ step w, child path (.array rows) step = some w → w.plain = true) :
    (Value.array rows).plain = true := by
  rw [plain_array]
  intro row hrow
  obtain ⟨identity, hchild⟩ := hrows.child hkey hrow
  exact h (.row identity) row hchild

/-- What is left by retirement is a table. -/
theorem retire_plain {path : String} {host prior kept : Value} (hplain : host.plain = true)
    (hlocated : Located path host) (hprior : Held path prior)
    (h : retireValue host prior path = some kept) : kept.plain = true := by
  have hchildren := retire_children hplain hlocated hprior h
  have hplainChild : ∀ step w, child path kept step = some w → w.plain = true := by
    intro step w hw
    rw [hchildren step] at hw
    obtain ⟨v, hv, rfl | ⟨q, hq, hkept⟩⟩ := dropped_eq_some hw
    · exact plain_child hplain hv
    · exact retire_plain (plain_child hplain hv) (hlocated.child hv) (Or.inr (hprior.some hq))
        hkept
  rcases retire_shape hplain hlocated h with rfl | ⟨-, members, -, rfl, hordered⟩ |
    ⟨key, rows, -, hkey, -, rfl, hrows⟩
  · exact hplain
  · exact plain_of_members hordered hplainChild
  · exact plain_of_rows hkey hrows hplainChild
termination_by sizeOf host
decreasing_by exact child_sizeOf_lt hv

/-- What is composed of tables is a table. -/
theorem compose_plain {path : String} {host package prior result : Value} (hhost : Held path host)
    (hplain : package.plain = true) (hpackage : Located path package) (hprior : Held path prior)
    (h : composeValue host package prior path = .ok result) : result.plain = true := by
  rcases compose_ok hhost hplain hpackage hprior h with ⟨rfl, -⟩ | ⟨hne, hmerge⟩
  · exact hplain
  have hchild : ∀ step w, child path result step = some w → w.plain = true := by
    intro step w hw
    cases hp : child path package step with
    | some p =>
      obtain ⟨r, hr, hcompose⟩ := hmerge.stated step p hp
      rw [hw] at hr
      cases hr
      exact compose_plain (hhost.child step) (plain_child hplain hp) (hpackage.child hp)
        (hprior.child step) hcompose
    | none =>
      rw [hmerge.unstated step hp] at hw
      obtain ⟨v, hv, rfl | ⟨q, hq, hkept⟩⟩ := dropped_eq_some hw
      · exact (hhost.some hv).1
      · exact retire_plain (hhost.some hv).1 (hhost.some hv).2 (Or.inr (hprior.some hq)) hkept
  rcases merge_shape hhost hplain hpackage hprior hne hmerge.merges h with
    ⟨members, facts, composed, rfl, rfl, rfl, hordered⟩ |
    ⟨key, own, facts, rows, hkey, rfl, rfl, rfl, -, hrows⟩
  · exact plain_of_members hordered hchild
  · exact plain_of_rows hkey hrows hchild
termination_by sizeOf package
decreasing_by exact child_sizeOf_lt hp

/-! ## Valid values -/

/-- What is valid under a loose schema is still valid when facts are retired from it. -/
theorem retire_valid {path : String} {host prior kept : Value} {schema : Schema}
    (hplain : host.plain = true) (hlocated : Located path host) (hprior : Held path prior)
    (hloose : loose schema = true) (hvalid : validates schema host = true)
    (h : retireValue host prior path = some kept) : validates schema kept = true := by
  have hchildren := retire_children hplain hlocated hprior h
  have hrec : ∀ step v q r own, child path host step = some v → child path prior step = some q →
      loose own = true → validates own v = true → retireValue v q (step.path path) = some r →
        validates own r = true := fun step v q r own hv hq hownLoose hown hkept =>
    retire_valid (plain_child hplain hv) (hlocated.child hv) (Or.inr (hprior.some hq)) hownLoose
      hown hkept
  rcases retire_shape hplain hlocated h with rfl | ⟨members, old, rfl, rfl, hordered⟩ |
    ⟨key, rows, own, hkey, rfl, rfl, hrows⟩
  · exact hvalid
  · cases schema with
    | any => rfl
    | integer | string | array => cases hvalid
    | object required properties additional =>
      obtain ⟨hrequired, hmembersLoose⟩ := loose_object hloose
      obtain ⟨members', heq, -, hmembers⟩ := validates_object.mp hvalid
      cases heq
      refine validates_object.mpr ⟨old, rfl, ?_, fun key w hmem => ?_⟩
      · rw [hrequired]
        intro key hkey
        cases hkey
      have hnodup : (old.map Prod.fst).Nodup := hordered.imp fun {_ _} hlt => ne_of_lt hlt
      have hw : child path (.object old) (.member key) = some w :=
        (mem_lookup_iff hnodup).mpr hmem
      rw [hchildren] at hw
      obtain ⟨v, hv, hsame⟩ := dropped_eq_some hw
      obtain ⟨own, hown, hownValid⟩ := hmembers key v (mem_of_lookup hv)
      refine ⟨own, hown, ?_⟩
      rcases hsame with rfl | ⟨q, hq, hkept⟩
      · exact hownValid
      · exact hrec _ v q w own hv hq (hmembersLoose key own hown) hownValid hkept
  · cases schema with
    | any => rfl
    | integer | string | object => cases hvalid
    | array items minItems =>
      obtain ⟨values, heq, -, hitems⟩ := validates_array.mp hvalid
      cases heq
      refine validates_array.mpr ⟨rows, rfl, ?_, fun row hrow => ?_⟩
      · rw [of_decide_eq_true hloose]
        exact Nat.zero_le _
      obtain ⟨identity, hchild⟩ := hrows.child hkey hrow
      rw [hchildren, dropped] at hchild
      split at hchild
      · cases hchild
      · rw [child_row hkey] at hchild
        exact hitems row (rowOf_mem hchild).1
termination_by sizeOf host
decreasing_by exact child_sizeOf_lt hv

theorem compose_valid {path : String} {host package prior result : Value} {schema : Schema}
    (hhost : Held path host) (hplain : package.plain = true) (hpackage : Located path package)
    (hprior : Held path prior) (hkeeps : keeps schema package = true)
    (hvalidHost : host = .null ∨ validates schema host = true)
    (hvalid : validates schema package = true)
    (h : composeValue host package prior path = .ok result) : validates schema result = true := by
  rcases compose_ok hhost hplain hpackage hprior h with ⟨rfl, -⟩ | ⟨hne, hmerge⟩
  · exact hvalid
  have hrec : ∀ step p r own, child path package step = some p →
      composeValue ((child path host step).getD .null) p ((child path prior step).getD .null)
        (step.path path) = .ok r →
      keeps own p = true → (∀ v, child path host step = some v → validates own v = true) →
      validates own p = true → validates own r = true := by
    intro step p r own hp hcompose hownKeeps hhostValid hpValid
    refine compose_valid (hhost.child step) (plain_child hplain hp) (hpackage.child hp)
      (hprior.child step) hownKeeps ?_ hpValid hcompose
    cases hv : child path host step with
    | none => exact Or.inl rfl
    | some v => exact Or.inr (hhostValid v hv)
  rcases merge_shape hhost hplain hpackage hprior hne hmerge.merges h with
    ⟨members, facts, composed, rfl, rfl, rfl, hordered⟩ |
    ⟨key, own, facts, rows, hkey, rfl, rfl, rfl, hfacts, hrows⟩
  · replace hvalidHost := hvalidHost.resolve_left fun h => nomatch h
    cases schema with
    | any => rfl
    | integer | string | array => cases hvalid
    | object required properties additional =>
      obtain ⟨hunstated, hstated⟩ := keeps_object hkeeps
      obtain ⟨facts', heq, hrequired, hfactsValid⟩ := validates_object.mp hvalid
      cases heq
      obtain ⟨members', heq, -, hmembersValid⟩ := validates_object.mp hvalidHost
      cases heq
      refine validates_object.mpr ⟨composed, rfl, fun key hkey => ?_, fun key w hmem => ?_⟩
      · obtain ⟨p, hp⟩ := Option.isSome_iff_exists.mp (hrequired key hkey)
        obtain ⟨r, hr, -⟩ := hmerge.stated (.member key) p hp
        have hr : composed.lookup key = some r := hr
        rw [hr, Option.isSome_some]
      have hnodup : (composed.map Prod.fst).Nodup := hordered.imp fun {_ _} hlt => ne_of_lt hlt
      have hw : child path (.object composed) (.member key) = some w :=
        (mem_lookup_iff hnodup).mpr hmem
      cases hp : child path (.object facts) (.member key) with
      | some p =>
        obtain ⟨r, hr, hcompose⟩ := hmerge.stated (.member key) p hp
        rw [hw] at hr
        cases hr
        obtain ⟨own, hown, hpValid⟩ := hfactsValid key p (mem_of_lookup hp)
        refine ⟨own, hown, ?_⟩
        refine hrec _ p w own hp hcompose (hstated key p own (mem_of_lookup hp) hown) ?_ hpValid
        intro v hv
        obtain ⟨own', hown', hvValid⟩ := hmembersValid key v (mem_of_lookup hv)
        rw [hown] at hown'
        cases hown'
        exact hvValid
      | none =>
        rw [hmerge.unstated _ hp] at hw
        obtain ⟨v, hv, hsame⟩ := dropped_eq_some hw
        obtain ⟨own, hown, hvValid⟩ := hmembersValid key v (mem_of_lookup hv)
        refine ⟨own, hown, ?_⟩
        rcases hsame with rfl | ⟨q, hq, hkept⟩
        · exact hvValid
        · exact retire_valid (hhost.some hv).1 (hhost.some hv).2 (Or.inr (hprior.some hq))
            (hunstated key own hp hown) hvValid hkept
  · replace hvalidHost := hvalidHost.resolve_left fun h => nomatch h
    cases schema with
    | any => rfl
    | integer | string | object => cases hvalid
    | array items minItems =>
      simp only [keeps, Bool.and_eq_true, List.all_eq_true, decide_eq_true_eq] at hkeeps
      obtain ⟨hzero, hkeepsItems⟩ := hkeeps
      obtain ⟨values, heq, -, hownValid⟩ := validates_array.mp hvalidHost
      cases heq
      obtain ⟨values, heq, -, hfactsValid⟩ := validates_array.mp hvalid
      cases heq
      refine validates_array.mpr ⟨rows, rfl, ?_, fun row hrow => ?_⟩
      · rw [hzero]
        exact Nat.zero_le _
      obtain ⟨identity, hchild⟩ := hrows.child hkey hrow
      cases hp : child path (.array facts) (.row identity) with
      | some p =>
        obtain ⟨r, hr, hcompose⟩ := hmerge.stated (.row identity) p hp
        rw [hchild] at hr
        cases hr
        have hmem : p ∈ facts := by
          rw [child_row hkey] at hp
          exact (rowOf_mem hp).1
        refine hrec _ p row items hp hcompose (hkeepsItems p hmem) ?_ (hfactsValid p hmem)
        intro v hv
        rw [child_row hkey] at hv
        exact hownValid v (rowOf_mem hv).1
      | none =>
        rw [hmerge.unstated _ hp, dropped] at hchild
        split at hchild
        · cases hchild
        · rw [child_row hkey] at hchild
          exact hownValid row (rowOf_mem hchild).1
termination_by sizeOf package
decreasing_by exact child_sizeOf_lt hp

/-! ## Ledgers -/

theorem memberPath_inj {path key key' : String} (h : memberPath path key = memberPath path key') :
    key = key' := by
  have hchars := congrArg String.toList h
  simp only [memberPath, String.toList_append] at hchars
  exact String.toList_injective (List.append_cancel_left hchars)

/-- The sections of a ledger are the row arrays at its root. -/
theorem rowIdentity_section {name key : String} :
    rowIdentity (memberPath "" name) = some key ↔ (name, key) ∈ identitySections := by
  constructor
  · intro h
    unfold rowIdentity at h
    have hname : ∀ other, memberPath "" name = memberPath "" other → name = other :=
      fun other => memberPath_inj
    split at h
    · rename_i hpath
      cases h
      rw [hname "module_roots" hpath]
      decide
    · rename_i hpath
      cases h
      rw [hname "managed_surfaces" hpath]
      decide
    · rename_i hpath
      cases h
      rw [hname "fences" hpath]
      decide
    · rename_i hpath
      cases h
      rw [hname "authority_surfaces" hpath]
      decide
    · rename_i hpath
      cases h
      rw [hname "subsystems" hpath]
      decide
    · cases h
  · intro h
    simp only [identitySections, List.mem_cons, Prod.mk.injEq, List.not_mem_nil, or_false] at h
    rcases h with ⟨rfl, rfl⟩ | ⟨rfl, rfl⟩ | ⟨rfl, rfl⟩ | ⟨rfl, rfl⟩ | ⟨rfl, rfl⟩ <;> decide

def slashes (path : String) : Nat := path.toList.count '/'

theorem slashes_of_rowIdentity {path key : String} (h : rowIdentity path = some key) :
    slashes path = 1 := by
  unfold rowIdentity at h
  split at h
  · decide
  · decide
  · decide
  · decide
  · decide
  · cases h

theorem slashes_step (path : String) (step : Step) : slashes path + 1 ≤ slashes (step.path path) := by
  have hslash : ("/" : String).toList.count '/' = 1 := by decide
  cases step with
  | member key =>
    simp only [slashes, Step.path, memberPath, String.toList_append, List.count_append, hslash]
    omega
  | row identity =>
    simp only [slashes, Step.path, rowPath, String.toList_append, List.count_append, hslash]
    omega

theorem slashes_pathAt (path : String) (place : Place) :
    slashes path + place.length ≤ slashes (pathAt path place) := by
  induction place generalizing path with
  | nil => exact le_rfl
  | cons step place ih =>
    have hstep := slashes_step path step
    have hrest := ih (step.path path)
    rw [pathAt, List.length_cons]
    omega

/-- Rows stand in the sections at the root and nowhere below. -/
theorem located_root {v : Value}
    (h : ∀ name key w, (name, key) ∈ identitySections → v.get? name = some w →
      ∃ rows, w = .array rows ∧ Keyed key rows) : Located "" v := by
  intro place w key hw hkey
  have hlength := slashes_pathAt "" place
  rw [slashes_of_rowIdentity hkey] at hlength
  have hroot : slashes "" = 0 := by decide
  match place, hw, hkey, hlength with
  | [], hw, hkey, _ =>
    have hnone : rowIdentity (pathAt "" []) = none := by decide
    rw [hnone] at hkey
    cases hkey
  | [.member name], hw, hkey, _ =>
    obtain ⟨u, hu, hat⟩ := valueAt_cons_eq_some.mp hw
    obtain rfl := Option.some.inj hat
    exact h name key u (rowIdentity_section.mp hkey) hu
  | [.row identity], hw, _, _ =>
    obtain ⟨u, hu, -⟩ := valueAt_cons_eq_some.mp hw
    rw [child_row_of_no_identity (by decide)] at hu
    cases hu
  | _ :: _ :: rest, _, _, hlength =>
    rw [List.length_cons, List.length_cons] at hlength
    omega

theorem Located.sectionRows {v w : Value} {name key : String} (h : Located "" v)
    (hname : (name, key) ∈ identitySections) (hw : v.get? name = some w) :
    ∃ rows, w = .array rows ∧ Keyed key rows := by
  have hchild : NativeOwnership.child "" v (.member name) = some w := hw
  exact (h.child hchild).here (rowIdentity_section.mpr hname)

theorem admitLedger_eq_ok {host : Host} {v : Value} :
    admitLedger host v = .ok () ↔
      validates ledgerSchema v = true ∧
      (v.field "schema_version" = .ofNat 1 ∧
        ∀ member ∈ v.asObject.getD [], (ledgerProperties.lookup member.1).isSome) ∧
      ∀ name key, (name, key) ∈ identitySections →
        (((v.field name).asArray.getD []).map fun row => row.field key).Nodup := by
  simp only [admitLedger, Except.bind_eq_ok_iff, require_eq_ok, check_eq_ok, forM_eq_ok,
    distinctRows, Prod.forall, exists_const]

theorem section_schema {name key : String} (h : (name, key) ∈ identitySections) :
    ∃ required properties additional,
      memberSchema ledgerProperties (some .any) name =
        some (.array (.object required properties additional) 0) ∧
      key ∈ required ∧ memberSchema properties additional key = some .string := by
  simp only [identitySections, List.mem_cons, Prod.mk.injEq, List.not_mem_nil, or_false] at h
  rcases h with ⟨rfl, rfl⟩ | ⟨rfl, rfl⟩ | ⟨rfl, rfl⟩ | ⟨rfl, rfl⟩ | ⟨rfl, rfl⟩
  all_goals exact ⟨_, _, _, rfl, by decide, rfl⟩

/-- A document that is admitted as a ledger holds rows told apart by their identity. -/
theorem ledger_located {host : Host} {v : Value} (h : admitLedger host v = .ok ()) :
    Located "" v := by
  obtain ⟨hvalid, -, hdistinct⟩ := admitLedger_eq_ok.mp h
  obtain ⟨members, rfl, -, hmembers⟩ := validates_object.mp hvalid
  refine located_root fun name key w hname hw => ?_
  obtain ⟨required, properties, additional, hschema, hkey, hstring⟩ := section_schema hname
  obtain ⟨own, hown, hwValid⟩ := hmembers name w (mem_of_lookup hw)
  rw [hschema] at hown
  cases hown
  obtain ⟨rows, rfl, -, hrows⟩ := validates_array.mp hwValid
  refine ⟨rows, rfl, fun row hrow => ?_, ?_⟩
  · obtain ⟨facts, rfl, hrequired, hfacts⟩ := validates_object.mp (hrows row hrow)
    obtain ⟨u, hu⟩ := Option.isSome_iff_exists.mp (hrequired key hkey)
    obtain ⟨own, hown, huValid⟩ := hfacts key u (mem_of_lookup hu)
    rw [hstring] at hown
    cases hown
    obtain ⟨identity, rfl⟩ := validates_string huValid
    exact ⟨facts, identity, rfl, hu⟩
  · have hfield : (Value.object members).field name = .array rows := by
      rw [Value.field, hw, Option.getD_some]
    have hnodup := hdistinct name key hname
    rw [hfield] at hnodup
    exact hnodup

/-! ## The package -/

theorem baseline_plain : baseline.plain = true := by decide

theorem baseline_valid : validates ledgerSchema baseline = true := by decide

theorem baseline_keeps : keeps ledgerSchema baseline = true := by decide

/-- The package facts are a ledger. -/
theorem baseline_admitted (host : Host) : admitLedger host baseline = .ok () := by
  refine admitLedger_eq_ok.mpr ⟨baseline_valid, by decide, ?_⟩
  have hdistinct : ∀ pair ∈ identitySections,
      (((baseline.field pair.1).asArray.getD []).map fun row => row.field pair.2).Nodup := by
    decide
  exact fun name key hname => hdistinct (name, key) hname

theorem baseline_located : Located "" baseline :=
  ledger_located (baseline_admitted ⟨fun _ => .ok .null, fun _ => .ok "", fun _ => ⟨""⟩, ""⟩)

theorem retire_rows {path key : String} {host prior kept : Value} (hplain : host.plain = true)
    (hlocated : Located path host) (hkey : rowIdentity path = some key)
    (h : retireValue host prior path = some kept) : ∃ rows, kept = .array rows ∧ Keyed key rows := by
  rcases retire_shape hplain hlocated h with rfl | ⟨members, old, rfl, rfl, -⟩ |
    ⟨name, rows, own, hname, rfl, rfl, hrows⟩
  · exact hlocated.here hkey
  · obtain ⟨rows, hrows, -⟩ := hlocated.here hkey
    cases hrows
  · rw [hkey] at hname
    cases hname
    exact ⟨rows, rfl, hrows⟩

section
variable {host prior result : Value}

/-- What is composed with the package holds its sections as rows told apart by identity. -/
theorem result_located (hplain : host.plain = true) (hlocated : Located "" host)
    (hprior : Held "" prior) (h : composeValue host baseline prior "" = .ok result) :
    Located "" result := by
  have hhost : Held "" host := Or.inr ⟨hplain, hlocated⟩
  rcases compose_ok hhost baseline_plain baseline_located hprior h with ⟨rfl, -⟩ | ⟨-, hmerge⟩
  · exact baseline_located
  refine located_root fun name key w hname hw => ?_
  have hkey : rowIdentity ((Step.member name).path "") = some key := rowIdentity_section.mpr hname
  have hw : child "" result (.member name) = some w := hw
  cases hp : child "" baseline (.member name) with
  | some p =>
    obtain ⟨r, hr, hcompose⟩ := hmerge.stated (.member name) p hp
    rw [hw] at hr
    cases hr
    have hpPlain := plain_child baseline_plain hp
    have hpLocated := baseline_located.child hp
    rcases compose_ok (hhost.child _) hpPlain hpLocated (hprior.child _) hcompose with
      ⟨rfl, -⟩ | ⟨hne, hmerge'⟩
    · exact hpLocated.here hkey
    · rcases merge_shape (hhost.child _) hpPlain hpLocated (hprior.child _) hne hmerge'.merges
        hcompose with ⟨members, facts, composed, -, rfl, rfl, -⟩ |
        ⟨key', own, facts, rows, hkey', -, rfl, rfl, -, hrows⟩
      · obtain ⟨rows, hrows, -⟩ := hpLocated.here hkey
        cases hrows
      · rw [hkey] at hkey'
        cases hkey'
        exact ⟨rows, rfl, hrows⟩
  | none =>
    rw [hmerge.unstated _ hp] at hw
    obtain ⟨v, hv, rfl | ⟨q, -, hkept⟩⟩ := dropped_eq_some hw
    · exact (hlocated.child hv).here hkey
    · exact retire_rows (plain_child hplain hv) (hlocated.child hv) hkey hkept

/-- **What is composed of a ledger and the package is a ledger.** -/
theorem admit_result {toml : Host} (hplain : host.plain = true)
    (hadmitted : admitLedger toml host = .ok ()) (hprior : Held "" prior)
    (h : composeValue host baseline prior "" = .ok result) :
    admitLedger toml result = .ok () := by
  have hlocated := ledger_located hadmitted
  have hhost : Held "" host := Or.inr ⟨hplain, hlocated⟩
  obtain ⟨hvalid, ⟨-, hkeys⟩, -⟩ := admitLedger_eq_ok.mp hadmitted
  have hplainResult := compose_plain hhost baseline_plain baseline_located hprior h
  have hvalidResult := compose_valid hhost baseline_plain baseline_located hprior baseline_keeps
    (Or.inr hvalid) baseline_valid h
  have hlocatedResult := result_located hplain hlocated hprior h
  refine admitLedger_eq_ok.mpr ⟨hvalidResult, ⟨?_, fun member hmem => ?_⟩, ?_⟩
  · -- The package states the version, and a number is not merged.
    have hversion : valueAt "" baseline [.member "schema_version"] = some (.ofNat 1) := by
      decide
    obtain ⟨r, hr, hsame⟩ := facts_kept hhost baseline_plain baseline_located hprior h hversion
    obtain ⟨u, hu, hat⟩ := valueAt_cons_eq_some.mp hr
    obtain rfl := Option.some.inj hat
    have hone : u = .ofNat 1 := by
      rcases hsame with hsame | ⟨hobject, -⟩ | ⟨-, harray, -⟩
      · exact hsame
      · cases hobject
      · cases harray
    rw [Value.field]
    have hget : result.get? "schema_version" = some u := hu
    rw [hget, hone, Option.getD_some]
  · obtain ⟨members, rfl, -⟩ := validates_object.mp hvalidResult
    have hnodup : (members.map Prod.fst).Nodup :=
      (plain_object.mp hplainResult).1.imp fun {_ _} hlt => ne_of_lt hlt
    have hmember : valueAt "" (.object members) [.member member.1] = some member.2 := by
      have hlookup : child "" (.object members) (.member member.1) = some member.2 :=
        (mem_lookup_iff hnodup).mpr hmem
      rw [valueAt_cons hlookup, valueAt]
    have hbaseline := (admitLedger_eq_ok.mp (baseline_admitted toml)).2.1.2
    cases hp : valueAt "" baseline [.member member.1] with
    | some p =>
      obtain ⟨u, hu, -⟩ := valueAt_cons_eq_some.mp hp
      exact hbaseline (member.1, u) (Value.mem_of_get? hu)
    | none =>
      obtain ⟨v, hv, -⟩ := extended_by_host hhost baseline_plain baseline_located hprior h hmember
        hp
      obtain ⟨u, hu, -⟩ := valueAt_cons_eq_some.mp hv
      exact hkeys (member.1, u) (Value.mem_of_get? hu)
  · intro name key hname
    rw [Value.field]
    cases hw : result.get? name with
    | none => exact List.nodup_nil
    | some w =>
      obtain ⟨rows, rfl, hrows⟩ := hlocatedResult.sectionRows hname hw
      exact hrows.2

end

/-! ## The merge -/

/-- TOML documents are tables, and rendering and parsing them are inverse. -/
structure Host.Toml (host : Host) : Prop where
  plain : ∀ text v, host.fromToml text = .ok v → v.plain = true
  inverse : ∀ v, v.plain = true → v.isObject = true →
    ∃ text, host.toToml v = .ok text ∧ host.fromToml text = .ok v

/-- What a conservative three-way merge keeps of the package, the host and the prior baseline. -/
structure Conserves (host prior result : Value) : Prop where
  facts : ∀ place p, valueAt "" baseline place = some p → StandsAt "" p result place
  extended : ∀ place r, valueAt "" result place = some r → valueAt "" baseline place = none →
    ∃ v, valueAt "" host place = some v ∧ (r = v ∨ Merges (pathAt "" place) v r)
  hostOnly : ∀ place v, valueAt "" host place = some v → valueAt "" baseline place = none →
    valueAt "" prior place = none → valueAt "" result place = some v
  changed : ∀ place v, valueAt "" host place = some v → valueAt "" baseline place ≠ some v →
    valueAt "" prior place = some v ∨ StandsAt "" v result place

/-- The outcome of `compose` on a host ledger: what is written is a conservative merge that
    composes to itself, and a failure has a host value that conflicts with a package fact and is
    not the prior baseline's. -/
def Conservative (host : Host) (text : String) (own prior : Value) : Prop :=
  match compose host (some text) prior with
  | .ok written =>
    (∃ result, parse host written = .ok result ∧ Conserves own prior result) ∧
      compose host (some written) baseline = .ok written
  | .error _ => ∃ place, ConflictsAt "" own baseline prior place

theorem parse_eq_ok {host : Host} {text : String} {v : Value} :
    parse host text = .ok v ↔ host.fromToml text = .ok v ∧ admitLedger host v = .ok () := by
  simp only [parse, Except.bind_eq_ok_iff, Except.pure_eq_ok_iff]
  constructor
  · rintro ⟨v, hread, _, hadmit, rfl⟩
    exact ⟨hread, hadmit⟩
  · rintro ⟨hread, hadmit⟩
    exact ⟨v, hread, (), hadmit, rfl⟩

section
variable {host : Host} {text : String} {own prior : Value}

theorem parse_held (htoml : host.Toml)
    (hprior : prior = .null ∨ ∃ text, parse host text = .ok prior) : Held "" prior := by
  rcases hprior with rfl | ⟨text, htext⟩
  · exact Or.inl rfl
  · obtain ⟨hread, hadmit⟩ := parse_eq_ok.mp htext
    exact Or.inr ⟨htoml.plain text prior hread, ledger_located hadmit⟩

theorem compose_unchanged (hown : parse host text = .ok own)
    (h : composeValue own baseline prior "" = .ok own) :
    compose host (some text) prior = .ok text :=
  Except.bind_eq_ok_iff.mpr ⟨own, hown, Except.bind_eq_ok_iff.mpr ⟨own, h, if_pos rfl⟩⟩

theorem compose_rendered (hown : parse host text = .ok own) {result : Value} {written : String}
    (h : composeValue own baseline prior "" = .ok result) (hne : result ≠ own)
    (hrender : host.toToml result = .ok written) (hparse : parse host written = .ok result) :
    compose host (some text) prior = .ok written := by
  refine Except.bind_eq_ok_iff.mpr ⟨own, hown, Except.bind_eq_ok_iff.mpr ⟨result, h, ?_⟩⟩
  refine (if_neg hne).trans (Except.bind_eq_ok_iff.mpr ⟨written, hrender, ?_⟩)
  exact Except.bind_eq_ok_iff.mpr ⟨result, hparse, rfl⟩

theorem compose_failed (hown : parse host text = .ok own) {e : CoreError}
    (h : composeValue own baseline prior "" = .error e) :
    compose host (some text) prior = .error e :=
  Except.bind_eq_error_iff.mpr (Or.inr ⟨own, hown, Except.bind_eq_error_iff.mpr (Or.inl h)⟩)

/-- What `compose` writes reads back as the composed value. -/
theorem compose_written (htoml : host.Toml) (hown : parse host text = .ok own)
    (hprior : Held "" prior) {result : Value}
    (h : composeValue own baseline prior "" = .ok result) :
    ∃ written, compose host (some text) prior = .ok written ∧ parse host written = .ok result := by
  obtain ⟨hread, hadmit⟩ := parse_eq_ok.mp hown
  have hplain := htoml.plain text own hread
  by_cases hsame : result = own
  · rw [hsame] at h ⊢
    exact ⟨text, compose_unchanged hown h, hown⟩
  · have hadmitResult := admit_result hplain hadmit hprior h
    have hobject : result.isObject = true := by
      obtain ⟨hvalid, -⟩ := admitLedger_eq_ok.mp hadmitResult
      obtain ⟨members, rfl, -⟩ := validates_object.mp hvalid
      rfl
    obtain ⟨written, hrender, hwritten⟩ := htoml.inverse result
      (compose_plain (Or.inr ⟨hplain, ledger_located hadmit⟩) baseline_plain baseline_located
        hprior h) hobject
    have hparse : parse host written = .ok result := parse_eq_ok.mpr ⟨hwritten, hadmitResult⟩
    exact ⟨written, compose_rendered hown h hsame hrender hparse, hparse⟩

/-- Where a composition succeeds with a vacated place, it is not conservative. -/
theorem vacated_not_conservative (htoml : host.Toml) (hown : parse host text = .ok own)
    (hprior : Held "" prior) {result : Value}
    (h : composeValue own baseline prior "" = .ok result) {place : Place}
    (hvacated : Vacated "" own baseline prior place) : ¬Conservative host text own prior := by
  obtain ⟨hread, hadmit⟩ := parse_eq_ok.mp hown
  have hheld : Held "" own := Or.inr ⟨htoml.plain text own hread, ledger_located hadmit⟩
  obtain ⟨written, hwritten, hparse⟩ := compose_written htoml hown hprior h
  have hgone := vacated_removed hheld baseline_plain baseline_located hprior h hvacated
  obtain ⟨hdropped, v, u, hv, hu, hne, -⟩ := hvacated
  rw [Conservative, hwritten]
  rintro ⟨⟨result', hparse', hconserves⟩, -⟩
  rw [hparse] at hparse'
  cases hparse'
  have hchanged := hconserves.changed place v hv (by rw [hdropped.valueAt]; exact fun h => nomatch h)
  rcases hchanged with hsame | ⟨r, hr, -⟩
  · rw [hu] at hsame
    exact hne (Option.some.inj hsame).symm
  · rw [hgone] at hr
    cases hr

/-- **The ownership ledger is composed conservatively exactly where a host value conflicts with a
package fact, or no host value is vacated.** -/
theorem conservative_iff (htoml : host.Toml) (hown : parse host text = .ok own)
    (hprior : prior = .null ∨ ∃ text, parse host text = .ok prior) :
    Conservative host text own prior ↔
      (∃ place, ConflictsAt "" own baseline prior place) ∨
        ∀ place, ¬Vacated "" own baseline prior place := by
  have hheldPrior := parse_held htoml hprior
  obtain ⟨hread, hadmit⟩ := parse_eq_ok.mp hown
  have hplain := htoml.plain text own hread
  have hlocated := ledger_located hadmit
  have hheld : Held "" own := Or.inr ⟨hplain, hlocated⟩
  cases hcompose : composeValue own baseline prior "" with
  | error e =>
    have hconflict := error_conflicts hheld baseline_plain baseline_located hheldPrior hcompose
    rw [Conservative, compose_failed hown hcompose]
    exact ⟨Or.inl, fun _ => hconflict⟩
  | ok result =>
    constructor
    · intro h
      refine Or.inr fun place hvacated => ?_
      exact vacated_not_conservative htoml hown hheldPrior hcompose hvacated h
    · rintro (⟨place, hconflict⟩ | hvacated)
      · exact absurd hcompose (conflicts_error hplain hlocated baseline_plain baseline_located
          hheldPrior hconflict)
      obtain ⟨written, hwritten, hparse⟩ := compose_written htoml hown hheldPrior hcompose
      rw [Conservative, hwritten]
      refine ⟨⟨result, hparse, ?_, ?_, ?_, ?_⟩, ?_⟩
      · exact fun place p => facts_kept hheld baseline_plain baseline_located hheldPrior hcompose
      · exact fun place r => extended_by_host hheld baseline_plain baseline_located hheldPrior
          hcompose
      · exact fun place v => host_only_kept hheld baseline_plain baseline_located hheldPrior
          hcompose
      · intro place v hv hp
        have hnull : v ≠ .null := plain_ne_null (valueAt_plain hplain hv)
        rcases changed_only_prior hheld baseline_plain baseline_located hheldPrior hcompose hv
          hnull hp with hsame | hstands | hgone
        · exact Or.inl hsame
        · exact Or.inr hstands
        · exact absurd hgone (hvacated place)
      · exact compose_unchanged hparse
          (compose_again hheld baseline_plain baseline_located hheldPrior hcompose)

end

/-! ## A ledger with a vacated class -/

def emptiedClass : Value :=
  .object [("ownership_classes", .object [("legacy", .object [])]),
    ("schema_version", .number (.int 1))]

def statedClass : Value :=
  .object [("ownership_classes", .object [("legacy", .object [("summary", .string "Old.")])]),
    ("schema_version", .number (.int 1))]

def emptiedText : String := "schema_version = 1\n\n[ownership_classes.legacy]\n"

def statedText : String :=
  "schema_version = 1\n\n[ownership_classes.legacy]\nsummary = \"Old.\"\n"

/-- Two TOML documents; any other text is taken as JSON, which stands in for the rest of TOML. -/
def sampleHost : Host where
  fromToml text :=
    if text = emptiedText then .ok emptiedClass
    else if text = statedText then .ok statedClass
    else
      match Json.parse text.toList with
      | some v => if v.plain then .ok v else .error ⟨"not a table"⟩
      | none => .error ⟨"not a document"⟩
  toToml v := .ok (String.ofList (Json.print Json.escape v))
  schemaError _ := ⟨"not an ownership ledger"⟩
  baselineText := "schema_version = 1"

theorem sampleHost_toml : sampleHost.Toml := by
  refine ⟨fun text v h => ?_, fun v hplain hobject => ?_⟩
  · simp only [sampleHost] at h
    split at h
    · cases h
      decide
    split at h
    · cases h
      decide
    split at h
    · split at h
      · rename_i hplain
        cases h
        exact hplain
      · cases h
    · cases h
  · refine ⟨_, rfl, ?_⟩
    have hhead : ∃ rest, (String.ofList (Json.print Json.escape v)).toList = '{' :: rest := by
      cases v with
      | object members => exact ⟨_, by rw [String.toList_ofList, Json.print]⟩
      | null | bool | number | string | array => cases hobject
    obtain ⟨rest, hrest⟩ := hhead
    have hne : ∀ text : String, text.toList.head? = some 's' →
        String.ofList (Json.print Json.escape v) ≠ text := by
      rintro text htext rfl
      rw [hrest] at htext
      cases htext
    simp only [sampleHost]
    rw [if_neg (hne emptiedText (by decide)), if_neg (hne statedText (by decide)),
      String.toList_ofList, parse_print escape_escapes]
    exact if_pos hplain

theorem emptiedText_parse : parse sampleHost emptiedText = .ok emptiedClass := by decide

theorem statedText_parse : parse sampleHost statedText = .ok statedClass := by decide

/-- The package drops the class, and the host's emptied one is retired with it. -/
theorem emptiedClasses_composed :
    composeValue (.object [("legacy", .object [])]) ownershipClasses
      (.object [("legacy", .object [("summary", .string "Old.")])]) "/ownership_classes" =
        .ok ownershipClasses := by
  have hkept : retireValue (.object []) (.object [("summary", .string "Old.")])
      (memberPath "/ownership_classes" "legacy") = none := by
    simp [retireValue, retireMembers]
  have hretired : ∀ a b c,
      retireDropped [("managed_fence", a), ("module_managed", b), ("repo_owned", c)]
        "/ownership_classes" [("legacy", .object [("summary", .string "Old.")])]
        [("legacy", .object [])] = [] := by
    intro a b c
    simp [retireDropped, retireFact, hkept]
  rw [ownershipClasses, composeValue_objects _ _ (by simp), Value.asObject, Option.getD_some,
    hretired, composeMembers_added (by rfl), composeMembers_added (by rfl),
    composeMembers_added (by rfl), composeMembers]
  rfl

theorem emptiedClass_composed : composeValue emptiedClass baseline statedClass "" = .ok baseline := by
  have hclasses := emptiedClasses_composed
  rw [emptiedClass, baseline, statedClass, composeValue_objects _ _ (by simp), Value.asObject,
    Option.getD_some]
  generalize ownershipClasses = classes at hclasses ⊢
  have hretired : ∀ a b c d e w s members,
      retireDropped [("authority_surfaces", a), ("fences", b), ("managed_surfaces", c),
          ("module_roots", d), ("ownership_classes", classes), ("schema_version", e),
          ("workspace", w)] ""
        [("ownership_classes", s), ("schema_version", e)] members = members := by
    intro a b c d e w s members
    simp [retireDropped, retireFact]
  rw [hretired, composeMembers_added (by rfl), composeMembers_added (by rfl),
    composeMembers_added (by rfl), composeMembers_added (by rfl),
    composeMembers_merged (by rfl) hclasses,
    composeMembers_merged (by rfl) (composeValue_self _ _ _), composeMembers_added (by rfl),
    composeMembers]
  rfl

/-- The host's class is empty, which the prior baseline's was not, and holds nothing else. -/
theorem emptiedClass_vacated :
    Vacated "" emptiedClass baseline statedClass
      [.member "ownership_classes", .member "legacy"] := by
  refine ⟨?_, .object [], .object [("summary", .string "Old.")], by decide,
    by decide, by decide, ?_⟩
  · have hclasses : child "" baseline (.member "ownership_classes") = some ownershipClasses := by
      decide
    rw [Dropped, hclasses]
    have hlegacy : child (Step.path "" (.member "ownership_classes")) ownershipClasses
        (.member "legacy") = none := by decide
    simp only [Dropped, hlegacy]
    rfl
  · apply Subsumed.members
    · intro key v h
      cases h
    · intro key v w h
      cases h

/-- **An emptied class of a dropped package fact is removed, though it is not what the prior
baseline had.** -/
theorem emptiedClass_removed :
    sampleHost.Toml ∧ parse sampleHost emptiedText = .ok emptiedClass ∧
      parse sampleHost statedText = .ok statedClass ∧
      ¬Conservative sampleHost emptiedText emptiedClass statedClass :=
  ⟨sampleHost_toml, emptiedText_parse, statedText_parse,
    vacated_not_conservative sampleHost_toml emptiedText_parse
      (parse_held sampleHost_toml (Or.inr ⟨statedText, statedText_parse⟩)) emptiedClass_composed
      emptiedClass_vacated⟩

theorem conservative_iff_sample :
    Conservative sampleHost statedText statedClass emptiedClass ↔
      (∃ place, ConflictsAt "" statedClass baseline emptiedClass place) ∨
        ∀ place, ¬Vacated "" statedClass baseline emptiedClass place :=
  conservative_iff sampleHost_toml statedText_parse (Or.inr ⟨emptiedText, emptiedText_parse⟩)

end NativeOwnership

end AgenticCore
