import AgenticCore.OwnershipMerge

/-!
# What ownership composition keeps and changes

* `facts_kept`, `extended_by_host`         : the result states every package fact, and nothing
                                             besides that the host did not have.
* `host_only_kept`                         : what neither the package nor the prior baseline
                                             declares stays.
* `changed_only_prior`, `vacated_removed`  : what is replaced or removed was the prior baseline's,
                                             or is vacated; what is vacated is removed.
* `error_conflicts`, `conflicts_error`     : composition fails exactly where a host value
                                             conflicts with a package fact.
* `compose_again`                          : composing the result again changes nothing.
-/

set_option autoImplicit false

namespace AgenticCore

open Json

namespace NativeOwnership

/-! ## Places of a composition -/

/-- An object, or the rows of a section: a value that is merged and not replaced. -/
def Container (path : String) (v : Value) : Prop := Merges path v v

theorem Merges.left {path : String} {v w : Value} (h : Merges path v w) : Container path v := by
  rcases h with ⟨hv, -⟩ | ⟨hsome, hv, -⟩
  · exact Or.inl ⟨hv, hv⟩
  · exact Or.inr ⟨hsome, hv, hv⟩

theorem Merges.right {path : String} {v w : Value} (h : Merges path v w) : Container path w := by
  rcases h with ⟨-, hw⟩ | ⟨hsome, -, hw⟩
  · exact Or.inl ⟨hw, hw⟩
  · exact Or.inr ⟨hsome, hw, hw⟩

/-- What merges with one value merges with what that value merges with. -/
theorem Merges.trans {path : String} {v w u : Value} (h : Merges path v w)
    (h' : Merges path v u) : Merges path w u := by
  rcases h with ⟨hobject, hw⟩ | ⟨hsome, harray, hw⟩
  · rcases h' with ⟨-, hu⟩ | ⟨-, harray, -⟩
    · exact Or.inl ⟨hw, hu⟩
    · cases v with
      | object members => cases harray
      | null | bool | number | string | array => cases hobject
  · rcases h' with ⟨hobject, -⟩ | ⟨-, -, hu⟩
    · cases v with
      | object members => cases harray
      | null | bool | number | string | array => cases hobject
    · exact Or.inr ⟨hsome, hw, hu⟩

/-- A value stands at a place as it was, or merged. -/
def StandsAt (path : String) (v result : Value) (place : Place) : Prop :=
  ∃ r, valueAt path result place = some r ∧ (r = v ∨ Merges (pathAt path place) v r)

theorem StandsAt.cons {path : String} {v result r : Value} {step : Step} {place : Place}
    (hr : child path result step = some r) (h : StandsAt (step.path path) v r place) :
    StandsAt path v result (step :: place) := by
  obtain ⟨w, hw, hsame⟩ := h
  exact ⟨w, by rw [valueAt_cons hr, hw], hsame⟩

theorem Held.some {path : String} {v w : Value} {step : Step} (h : Held path v)
    (hw : NativeOwnership.child path v step = some w) :
    w.plain = true ∧ Located (step.path path) w := by
  rcases h with rfl | ⟨hplain, hlocated⟩
  · rw [child_null] at hw
    cases hw
  · exact ⟨plain_child hplain hw, hlocated.child hw⟩

/-! ## Places of a retirement -/

theorem dropped_of_none {path : String} {host prior : Value} {step : Step}
    (h : child path prior step = none) : dropped path host prior step = child path host step := by
  cases step with
  | member key =>
    rw [child] at h
    rw [dropped, h, child]
    cases host.get? key <;> rfl
  | row identity =>
    rw [dropped, h]
    split
    · rename_i hnone
      exact hnone.symm
    · rfl

theorem dropped_member {path key : String} {host prior h q : Value}
    (hhost : child path host (.member key) = some h)
    (hprior : child path prior (.member key) = some q) :
    dropped path host prior (.member key) =
      retireValue h q ((Step.member key).path path) := by
  rw [child] at hhost hprior
  rw [dropped, hhost, hprior]
  rfl

theorem dropped_row {path identity : String} {host prior h q : Value}
    (hhost : child path host (.row identity) = some h)
    (hprior : child path prior (.row identity) = some q) (hne : h ≠ q) :
    dropped path host prior (.row identity) = some h := by
  rw [dropped, hhost, hprior, if_neg fun heq => hne (Option.some.inj heq)]

/-- What is left under a step is the host's, or what is left of it by retirement. -/
theorem dropped_eq_some {path : String} {host prior r : Value} {step : Step}
    (h : dropped path host prior step = some r) :
    ∃ w, child path host step = some w ∧
      (r = w ∨ ∃ q, child path prior step = some q ∧
        retireValue w q (step.path path) = some r) := by
  cases hq : child path prior step with
  | none =>
    rw [dropped_of_none hq] at h
    exact ⟨r, h, Or.inl rfl⟩
  | some q =>
    cases step with
    | row identity =>
      rw [dropped] at h
      split at h
      · cases h
      · exact ⟨r, h, Or.inl rfl⟩
    | member key =>
      cases hw : child path host (.member key) with
      | none =>
        rw [child] at hw
        rw [dropped, hw] at h
        cases h
      | some w =>
        rw [dropped_member hw hq] at h
        exact ⟨w, rfl, Or.inr ⟨q, rfl, h⟩⟩

/-- What a host value that holds nothing but prior facts has at a place. -/
def VacatedAt (path : String) (host prior : Value) (place : Place) : Prop :=
  place.all Step.isMember = true ∧ ∃ v u, valueAt path host place = some v ∧
    valueAt path prior place = some u ∧ v ≠ u ∧ Subsumed (pathAt path place) v u

theorem VacatedAt.cons {path key : String} {host prior h q : Value} {place : Place}
    (hhost : child path host (.member key) = some h)
    (hprior : child path prior (.member key) = some q)
    (hvacated : VacatedAt ((Step.member key).path path) h q place) :
    VacatedAt path host prior (.member key :: place) := by
  obtain ⟨hall, v, u, hv, hu, hne, hsubsumed⟩ := hvacated
  refine ⟨by simpa [Step.isMember] using hall, v, u, ?_, ?_, hne, hsubsumed⟩
  · rw [valueAt_cons hhost]
    exact hv
  · rw [valueAt_cons hprior]
    exact hu

theorem subsumed_at {path : String} {host prior v : Value} {place : Place}
    (hprior : Held path prior) (h : Subsumed path host prior)
    (hv : valueAt path host place = some v) :
    valueAt path prior place = some v ∨ VacatedAt path host prior place := by
  induction place generalizing path host prior with
  | nil =>
    obtain rfl := Option.some.inj hv
    by_cases hne : host = prior
    · rw [hne]
      exact Or.inl rfl
    · exact Or.inr ⟨rfl, host, prior, rfl, rfl, hne, h⟩
  | cons step place ih =>
    obtain ⟨w, hw, hat⟩ := valueAt_cons_eq_some.mp hv
    cases h with
    | same => exact Or.inl hv
    | @members _ members old known each =>
      cases step with
      | row identity =>
        rw [child_row_object] at hw
        cases hw
      | member key =>
        obtain ⟨q, hq⟩ := Option.isSome_iff_exists.mp (known key w hw)
        have hq : child path (.object old) (.member key) = some q := hq
        have hheld : Held ((Step.member key).path path) q := Or.inr (hprior.some hq)
        rcases ih hheld (each key w q hw hq) hat with hsame | hvacated
        · left
          rw [valueAt_cons hq]
          exact hsame
        · exact Or.inr (hvacated.cons hw hq)
    | @rows _ key rows _ hkey each =>
      cases step with
      | member name => cases hw
      | row identity =>
        rw [child_row hkey] at hw
        obtain ⟨hmem, hfield⟩ := rowOf_mem hw
        have hq : child path prior (.row identity) = some w := by
          rw [child_row_prior hkey]
          exact (rowOf_eq_some (hprior.rows hkey).1.2).mpr ⟨each w hmem, hfield⟩
        left
        rw [valueAt_cons hq]
        exact hat

section
variable {path : String} {host prior : Value}

/-- What is left by retirement is the host's value, or an object or a section in its place. -/
theorem retire_shape {kept : Value} (hplain : host.plain = true) (hlocated : Located path host)
    (h : retireValue host prior path = some kept) :
    kept = host ∨
      (∃ members old, host = .object members ∧ kept = .object old ∧
        (old.map Prod.fst).Pairwise (· < ·)) ∨
      ∃ key rows own, rowIdentity path = some key ∧ host = .array own ∧ kept = .array rows ∧
        Keyed key rows := by
  have hne : host ≠ prior := by
    rintro rfl
    rw [retireValue_same] at h
    cases h
  by_cases hobjects : ∃ members old, host = .object members ∧ prior = .object old
  · obtain ⟨members, old, rfl, rfl⟩ := hobjects
    have hsublist := retireMembers_sublist members old path
    rw [retireValue_members fun heq => hne (congrArg Value.object heq)] at h
    split at h
    · cases h
    · cases h
      exact Or.inr (Or.inl ⟨_, _, rfl, rfl, (plain_object.mp hplain).1.sublist hsublist⟩)
  by_cases hrows : ∃ rows key, host = .array rows ∧ rowIdentity path = some key
  · obtain ⟨rows, key, rfl, hkey⟩ := hrows
    obtain ⟨rows', heq, hkeyed⟩ := hlocated.here hkey
    cases heq
    rw [retireValue_rows hne hkey] at h
    split at h
    · cases h
    · cases h
      exact Or.inr (Or.inr ⟨key, _, rows, hkey, rfl, rfl, hkeyed.sublist List.filter_sublist⟩)
  · rw [retireValue_other hne (fun members old hh hp => hobjects ⟨members, old, hh, hp⟩)
      (fun rows key hh hkey => hrows ⟨rows, key, hh, hkey⟩)] at h
    cases h
    exact Or.inl rfl

theorem retire_kind {kept : Value} (hplain : host.plain = true) (hlocated : Located path host)
    (h : retireValue host prior path = some kept) : kept = host ∨ Merges path host kept := by
  rcases retire_shape hplain hlocated h with rfl | ⟨members, old, rfl, rfl, -⟩ |
    ⟨key, rows, own, hkey, rfl, rfl, -⟩
  · exact Or.inl rfl
  · exact Or.inr (Or.inl ⟨rfl, rfl⟩)
  · exact Or.inr (Or.inr ⟨by rw [hkey]; rfl, rfl, rfl⟩)

/-- What a retired value had at a place was the prior baseline's, or stays, or is vacated. -/
theorem retire_changed {place : Place} {v : Value} (hplain : host.plain = true)
    (hlocated : Located path host) (hprior : Held path prior)
    (hv : valueAt path host place = some v) :
    valueAt path prior place = some v ∨
      (∃ kept, retireValue host prior path = some kept ∧ StandsAt path v kept place) ∨
      VacatedAt path host prior place := by
  induction place generalizing path host prior with
  | nil =>
    obtain rfl := Option.some.inj hv
    cases hretire : retireValue host prior path with
    | none =>
      have hsubsumed := (retireValue_none hplain).mp hretire
      exact (subsumed_at hprior hsubsumed rfl).imp_right Or.inr
    | some kept =>
      exact Or.inr (Or.inl ⟨kept, rfl, ⟨kept, rfl, retire_kind hplain hlocated hretire⟩⟩)
  | cons step place ih =>
    cases hretire : retireValue host prior path with
    | none =>
      have hsubsumed := (retireValue_none hplain).mp hretire
      exact (subsumed_at hprior hsubsumed hv).imp_right Or.inr
    | some kept =>
      have hkept := retire_children hplain hlocated hprior hretire step
      obtain ⟨w, hw, hat⟩ := valueAt_cons_eq_some.mp hv
      cases hq : child path prior step with
      | none =>
        rw [dropped_of_none hq, hw] at hkept
        exact Or.inr (Or.inl ⟨kept, rfl, StandsAt.cons hkept ⟨v, hat, Or.inl rfl⟩⟩)
      | some q =>
        cases step with
        | row identity =>
          by_cases hne : w = q
          · left
            rw [valueAt_cons hq, ← hne]
            exact hat
          · rw [dropped_row hw hq hne] at hkept
            exact Or.inr (Or.inl ⟨kept, rfl, StandsAt.cons hkept ⟨v, hat, Or.inl rfl⟩⟩)
        | member key =>
          rw [dropped_member hw hq] at hkept
          have hheld : Held ((Step.member key).path path) q := Or.inr (hprior.some hq)
          rcases ih (plain_child hplain hw) (hlocated.child hw) hheld hat with
            hsame | ⟨kept', hkept', hstands⟩ | hvacated
          · left
            rw [valueAt_cons hq]
            exact hsame
          · rw [hkept'] at hkept
            exact Or.inr (Or.inl ⟨kept, rfl, StandsAt.cons hkept hstands⟩)
          · exact Or.inr (Or.inr (hvacated.cons hw hq))

/-- What the prior baseline does not have stays under retirement. -/
theorem retire_host_only {place : Place} {v : Value} (hplain : host.plain = true)
    (hlocated : Located path host) (hprior : Held path prior)
    (hv : valueAt path host place = some v) (hnone : valueAt path prior place = none) :
    ∃ kept, retireValue host prior path = some kept ∧ valueAt path kept place = some v := by
  induction place generalizing path host prior with
  | nil => cases hnone
  | cons step place ih =>
    cases hretire : retireValue host prior path with
    | none =>
      have hsubsumed := (retireValue_none hplain).mp hretire
      rcases subsumed_at hprior hsubsumed hv with hsame | ⟨-, -, u, -, hu, -⟩
      · rw [hnone] at hsame
        cases hsame
      · rw [hnone] at hu
        cases hu
    | some kept =>
      refine ⟨kept, rfl, ?_⟩
      have hkept := retire_children hplain hlocated hprior hretire step
      obtain ⟨w, hw, hat⟩ := valueAt_cons_eq_some.mp hv
      cases hq : child path prior step with
      | none =>
        rw [dropped_of_none hq, hw] at hkept
        rw [valueAt_cons hkept, hat]
      | some q =>
        rw [valueAt_cons hq] at hnone
        cases step with
        | row identity =>
          have hne : w ≠ q := by
            rintro rfl
            rw [hat] at hnone
            cases hnone
          rw [dropped_row hw hq hne] at hkept
          rw [valueAt_cons hkept, hat]
        | member key =>
          rw [dropped_member hw hq] at hkept
          have hheld : Held ((Step.member key).path path) q := Or.inr (hprior.some hq)
          obtain ⟨kept', hkept', hsame⟩ :=
            ih (plain_child hplain hw) (hlocated.child hw) hheld hat hnone
          rw [hkept'] at hkept
          rw [valueAt_cons hkept]
          exact hsame

/-- What is vacated goes. -/
theorem retire_vacated {place : Place} (hplain : host.plain = true)
    (hlocated : Located path host) (hprior : Held path prior)
    (h : VacatedAt path host prior place) :
    (retireValue host prior path).bind (fun kept => valueAt path kept place) = none := by
  induction place generalizing path host prior with
  | nil =>
    obtain ⟨-, v, u, hv, hu, -, hsubsumed⟩ := h
    obtain rfl := Option.some.inj hv
    obtain rfl := Option.some.inj hu
    have hsubsumed : Subsumed path host prior := hsubsumed
    rw [(retireValue_none hplain).mpr hsubsumed, Option.bind_none]
  | cons step place ih =>
    obtain ⟨hall, v, u, hv, hu, hne, hsubsumed⟩ := h
    rw [List.all_cons, Bool.and_eq_true] at hall
    cases hretire : retireValue host prior path with
    | none => rfl
    | some kept =>
      have hkept := retire_children hplain hlocated hprior hretire step
      obtain ⟨w, hw, hv⟩ := valueAt_cons_eq_some.mp hv
      obtain ⟨q, hq, hu⟩ := valueAt_cons_eq_some.mp hu
      cases step with
      | row identity => exact absurd hall.1 (by simp [Step.isMember])
      | member key =>
        rw [dropped_member hw hq] at hkept
        have hheld : Held ((Step.member key).path path) q := Or.inr (hprior.some hq)
        have hgone := ih (plain_child hplain hw) (hlocated.child hw) hheld
          ⟨hall.2, v, u, hv, hu, hne, hsubsumed⟩
        rw [← hkept] at hgone
        exact hgone

/-- Retirement adds nothing. -/
theorem retire_from_host {place : Place} {kept r : Value} (hplain : host.plain = true)
    (hlocated : Located path host) (hprior : Held path prior)
    (hretire : retireValue host prior path = some kept) (hr : valueAt path kept place = some r) :
    ∃ v, valueAt path host place = some v ∧ (r = v ∨ Merges (pathAt path place) v r) := by
  induction place generalizing path host prior kept with
  | nil =>
    obtain rfl := Option.some.inj hr
    exact ⟨host, rfl, retire_kind hplain hlocated hretire⟩
  | cons step place ih =>
    obtain ⟨u, hu, hr⟩ := valueAt_cons_eq_some.mp hr
    rw [retire_children hplain hlocated hprior hretire step] at hu
    obtain ⟨w, hw, rfl | ⟨q, hq, hkept⟩⟩ := dropped_eq_some hu
    · exact ⟨r, by rw [valueAt_cons hw, hr], Or.inl rfl⟩
    · rw [valueAt_cons hw]
      exact ih (plain_child hplain hw) (hlocated.child hw) (Or.inr (hprior.some hq)) hkept hr

end

/-! ## Places of a composition -/

/-- The package does not state the place, and the first step it does not state, like those below,
    names a member. -/
def Dropped (path : String) (package : Value) : Place → Prop
  | [] => False
  | step :: place =>
    match child path package step with
    | some p => Dropped (step.path path) p place
    | none => (step :: place).all Step.isMember = true

theorem Dropped.valueAt {path : String} {package : Value} {place : Place}
    (h : Dropped path package place) : NativeOwnership.valueAt path package place = none := by
  induction place generalizing path package with
  | nil => exact h.elim
  | cons step place ih =>
    rw [Dropped] at h
    cases hp : child path package step with
    | none => rw [NativeOwnership.valueAt, hp, Option.bind_none]
    | some p =>
      rw [hp] at h
      rw [valueAt_cons hp]
      exact ih h

/-- **A vacated place.** The package has dropped it, and the host's value there is not the prior
    baseline's, yet holds nothing but prior facts: the host has taken something out of it. -/
def Vacated (path : String) (host package prior : Value) (place : Place) : Prop :=
  Dropped path package place ∧ ∃ v u, valueAt path host place = some v ∧
    valueAt path prior place = some u ∧ v ≠ u ∧ Subsumed (pathAt path place) v u

/-- A place where a host value stands against a package fact. -/
def ConflictsAt (path : String) (host package prior : Value) (place : Place) : Prop :=
  ∃ v p, valueAt path host place = some v ∧ valueAt path package place = some p ∧ v ≠ p ∧
    ¬Merges (pathAt path place) v p ∧ valueAt path prior place ≠ some v

section
variable {path : String} {host package prior result : Value}

/-- **The result states every package fact.** -/
theorem facts_kept (hhost : Held path host) (hplain : package.plain = true)
    (hpackage : Located path package) (hprior : Held path prior)
    (h : composeValue host package prior path = .ok result) {place : Place} {p : Value}
    (hp : valueAt path package place = some p) : StandsAt path p result place := by
  induction place generalizing path host package prior result with
  | nil =>
    cases hp
    rcases compose_ok hhost hplain hpackage hprior h with ⟨rfl, -⟩ | ⟨-, hmerge⟩
    · exact ⟨result, rfl, Or.inl rfl⟩
    · exact ⟨result, rfl, Or.inr (hmerge.merges.trans hmerge.kind)⟩
  | cons step place ih =>
    rcases compose_ok hhost hplain hpackage hprior h with ⟨rfl, -⟩ | ⟨-, hmerge⟩
    · exact ⟨p, hp, Or.inl rfl⟩
    · obtain ⟨p', hp', hp⟩ := valueAt_cons_eq_some.mp hp
      obtain ⟨r', hr', hcompose⟩ := hmerge.stated step p' hp'
      exact StandsAt.cons hr' (ih (hhost.child step) (plain_child hplain hp')
        (hpackage.child hp') (hprior.child step) hcompose hp)

/-- **What neither the package nor the prior baseline declares stays.** -/
theorem host_only_kept (hhost : Held path host) (hplain : package.plain = true)
    (hpackage : Located path package) (hprior : Held path prior)
    (h : composeValue host package prior path = .ok result) {place : Place} {v : Value}
    (hv : valueAt path host place = some v) (hp : valueAt path package place = none)
    (hq : valueAt path prior place = none) : valueAt path result place = some v := by
  induction place generalizing path host package prior result with
  | nil => cases hp
  | cons step place ih =>
    rcases compose_ok hhost hplain hpackage hprior h with ⟨rfl, rfl | rfl | rfl⟩ | ⟨-, hmerge⟩
    · rw [valueAt, child_null] at hv
      cases hv
    · exact hv
    · rw [hv] at hq
      cases hq
    obtain ⟨w, hw, hat⟩ := valueAt_cons_eq_some.mp hv
    obtain ⟨hwplain, hwlocated⟩ := hhost.some hw
    cases hp' : child path package step with
    | some p =>
      obtain ⟨r, hr, hcompose⟩ := hmerge.stated step p hp'
      rw [hw, Option.getD_some] at hcompose
      rw [valueAt_cons hp'] at hp
      rw [valueAt_cons hr]
      cases place with
      | nil => cases hp
      | cons next place =>
        exact ih (Or.inr ⟨hwplain, hwlocated⟩) (plain_child hplain hp') (hpackage.child hp')
          (hprior.child step) hcompose hat hp (by rw [valueAt_getD, hq])
    | none =>
      have hresult := hmerge.unstated step hp'
      cases hq' : child path prior step with
      | none =>
        rw [dropped_of_none hq', hw] at hresult
        rw [valueAt_cons hresult, hat]
      | some q =>
        rw [valueAt_cons hq'] at hq
        cases step with
        | row identity =>
          have hne : w ≠ q := by
            rintro rfl
            rw [hat] at hq
            cases hq
          rw [dropped_row hw hq' hne] at hresult
          rw [valueAt_cons hresult, hat]
        | member key =>
          rw [dropped_member hw hq'] at hresult
          have hheld : Held ((Step.member key).path path) q := Or.inr (hprior.some hq')
          obtain ⟨kept, hkept, hsame⟩ := retire_host_only hwplain hwlocated hheld hat hq
          rw [hkept] at hresult
          rw [valueAt_cons hresult]
          exact hsame

/-- **Beside package facts the result has only what the host had.** -/
theorem extended_by_host (hhost : Held path host) (hplain : package.plain = true)
    (hpackage : Located path package) (hprior : Held path prior)
    (h : composeValue host package prior path = .ok result) {place : Place} {r : Value}
    (hr : valueAt path result place = some r) (hp : valueAt path package place = none) :
    ∃ v, valueAt path host place = some v ∧ (r = v ∨ Merges (pathAt path place) v r) := by
  induction place generalizing path host package prior result with
  | nil => cases hp
  | cons step place ih =>
    rcases compose_ok hhost hplain hpackage hprior h with ⟨rfl, -⟩ | ⟨-, hmerge⟩
    · rw [hr] at hp
      cases hp
    obtain ⟨u, hu, hr⟩ := valueAt_cons_eq_some.mp hr
    cases hp' : child path package step with
    | some p =>
      obtain ⟨u', hu', hcompose⟩ := hmerge.stated step p hp'
      rw [hu] at hu'
      cases hu'
      rw [valueAt_cons hp'] at hp
      cases hw : child path host step with
      | none =>
        rw [hw, Option.getD_none, composeValue_null] at hcompose
        cases hcompose
        rw [hr] at hp
        cases hp
      | some w =>
        rw [hw, Option.getD_some] at hcompose
        rw [valueAt_cons hw]
        exact ih (Or.inr (hhost.some hw)) (plain_child hplain hp') (hpackage.child hp')
          (hprior.child step) hcompose hr hp
    | none =>
      rw [hmerge.unstated step hp'] at hu
      obtain ⟨w, hw, rfl | ⟨q, hq, hkept⟩⟩ := dropped_eq_some hu
      · exact ⟨r, by rw [valueAt_cons hw, hr], Or.inl rfl⟩
      · obtain ⟨hwplain, hwlocated⟩ := hhost.some hw
        rw [valueAt_cons hw]
        exact retire_from_host hwplain hwlocated (Or.inr (hprior.some hq)) hkept hr

/-- **What is replaced or removed was the prior baseline's, or is vacated.** -/
theorem changed_only_prior (hhost : Held path host) (hplain : package.plain = true)
    (hpackage : Located path package) (hprior : Held path prior)
    (h : composeValue host package prior path = .ok result) {place : Place} {v : Value}
    (hv : valueAt path host place = some v) (hnull : v ≠ .null)
    (hp : valueAt path package place ≠ some v) :
    valueAt path prior place = some v ∨ StandsAt path v result place ∨
      Vacated path host package prior place := by
  induction place generalizing path host package prior result with
  | nil =>
    obtain rfl := Option.some.inj hv
    rcases compose_ok hhost hplain hpackage hprior h with ⟨rfl, rfl | rfl | rfl⟩ | ⟨-, hmerge⟩
    · exact absurd rfl hnull
    · exact absurd rfl hp
    · exact Or.inl rfl
    · exact Or.inr (Or.inl ⟨result, rfl, Or.inr hmerge.kind⟩)
  | cons step place ih =>
    rcases compose_ok hhost hplain hpackage hprior h with ⟨rfl, rfl | rfl | rfl⟩ | ⟨-, hmerge⟩
    · rw [valueAt, child_null] at hv
      cases hv
    · exact absurd hv hp
    · exact Or.inl hv
    obtain ⟨w, hw, hat⟩ := valueAt_cons_eq_some.mp hv
    obtain ⟨hwplain, hwlocated⟩ := hhost.some hw
    cases hp' : child path package step with
    | some p =>
      obtain ⟨r, hr, hcompose⟩ := hmerge.stated step p hp'
      rw [hw, Option.getD_some] at hcompose
      rw [valueAt_cons hp'] at hp
      rcases ih (Or.inr ⟨hwplain, hwlocated⟩) (plain_child hplain hp') (hpackage.child hp')
        (hprior.child step) hcompose hat hp with
        hsame | hstands | ⟨hdropped, v', u, hv', hu, hne, hsubsumed⟩
      · exact Or.inl (valueAt_getD_some hsame hnull)
      · exact Or.inr (Or.inl (StandsAt.cons hr hstands))
      · refine Or.inr (Or.inr ⟨?_, v', u, ?_, ?_, hne, hsubsumed⟩)
        · rw [Dropped, hp']
          exact hdropped
        · rw [valueAt_cons hw, hv']
        · cases place with
          | nil => exact hdropped.elim
          | cons next place => rw [← valueAt_getD, hu]
    | none =>
      have hresult := hmerge.unstated step hp'
      cases hq : child path prior step with
      | none =>
        rw [dropped_of_none hq, hw] at hresult
        exact Or.inr (Or.inl (StandsAt.cons hresult ⟨v, hat, Or.inl rfl⟩))
      | some q =>
        cases step with
        | row identity =>
          by_cases hne : w = q
          · left
            rw [valueAt_cons hq, ← hne, hat]
          · rw [dropped_row hw hq hne] at hresult
            exact Or.inr (Or.inl (StandsAt.cons hresult ⟨v, hat, Or.inl rfl⟩))
        | member key =>
          rw [dropped_member hw hq] at hresult
          rcases retire_changed hwplain hwlocated (Or.inr (hprior.some hq)) hat with
            hsame | ⟨kept, hkept, hstands⟩ | hvacated
          · left
            rw [valueAt_cons hq, hsame]
          · rw [hkept] at hresult
            exact Or.inr (Or.inl (StandsAt.cons hresult hstands))
          · obtain ⟨hall, v', u, hv', hu, hne, hsubsumed⟩ := hvacated.cons hw hq
            refine Or.inr (Or.inr ⟨?_, v', u, hv', hu, hne, hsubsumed⟩)
            rw [Dropped, hp']
            exact hall

/-- **What is vacated is removed.** -/
theorem vacated_removed (hhost : Held path host) (hplain : package.plain = true)
    (hpackage : Located path package) (hprior : Held path prior)
    (h : composeValue host package prior path = .ok result) {place : Place}
    (hvacated : Vacated path host package prior place) : valueAt path result place = none := by
  induction place generalizing path host package prior result with
  | nil => exact hvacated.1.elim
  | cons step place ih =>
    rcases compose_ok hhost hplain hpackage hprior h with ⟨rfl, -⟩ | ⟨-, hmerge⟩
    · exact hvacated.1.valueAt
    obtain ⟨hdropped, v, u, hv, hu, hne, hsubsumed⟩ := hvacated
    obtain ⟨w, hw, hv⟩ := valueAt_cons_eq_some.mp hv
    obtain ⟨q, hq, hu⟩ := valueAt_cons_eq_some.mp hu
    obtain ⟨hwplain, hwlocated⟩ := hhost.some hw
    rw [Dropped] at hdropped
    cases hp' : child path package step with
    | some p =>
      rw [hp'] at hdropped
      obtain ⟨r, hr, hcompose⟩ := hmerge.stated step p hp'
      rw [hw, hq, Option.getD_some, Option.getD_some] at hcompose
      rw [valueAt_cons hr]
      exact ih (Or.inr ⟨hwplain, hwlocated⟩) (plain_child hplain hp') (hpackage.child hp')
        (Or.inr (hprior.some hq)) hcompose ⟨hdropped, v, u, hv, hu, hne, hsubsumed⟩
    | none =>
      rw [hp', List.all_cons, Bool.and_eq_true] at hdropped
      have hresult := hmerge.unstated step hp'
      cases step with
      | row identity => exact absurd hdropped.1 (by simp [Step.isMember])
      | member key =>
        rw [dropped_member hw hq] at hresult
        rw [valueAt, hresult]
        exact retire_vacated hwplain hwlocated (Or.inr (hprior.some hq))
          ⟨hdropped.2, v, u, hv, hu, hne, hsubsumed⟩

theorem valueAt_plain {v w : Value} {place : Place} (h : v.plain = true)
    (hw : valueAt path v place = some w) : w.plain = true := by
  induction place generalizing path v with
  | nil =>
    obtain rfl := Option.some.inj hw
    exact h
  | cons step place ih =>
    obtain ⟨u, hu, hw⟩ := valueAt_cons_eq_some.mp hw
    exact ih (plain_child h hu) hw

theorem child_sizeOf_lt {v w : Value} {step : Step} (h : child path v step = some w) :
    sizeOf w < sizeOf v := by
  cases step with
  | member key => exact Value.get?_sizeOf_lt h
  | row identity =>
    obtain ⟨key, -, hrow⟩ := Option.bind_eq_some_iff.mp h
    cases v with
    | array rows =>
      have hlt := List.sizeOf_lt_of_mem (rowOf_mem hrow).1
      simp only [Value.asArray, Option.getD_some, Value.array.sizeOf_spec] at hlt ⊢
      omega
    | null | bool | number | string | object => exact absurd (rowOf_mem hrow).1 List.not_mem_nil

/-- A composition that fails meets a conflict. -/
theorem error_conflicts {path : String} {host package prior : Value} {e : CoreError}
    (hhost : Held path host) (hplain : package.plain = true) (hpackage : Located path package)
    (hprior : Held path prior) (h : composeValue host package prior path = .error e) :
    ∃ place, ConflictsAt path host package prior place := by
  rcases compose_error hhost hplain hpackage hprior h with
    ⟨hnull, hne, hmerges, hold⟩ | ⟨step, own, p, hown, hp, herror⟩
  · refine ⟨[], host, package, rfl, rfl, hne, hmerges, ?_⟩
    intro heq
    exact hold (Option.some.inj heq).symm
  · have hownHeld : Held (step.path path) own := Or.inr (hhost.some hown)
    obtain ⟨place, v, q, hv, hq, hne, hmerges, hold⟩ :=
      error_conflicts hownHeld (plain_child hplain hp) (hpackage.child hp) (hprior.child step)
        herror
    refine ⟨step :: place, v, q, ?_, ?_, hne, hmerges, ?_⟩
    · rw [valueAt_cons hown, hv]
    · rw [valueAt_cons hp, hq]
    · intro hsame
      obtain ⟨u, hu, hat⟩ := valueAt_cons_eq_some.mp hsame
      rw [hu, Option.getD_some] at hold
      exact hold hat
termination_by sizeOf package
decreasing_by exact child_sizeOf_lt hp

/-- A composition with a conflict fails. -/
theorem conflicts_error {place : Place} (hhost : host.plain = true) (hlocated : Located path host)
    (hplain : package.plain = true) (hpackage : Located path package) (hprior : Held path prior)
    (h : ConflictsAt path host package prior place) :
    composeValue host package prior path ≠ .ok result := by
  intro hok
  induction place generalizing path host package prior result with
  | nil =>
    obtain ⟨v, p, hv, hp, hne, hmerges, hold⟩ := h
    obtain rfl := Option.some.inj hv
    obtain rfl := Option.some.inj hp
    have hconflict : Conflicts path _ _ _ :=
      ⟨plain_ne_null hhost, hne, hmerges, fun heq => hold (congrArg some heq.symm)⟩
    obtain ⟨e, herror⟩ := compose_conflict hconflict
    rw [hok] at herror
    cases herror
  | cons step place ih =>
    obtain ⟨v, p, hv, hp, hne, hmerges, hold⟩ := h
    obtain ⟨w, hw, hv⟩ := valueAt_cons_eq_some.mp hv
    obtain ⟨q, hq, hp⟩ := valueAt_cons_eq_some.mp hp
    rcases compose_ok (Or.inr ⟨hhost, hlocated⟩) hplain hpackage hprior hok with
      ⟨rfl, rfl | rfl | rfl⟩ | ⟨-, hmerge⟩
    · cases hhost
    · rw [hw] at hq
      cases hq
      rw [hv] at hp
      exact hne (Option.some.inj hp)
    · rw [valueAt_cons hw] at hold
      exact hold hv
    · obtain ⟨r, -, hcompose⟩ := hmerge.stated step q hq
      rw [hw, Option.getD_some] at hcompose
      refine ih (plain_child hhost hw) (hlocated.child hw) (plain_child hplain hq)
        (hpackage.child hq) (hprior.child step) ⟨v, p, hv, hp, hne, hmerges, ?_⟩ hcompose
      intro hsame
      exact hold (valueAt_getD_some hsame (plain_ne_null (valueAt_plain (plain_child hhost hw) hv)))

end

/-- A merge yields an object or the rows of a section. -/
theorem merge_shape {path : String} {host package prior result : Value} (hhost : Held path host)
    (hplain : package.plain = true) (hpackage : Located path package) (hprior : Held path prior)
    (hne : host ≠ package) (hmerges : Merges path host package)
    (h : composeValue host package prior path = .ok result) :
    (∃ members facts composed, host = .object members ∧ package = .object facts ∧
      result = .object composed ∧ (composed.map Prod.fst).Pairwise (· < ·)) ∨
    ∃ key own facts rows, rowIdentity path = some key ∧ host = .array own ∧
      package = .array facts ∧ result = .array rows ∧ Keyed key facts ∧ Keyed key rows := by
  rcases merges_cases hhost hplain hpackage hmerges with ⟨members, facts, rfl, rfl⟩ |
    ⟨key, own, facts, hkey, rfl, rfl, hown, hfacts⟩
  · rw [composeValue_objects prior path fun heq => hne (congrArg Value.object heq)] at h
    obtain ⟨composed, hcomposed, hresult⟩ := Except.bind_eq_ok_iff.mp h
    cases hresult
    refine Or.inl ⟨members, facts, composed, rfl, rfl, rfl, ?_⟩
    refine composeMembers_ordered (retireDropped_ordered ?_) hcomposed
    rcases hhost with hnull | ⟨hhost, -⟩
    · cases hnull
    · exact (plain_object.mp hhost).1
  · obtain ⟨-, rows, rfl, hrows⟩ := merge_rows hkey (fun heq => hne (congrArg Value.array heq))
      hown hfacts hplain hprior h
    exact Or.inr ⟨key, own, facts, rows, hkey, rfl, rfl, rfl, hfacts, hrows⟩

/-! ## Composing again -/

theorem insertMember_same {members : List (String × Value)} {key : String} {v : Value}
    (hordered : (members.map Prod.fst).Pairwise (· < ·)) (h : members.lookup key = some v) :
    Value.insertMember key v members = members := by
  refine members_ext (insertMember_ordered key v hordered) hordered fun name => ?_
  by_cases hname : name = key
  · rw [hname, insertMember_lookup_self, h]
  · exact insertMember_lookup hname v members

theorem composeMembers_stable {facts members : List (String × Value)} {prior : Value}
    {path : String} (hordered : (members.map Prod.fst).Pairwise (· < ·))
    (h : ∀ key value, (key, value) ∈ facts → ∃ v, members.lookup key = some v ∧
      composeValue v value (prior.field key) (memberPath path key) = .ok v) :
    composeMembers facts members prior path = .ok members := by
  induction facts with
  | nil => rw [composeMembers]
  | cons fact rest ih =>
    obtain ⟨name, value⟩ := fact
    obtain ⟨v, hv, hcompose⟩ := h name value List.mem_cons_self
    rw [composeMembers_cons, hv, Option.getD_some, hcompose]
    have hrest := ih fun key value hmem => h key value (List.mem_cons_of_mem _ hmem)
    change composeMembers rest (Value.insertMember name v members) prior path = .ok members
    rw [insertMember_same hordered hv]
    exact hrest

theorem composeRows_stable {key : String} {facts rows : List Value} {prior : Value}
    {path : String} (h : ∀ fact ∈ facts, ∃ row, rowOf key rows (fact.field key) = some row ∧
      composeValue row fact (priorRow key prior (fact.field key))
        (rowPath path (fact.field key)) = .ok row) :
    composeRows key facts rows prior path = .ok rows := by
  induction facts with
  | nil => rw [composeRows]
  | cons fact rest ih =>
    obtain ⟨row, hrow, hcompose⟩ := h fact List.mem_cons_self
    have hrest := ih fun fact hmem => h fact (List.mem_cons_of_mem _ hmem)
    rcases composeRows_step key fact rest rows prior path rfl with
      ⟨hnone, -⟩ | ⟨own, i, hown, -, hget, hstep⟩
    · rw [hnone] at hrow
      cases hrow
    · rw [hrow] at hown
      cases hown
      rw [← hstep, hcompose]
      change composeRows key rest (rows.set i row) prior path = .ok rows
      obtain ⟨hlt, hget⟩ := List.getElem?_eq_some_iff.mp hget
      rw [← hget, List.set_getElem_self]
      exact hrest

theorem retireDropped_stated {facts old members : List (String × Value)} {path : String}
    (h : ∀ key ∈ old.map Prod.fst, (facts.lookup key).isSome) :
    retireDropped facts path old members = members := by
  induction old with
  | nil => rw [retireDropped]
  | cons fact rest ih =>
    obtain ⟨name, value⟩ := fact
    rw [List.map_cons, List.forall_mem_cons] at h
    rw [retireDropped, retireFact, if_pos h.1]
    exact ih h.2

theorem removeDropped_own {key : String} {package old rows : List Value}
    (h : ∀ row ∈ old, row ∈ package) : removeDropped key package old rows = rows := by
  induction old with
  | nil => rw [removeDropped]
  | cons row rest ih =>
    rw [List.forall_mem_cons] at h
    have hany : (package.any fun p => p.field key = row.field key) = true :=
      List.any_eq_true.mpr ⟨row, h.1, decide_eq_true rfl⟩
    rw [removeDropped, removeRow, if_pos hany]
    exact ih h.2

theorem lookup_isSome_of_mem {members : List (String × Value)} {key : String}
    (h : key ∈ members.map Prod.fst) : (members.lookup key).isSome = true := by
  induction members with
  | nil => cases h
  | cons member rest ih =>
    obtain ⟨name, value⟩ := member
    rw [List.lookup_cons]
    split
    · rfl
    · rename_i hne
      rcases List.mem_cons.mp h with rfl | h
      · exact absurd hne (by simp)
      · exact ih h

/-- **Composing the result again, with the package as the prior baseline, changes nothing.** -/
theorem compose_again {path : String} {host package prior result : Value}
    (hhost : Held path host) (hplain : package.plain = true) (hpackage : Located path package)
    (hprior : Held path prior) (h : composeValue host package prior path = .ok result) :
    composeValue result package package path = .ok result := by
  rcases compose_ok hhost hplain hpackage hprior h with ⟨rfl, -⟩ | ⟨hne, hmerge⟩
  · exact composeValue_self result result path
  by_cases hsame : result = package
  · rw [hsame]
    exact composeValue_self package package path
  -- Each package fact, composed once, is composed again to the same value.
  have hagain : ∀ step p, child path package step = some p → ∃ r, child path result step = some r ∧
      composeValue r p p (step.path path) = .ok r := by
    intro step p hp
    obtain ⟨r, hr, hcompose⟩ := hmerge.stated step p hp
    exact ⟨r, hr, compose_again (hhost.child step) (plain_child hplain hp) (hpackage.child hp)
      (hprior.child step) hcompose⟩
  rcases merge_shape hhost hplain hpackage hprior hne hmerge.merges h with
    ⟨members, facts, composed, rfl, rfl, rfl, hordered⟩ |
    ⟨key, own, facts, rows, hkey, rfl, rfl, rfl, hfacts, -⟩
  · have hfactsNodup : (facts.map Prod.fst).Nodup :=
      (plain_object.mp hplain).1.imp fun {_ _} hlt => ne_of_lt hlt
    rw [composeValue_objects _ path fun heq => hsame (congrArg Value.object heq)]
    change (composeMembers facts (retireDropped facts path facts composed) (.object facts)
      path).bind _ = _
    rw [retireDropped_stated fun name hname => lookup_isSome_of_mem hname,
      composeMembers_stable hordered]
    · rfl
    · intro name value hmem
      have hlookup := (mem_lookup_iff hfactsNodup).mpr hmem
      obtain ⟨r, hr, hcompose⟩ := hagain (.member name) value hlookup
      refine ⟨r, hr, ?_⟩
      have hfield : (Value.object facts).field name = value := by
        rw [Value.field, Value.get?, hlookup, Option.getD_some]
      rw [hfield]
      exact hcompose
  · rw [composeValue_rows _ hkey fun heq => hsame (congrArg Value.array heq)]
    change (composeRows key facts (removeDropped key facts facts rows) (.array facts)
      path).bind _ = _
    rw [removeDropped_own fun row hrow => hrow, composeRows_stable]
    · rfl
    · intro fact hmem
      obtain ⟨members, identity, rfl, hidentity⟩ := hfacts.1 fact hmem
      have hfield : (Value.object members).field key = .string identity := by
        rw [Value.field, Value.get?, hidentity, Option.getD_some]
      have hfact : rowOf key facts (.string identity) = some (.object members) :=
        (rowOf_eq_some hfacts.2).mpr ⟨hmem, hfield⟩
      have hp : child path (.array facts) (.row identity) = some (.object members) := by
        rw [child_row hkey, hfact]
      obtain ⟨r, hr, hcompose⟩ := hagain (.row identity) (.object members) hp
      rw [child_row hkey] at hr
      rw [hfield]
      refine ⟨r, hr, ?_⟩
      have hprior : priorRow key (.array facts) (.string identity) = .object members := by
        rw [priorRow, Value.asArray, Option.bind_some, hfact, Option.getD_some]
      rw [hprior]
      exact hcompose
termination_by sizeOf package
decreasing_by exact child_sizeOf_lt hp

end NativeOwnership

end AgenticCore
