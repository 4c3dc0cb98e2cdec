import AgenticCore.PlanningUpdate

/-!
# When a Planning delta is a merge patch

* `mergeMaterial_get?`      : what each member of a merged document is.
* `MergePatch`              : the laws of a merge patch, by object paths.
* `mergePatch_iff`          : the merged document obeys them exactly when every null of the delta
                              stands where the document has an object to remove from.
-/

set_option autoImplicit false

namespace AgenticCore.PlanningUpdate

open Json

/-! ## The members of a merged document -/

theorem mergeMaterial_object (current changes : List (String × Value)) :
    mergeMaterial (.object current) (.object changes) = .object (mergeMembers current changes) := by
  rw [mergeMaterial]

theorem mergeMaterial_of_document {document : Value} (h : ∀ members, document ≠ .object members)
    (delta : Value) : mergeMaterial document delta = delta := by
  cases document with
  | object members => exact absurd rfl (h members)
  | null | bool | number | string | array => cases delta <;> rfl

theorem mergeMaterial_of_delta (document : Value) {delta : Value}
    (h : ∀ members, delta ≠ .object members) : mergeMaterial document delta = delta := by
  cases delta with
  | object members => exact absurd rfl (h members)
  | null | bool | number | string | array => rfl

/-- What one changed member becomes. -/
def mergedMember (prior : Option Value) (value : Value) : Option Value :=
  if value = .null then none else some (prior.elim value fun prior => mergeMaterial prior value)

theorem mergeMembers_cons (current changes : List (String × Value)) (key : String) (value : Value) :
    ∃ next, mergeMembers current ((key, value) :: changes) = mergeMembers next changes ∧
      next.lookup key = mergedMember (current.lookup key) value ∧
      (∀ other, other ≠ key → next.lookup other = current.lookup other) ∧
      ((current.map Prod.fst).Pairwise (· < ·) → (next.map Prod.fst).Pairwise (· < ·)) := by
  rw [mergeMembers, mergedMember]
  split
  · refine ⟨_, rfl, lookup_filter_self, fun other hother => lookup_filter_ne hother,
      filter_ordered _⟩
  · split
    · rename_i prior hprior
      refine ⟨_, rfl, ?_, fun other hother => insertMember_lookup hother _ _,
        insertMember_ordered key _⟩
      rw [hprior]
      exact insertMember_lookup_self key _ _
    · rename_i hprior
      refine ⟨_, rfl, ?_, fun other hother => insertMember_lookup hother _ _,
        insertMember_ordered key _⟩
      rw [hprior]
      exact insertMember_lookup_self key _ _

/-- Each member of the merged list is as the document and the delta have it. -/
theorem mergeMembers_lookup {changes : List (String × Value)}
    (hnodup : (changes.map Prod.fst).Nodup) (key : String) :
    ∀ current : List (String × Value), (mergeMembers current changes).lookup key =
      (changes.lookup key).elim (current.lookup key) (mergedMember (current.lookup key)) := by
  induction changes with
  | nil => exact fun current => rfl
  | cons change changes ih =>
    intro current
    obtain ⟨name, value⟩ := change
    rw [List.map_cons, List.nodup_cons] at hnodup
    obtain ⟨next, heq, hsame, hother, -⟩ := mergeMembers_cons current changes name value
    rw [heq, ih hnodup.2, List.lookup_cons]
    by_cases hkey : key = name
    · subst hkey
      have habsent : changes.lookup key = none := lookup_absent hnodup.1
      rw [habsent, beq_self_eq_true]
      exact hsame
    · have hne : (key == name) = false := by simpa using hkey
      rw [hne, hother key hkey]

theorem mergeMembers_ordered {changes : List (String × Value)} :
    ∀ {current : List (String × Value)}, (current.map Prod.fst).Pairwise (· < ·) →
      ((mergeMembers current changes).map Prod.fst).Pairwise (· < ·) := by
  induction changes with
  | nil => exact fun h => h
  | cons change changes ih =>
    intro current h
    obtain ⟨next, heq, -, -, hordered⟩ := mergeMembers_cons current changes change.1 change.2
    rw [heq]
    exact ih (hordered h)

theorem mergeMaterial_get? {current changes : List (String × Value)}
    (h : (Value.object changes).Ordered) (key : String) :
    (mergeMaterial (.object current) (.object changes)).get? key =
      ((Value.object changes).get? key).elim ((Value.object current).get? key)
        (mergedMember ((Value.object current).get? key)) := by
  rw [mergeMaterial_object]
  exact mergeMembers_lookup h.nodup key current

/-! ## Merge patches -/

/-- The path leaves the delta's objects at a name they do not have. -/
def Untouched (delta : Value) (path : List String) : Prop :=
  ∃ before name after members, path = before ++ name :: after ∧
    delta.atPath before = some (.object members) ∧ members.lookup name = none

/-- The laws of a merge patch. -/
structure MergePatch (document delta result : Value) : Prop where
  removed : ∀ path name, delta.atPath (path ++ [name]) = some .null →
    result.atPath (path ++ [name]) = none
  placed : ∀ path value, value ≠ .null → (∀ members, value ≠ .object members) →
    delta.atPath path = some value → result.atPath path = some value
  kept : ∀ path, Untouched delta path → result.atPath path = document.atPath path
  settled : mergeMaterial result delta = result

/-- Every null of the delta stands where the document has an object to remove from. -/
def Removable (document delta : Value) : Prop :=
  ∀ path name, delta.atPath (path ++ [name]) = some .null →
    ∃ members, document.atPath path = some (.object members)

theorem atPath_object_or (v : Value) : (∃ members, v = .object members) ∨
    ∀ members, v ≠ .object members := by
  cases v with
  | object members => exact Or.inl ⟨members, rfl⟩
  | null | bool | number | string | array => exact Or.inr fun _ h => by cases h

/-- A path below a changed member continues in what the member becomes. -/
theorem merged_atPath_cons {current changes : List (String × Value)}
    (h : (Value.object changes).Ordered) {name : String} {value : Value}
    (hvalue : (Value.object changes).get? name = some value) (hne : value ≠ .null)
    (path : List String) :
    (mergeMaterial (.object current) (.object changes)).atPath (name :: path) =
      (((Value.object current).get? name).elim value fun prior =>
        mergeMaterial prior value).atPath path := by
  apply Value.atPath_cons_of_get?
  rw [mergeMaterial_get? h, hvalue, Option.elim_some, mergedMember, if_neg hne]

theorem ne_null_of_atPath {v w : Value} {name : String} {path : List String}
    (h : v.atPath (name :: path) = some w) : v ≠ .null := by
  rintro rfl
  cases h

theorem placed {path : List String} {value : Value} (hnull : value ≠ .null)
    (hobject : ∀ members, value ≠ .object members) : ∀ {document delta : Value}, delta.Ordered →
      delta.atPath path = some value → (mergeMaterial document delta).atPath path = some value := by
  induction path with
  | nil =>
    intro document delta _ hat
    obtain rfl := Option.some.inj hat
    rw [mergeMaterial_of_delta document hobject]
    rfl
  | cons name path ih =>
    intro document delta hordered hat
    obtain ⟨w, hw, hrest⟩ := Value.atPath_cons_eq_some.mp hat
    rcases atPath_object_or document with ⟨current, rfl⟩ | hdocument
    · obtain ⟨changes, rfl⟩ : ∃ changes, delta = .object changes := by
        refine (atPath_object_or delta).resolve_right fun hdelta => ?_
        rw [Value.get?_of_not_object hdelta] at hw
        cases hw
      have hne : w ≠ .null := by
        rintro rfl
        cases path with
        | nil => exact hnull (Option.some.inj hrest).symm
        | cons => cases hrest
      rw [merged_atPath_cons hordered hw hne]
      cases (Value.object current).get? name with
      | none => exact hrest
      | some prior => exact ih (hordered.get? hw) hrest
    · rw [mergeMaterial_of_document hdocument]
      exact hat

theorem kept : ∀ {path : List String} {document delta : Value}, delta.Ordered →
    Untouched delta path → (mergeMaterial document delta).atPath path = document.atPath path := by
  rintro path document delta hordered ⟨before, name, after, members, rfl, hat, hnone⟩
  induction before generalizing document delta with
  | nil =>
    obtain rfl := Option.some.inj hat
    rcases atPath_object_or document with ⟨current, rfl⟩ | hdocument
    · rw [List.nil_append, Value.atPath_cons, Value.atPath_cons, mergeMaterial_get? hordered]
      have hget : (Value.object members).get? name = none := hnone
      rw [hget]
      rfl
    · rw [mergeMaterial_of_document hdocument, List.nil_append,
        Value.atPath_cons_of_get?_none (v := .object members) hnone,
        Value.atPath_cons_of_get?_none (Value.get?_of_not_object hdocument name)]
  | cons first before ih =>
    obtain ⟨w, hw, hrest⟩ := Value.atPath_cons_eq_some.mp hat
    obtain ⟨changes, rfl⟩ : ∃ changes, delta = .object changes := by
      refine (atPath_object_or delta).resolve_right fun hdelta => ?_
      rw [Value.get?_of_not_object hdelta] at hw
      cases hw
    rw [List.cons_append]
    rcases atPath_object_or document with ⟨current, rfl⟩ | hdocument
    · have hne : w ≠ .null := by
        rintro rfl
        cases before with
        | nil => cases hrest
        | cons => cases hrest
      rw [merged_atPath_cons hordered hw hne]
      cases hprior : (Value.object current).get? first with
      | none =>
        -- Nothing below an absent member, in the document or in the delta taken as it stands.
        have hself := @ih .null _ (hordered.get? hw) hrest
        rw [mergeMaterial_of_document (by simp)] at hself
        rw [Value.atPath_cons_of_get?_none hprior, Option.elim_none, hself]
        cases before with
        | nil => rfl
        | cons => rfl
      | some prior =>
        rw [Value.atPath_cons_of_get? hprior]
        exact ih (hordered.get? hw) hrest
    · have hself := @ih .null _ (hordered.get? hw) hrest
      rw [mergeMaterial_of_document (by simp)] at hself
      rw [mergeMaterial_of_document hdocument, Value.atPath_cons_of_get? hw, hself,
        Value.atPath_cons_of_get?_none (Value.get?_of_not_object hdocument first)]
      cases before with
      | nil => rfl
      | cons => rfl

/-! ## Removal -/

/-- A removable null leaves nothing behind, and any other null stays. -/
theorem removed_iff {path : List String} {name : String} : ∀ {document delta : Value},
    delta.Ordered → delta.atPath (path ++ [name]) = some .null →
      ((mergeMaterial document delta).atPath (path ++ [name]) = none ↔
        ∃ members, document.atPath path = some (.object members)) := by
  induction path with
  | nil =>
    intro document delta hordered hat
    obtain ⟨w, hw, hrest⟩ := Value.atPath_cons_eq_some.mp hat
    obtain rfl := Option.some.inj hrest
    rcases atPath_object_or document with ⟨current, rfl⟩ | hdocument
    · obtain ⟨changes, rfl⟩ : ∃ changes, delta = .object changes := by
        refine (atPath_object_or delta).resolve_right fun hdelta => ?_
        rw [Value.get?_of_not_object hdelta] at hw
        cases hw
      refine iff_of_true ?_ ⟨current, rfl⟩
      apply Value.atPath_cons_of_get?_none
      rw [mergeMaterial_get? hordered, hw, Option.elim_some, mergedMember, if_pos rfl]
    · refine iff_of_false ?_ ?_
      · rw [mergeMaterial_of_document hdocument, hat]
        simp
      · rintro ⟨members, hmembers⟩
        exact hdocument members (Option.some.inj hmembers)
  | cons first path ih =>
    intro document delta hordered hat
    obtain ⟨w, hw, hrest⟩ := Value.atPath_cons_eq_some.mp hat
    have hne : w ≠ .null := by
      cases path with
      | nil => exact ne_null_of_atPath hrest
      | cons => exact ne_null_of_atPath hrest
    rcases atPath_object_or document with ⟨current, rfl⟩ | hdocument
    · obtain ⟨changes, rfl⟩ : ∃ changes, delta = .object changes := by
        refine (atPath_object_or delta).resolve_right fun hdelta => ?_
        rw [Value.get?_of_not_object hdelta] at hw
        cases hw
      rw [List.cons_append, merged_atPath_cons hordered hw hne]
      cases hprior : (Value.object current).get? first with
      | none =>
        refine iff_of_false ?_ ?_
        · rw [Option.elim_none]
          intro hgone
          cases hrest.symm.trans hgone
        · rw [Value.atPath_cons_of_get?_none hprior]
          simp
      | some prior =>
        rw [Value.atPath_cons_of_get? hprior]
        exact ih (hordered.get? hw) hrest
    · refine iff_of_false ?_ ?_
      · rw [mergeMaterial_of_document hdocument, hat]
        simp
      · rw [Value.atPath_cons_of_get?_none (Value.get?_of_not_object hdocument first)]
        simp

/-! ## Merging twice -/

theorem Removable.get? {document delta prior value : Value} {name : String}
    (h : Removable document delta) (hprior : document.get? name = some prior)
    (hvalue : delta.get? name = some value) : Removable prior value := by
  intro path key hat
  obtain ⟨members, hmembers⟩ := h (name :: path) key
    (Value.atPath_cons_eq_some.mpr ⟨value, hvalue, hat⟩)
  rw [Value.atPath_cons_of_get? hprior] at hmembers
  exact ⟨members, hmembers⟩

/-- Where the document has nothing, a removable delta has no nulls. -/
theorem Removable.absent {document delta value : Value} {name : String}
    (h : Removable document delta) (habsent : document.get? name = none)
    (hvalue : delta.get? name = some value) (other : Value) : Removable other value := by
  intro path key hat
  obtain ⟨members, hmembers⟩ := h (name :: path) key
    (Value.atPath_cons_eq_some.mpr ⟨value, hvalue, hat⟩)
  rw [Value.atPath_cons_of_get?_none habsent] at hmembers
  cases hmembers

/-- A delta without nulls changes nothing where it already stands. -/
theorem mergeMaterial_self (delta : Value) (hordered : delta.Ordered)
    (hnull : ∀ path name, delta.atPath (path ++ [name]) ≠ some .null) :
    mergeMaterial delta delta = delta := by
  induction delta using Value.memberInduction with
  | step delta ih =>
    rcases atPath_object_or delta with ⟨changes, rfl⟩ | hdelta
    · rw [mergeMaterial_object]
      refine Value.Ordered.ext (mergeMembers_ordered hordered.members) hordered.members fun key => ?_
      rw [← mergeMaterial_object, mergeMaterial_get? hordered]
      cases hvalue : (Value.object changes).get? key with
      | none => rfl
      | some value =>
        have hne : value ≠ .null := by
          rintro rfl
          exact hnull [] key (Value.atPath_cons_eq_some.mpr ⟨_, hvalue, rfl⟩)
        rw [Option.elim_some, mergedMember, if_neg hne, Option.elim_some,
          ih key value hvalue (hordered.get? hvalue) fun path name hat =>
            hnull (key :: path) name (Value.atPath_cons_eq_some.mpr ⟨value, hvalue, hat⟩)]
    · exact mergeMaterial_of_delta delta hdelta

/-- A removable delta changes nothing the second time. -/
theorem settled (delta : Value) : ∀ {document : Value}, document.Ordered → delta.Ordered →
    Removable document delta →
      mergeMaterial (mergeMaterial document delta) delta = mergeMaterial document delta := by
  induction delta using Value.memberInduction with
  | step delta ih =>
    intro document hdocument hdelta hremovable
    rcases atPath_object_or delta with ⟨changes, rfl⟩ | hscalar
    · rcases atPath_object_or document with ⟨current, rfl⟩ | hscalar
      · have honce := @mergeMembers_ordered changes _ hdocument.members
        rw [mergeMaterial_object, mergeMaterial_object]
        refine Value.Ordered.ext (mergeMembers_ordered honce) honce fun key => ?_
        rw [← mergeMaterial_object, mergeMaterial_get? hdelta, ← mergeMaterial_object,
          mergeMaterial_get? hdelta]
        cases hvalue : (Value.object changes).get? key with
        | none => rfl
        | some value =>
          by_cases hnull : value = .null
          · rw [Option.elim_some, Option.elim_some, mergedMember, mergedMember, if_pos hnull,
              if_pos hnull]
          · simp only [Option.elim_some, mergedMember, if_neg hnull]
            cases hprior : (Value.object current).get? key with
            | none =>
              have hself := mergeMaterial_self value (hdelta.get? hvalue) fun path name hat => by
                obtain ⟨members, hmembers⟩ :=
                  hremovable.absent hprior hvalue .null path name hat
                cases path <;> cases hmembers
              simp only [Option.elim_none, hself]
            | some prior =>
              simp only [Option.elim_some]
              rw [ih key value hvalue (hdocument.get? hprior) (hdelta.get? hvalue)
                (hremovable.get? hprior hvalue)]
      · rw [mergeMaterial_of_document hscalar]
        refine mergeMaterial_self _ hdelta fun path name hat => ?_
        obtain ⟨members, hmembers⟩ := hremovable path name hat
        cases path with
        | nil => exact hscalar members (Option.some.inj hmembers)
        | cons first path =>
          rw [Value.atPath_cons_of_get?_none (Value.get?_of_not_object hscalar first)] at hmembers
          cases hmembers
    · rw [mergeMaterial_of_delta _ hscalar, mergeMaterial_of_delta _ hscalar]

/-- **A merged document obeys the laws of a merge patch exactly when every null of the delta stands
where the document has an object to remove from.** -/
theorem mergePatch_iff {document delta : Value} (hdocument : document.Ordered)
    (hdelta : delta.Ordered) :
    MergePatch document delta (mergeMaterial document delta) ↔ Removable document delta := by
  constructor
  · intro M path name hat
    exact (removed_iff hdelta hat).mp (M.removed path name hat)
  · intro hremovable
    exact {
      removed := fun path name hat => (removed_iff hdelta hat).mpr (hremovable path name hat)
      placed := fun path value hnull hobject hat => placed hnull hobject hdelta hat
      kept := fun path huntouched => kept hdelta huntouched
      settled := settled delta hdocument hdelta hremovable }

/-! ### A null under a name the document lacks -/

/-- `proof` takes any members: the proposed document keeps the null. -/
def sampleProof : Value := .object [("proof", .object [])]

def sampleDelta : Value :=
  .object [("proof", .object [("accepted", .object [("note", .null)])])]

theorem sample_ordered : sampleProof.Ordered ∧ sampleDelta.Ordered := by
  have hempty : (Value.object []).Ordered :=
    Value.ordered_of_get? (fun members h => by cases h; exact List.Pairwise.nil)
      fun key w hw => by cases hw
  exact ⟨hempty.singleton, ((Value.ordered_of_not_object (by simp)).singleton).singleton.singleton⟩

theorem mergePatch_iff_proof :
    MergePatch sampleProof sampleDelta (mergeMaterial sampleProof sampleDelta) ↔
      Removable sampleProof sampleDelta :=
  mergePatch_iff sample_ordered.1 sample_ordered.2

/-- The null stays in the merged document, and the same delta then removes it. -/
theorem mergePatch_proof_fails :
    sampleDelta.atPath ["proof", "accepted", "note"] = some .null ∧
      (mergeMaterial sampleProof sampleDelta).atPath ["proof", "accepted", "note"] = some .null ∧
      mergeMaterial (mergeMaterial sampleProof sampleDelta) sampleDelta ≠
        mergeMaterial sampleProof sampleDelta ∧
      ¬MergePatch sampleProof sampleDelta (mergeMaterial sampleProof sampleDelta) := by
  have hstays : (mergeMaterial sampleProof sampleDelta).atPath ["proof", "accepted", "note"] =
      some .null := by decide
  refine ⟨by decide, hstays, by decide, fun M => ?_⟩
  have hgone := M.removed ["proof", "accepted"] "note" (by decide)
  rw [List.cons_append, List.cons_append, List.nil_append, hstays] at hgone
  cases hgone

end AgenticCore.PlanningUpdate
