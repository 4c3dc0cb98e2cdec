import AgenticCore.NativeOwnership

/-!
# Members and rows under the ownership merge

What the loops of retirement and composition do to one member of an object or to the row of a
section with one identity.

* `retireMembers_lookup`, `retireDropped_lookup`   : retirement, member by member.
* `composeMembers_lookup`, `composeMembers_error`  : composition, member by member.
* `removeDropped_stated`, `removeDropped_unstated` : removal, row by row.
* `composeRows_rowOf`, `composeRows_error`         : composition, row by row.
-/

set_option autoImplicit false

namespace AgenticCore

open Json

namespace NativeOwnership

/-! ## Members -/

theorem composeMembers_cons {key : String} {value : Value} {rest members : List (String × Value)}
    {prior : Value} {path : String} :
    composeMembers ((key, value) :: rest) members prior path =
      (composeValue ((members.lookup key).getD .null) value (prior.field key)
        (memberPath path key)).bind fun composed =>
          composeMembers rest (Value.insertMember key composed members) prior path := by
  rw [composeMembers]
  rfl

/-- Each fact is composed with the host's own member of its name, and other members stay. -/
theorem composeMembers_lookup {facts members result : List (String × Value)} {prior : Value}
    {path : String} (hnodup : (facts.map Prod.fst).Nodup)
    (h : composeMembers facts members prior path = .ok result) (key : String) :
    (facts.lookup key = none → result.lookup key = members.lookup key) ∧
    ∀ value, facts.lookup key = some value → ∃ composed, result.lookup key = some composed ∧
      composeValue ((members.lookup key).getD .null) value (prior.field key)
        (memberPath path key) = .ok composed := by
  induction facts generalizing members with
  | nil =>
    rw [composeMembers] at h
    cases h
    refine ⟨fun _ => rfl, ?_⟩
    intro value hvalue
    cases hvalue
  | cons fact rest ih =>
    obtain ⟨name, value⟩ := fact
    rw [List.map_cons, List.nodup_cons] at hnodup
    rw [composeMembers_cons] at h
    obtain ⟨composed, hcomposed, h⟩ := Except.bind_eq_ok_iff.mp h
    obtain ⟨habsent, hpresent⟩ := ih hnodup.2 h
    rw [List.lookup_cons]
    by_cases hname : key = name
    · subst hname
      have hrest : rest.lookup key = none := lookup_absent hnodup.1
      simp only [beq_self_eq_true, reduceCtorEq, false_implies, Option.some.injEq, true_and]
      rintro v rfl
      refine ⟨composed, ?_, hcomposed⟩
      rw [habsent hrest, insertMember_lookup_self]
    · have hne : (key == name) = false := by simpa using hname
      rw [insertMember_lookup hname] at habsent hpresent
      rw [hne]
      exact ⟨habsent, hpresent⟩

theorem composeMembers_error {facts members : List (String × Value)} {prior : Value}
    {path : String} {e : CoreError} (hnodup : (facts.map Prod.fst).Nodup)
    (h : composeMembers facts members prior path = .error e) :
    ∃ key value, facts.lookup key = some value ∧
      composeValue ((members.lookup key).getD .null) value (prior.field key)
        (memberPath path key) = .error e := by
  induction facts generalizing members with
  | nil =>
    rw [composeMembers] at h
    cases h
  | cons fact rest ih =>
    obtain ⟨name, value⟩ := fact
    rw [List.map_cons, List.nodup_cons] at hnodup
    rw [composeMembers_cons] at h
    cases hcomposed : composeValue ((members.lookup name).getD .null) value (prior.field name)
        (memberPath path name) with
    | error e' =>
      rw [hcomposed] at h
      cases h
      exact ⟨name, value, by simp, hcomposed⟩
    | ok composed =>
      rw [hcomposed] at h
      obtain ⟨key, v, hlookup, herror⟩ := ih hnodup.2 h
      have hne : key ≠ name := by
        rintro rfl
        rw [lookup_absent hnodup.1] at hlookup
        cases hlookup
      rw [insertMember_lookup hne] at herror
      refine ⟨key, v, ?_, herror⟩
      have hbeq : (key == name) = false := by simpa using hne
      rw [List.lookup_cons, hbeq]
      exact hlookup

theorem composeMembers_ordered {facts members result : List (String × Value)} {prior : Value}
    {path : String} (hmembers : (members.map Prod.fst).Pairwise (· < ·))
    (h : composeMembers facts members prior path = .ok result) :
    (result.map Prod.fst).Pairwise (· < ·) := by
  induction facts generalizing members with
  | nil =>
    rw [composeMembers] at h
    cases h
    exact hmembers
  | cons fact rest ih =>
    obtain ⟨name, value⟩ := fact
    rw [composeMembers_cons] at h
    obtain ⟨composed, -, h⟩ := Except.bind_eq_ok_iff.mp h
    exact ih (insertMember_ordered name composed hmembers) h

/-- What is left of a host value the package does not state, under one step. A row goes when it
    is the prior row; a member is retired. -/
def retired (path key : String) : (current old : Option Value) → Option Value
  | some current, some old => retireValue current old (memberPath path key)
  | current, _ => current

theorem retireMembers_lookup (old : List (String × Value)) (path : String)
    {members : List (String × Value)} (hnodup : (members.map Prod.fst).Nodup) (key : String) :
    (retireMembers members old path).lookup key =
      retired path key (members.lookup key) (old.lookup key) := by
  induction members with
  | nil =>
    rw [retireMembers]
    rfl
  | cons member rest ih =>
    obtain ⟨name, value⟩ := member
    rw [List.map_cons, List.nodup_cons] at hnodup
    have ih := ih hnodup.2
    rw [retireMembers, List.lookup_cons]
    by_cases hname : key = name
    · rw [← hname] at hnodup ⊢
      have hrest : rest.lookup key = none := lookup_absent hnodup.1
      rw [beq_self_eq_true]
      cases hold : old.lookup key with
      | none => simp [retired]
      | some prior =>
        cases hretire : retireValue value prior (memberPath path key) with
        | none => simp [retired, hretire, ih, hrest]
        | some kept => simp [retired, hretire]
    · have hne : (key == name) = false := by simpa using hname
      rw [hne, ← ih]
      split
      · rw [List.lookup_cons, hne]
      · split
        · rfl
        · rw [List.lookup_cons, hne]

theorem retireMembers_sublist (members old : List (String × Value)) (path : String) :
    ((retireMembers members old path).map Prod.fst).Sublist (members.map Prod.fst) := by
  induction members with
  | nil =>
    rw [retireMembers]
  | cons member rest ih =>
    obtain ⟨name, value⟩ := member
    rw [retireMembers]
    split
    · exact ih.cons_cons name
    · split
      · exact ih.cons name
      · exact ih.cons_cons name

/-- One prior fact touches the member it is about and no other. -/
theorem retireFact_lookup {facts members : List (String × Value)} {path name : String}
    {old : Value} (key : String) :
    (retireFact facts members path name old).lookup key =
      if key = name ∧ (facts.lookup key).isSome = false then
        retired path key (members.lookup key) (some old)
      else members.lookup key := by
  rw [retireFact]
  by_cases hname : key = name
  · rw [← hname]
    cases hfacts : (facts.lookup key).isSome with
    | true => simp
    | false =>
      simp only [Bool.false_eq_true, if_false, and_self, if_true]
      cases hmember : members.lookup key with
      | none => simp [hmember, retired]
      | some current =>
        simp only [retired]
        cases retireValue current old (memberPath path key) with
        | none => exact lookup_filter_self
        | some kept => exact insertMember_lookup_self key kept members
  · have hother : ¬(key = name ∧ (facts.lookup key).isSome = false) := fun h => hname h.1
    rw [if_neg hother]
    cases (facts.lookup name).isSome with
    | true => simp
    | false =>
      simp only [Bool.false_eq_true, if_false]
      cases members.lookup name with
      | none => rfl
      | some current =>
        simp only
        cases retireValue current old (memberPath path name) with
        | none => exact lookup_filter_ne hname
        | some kept => exact insertMember_lookup hname kept members

theorem retireDropped_lookup (facts members : List (String × Value)) (path : String)
    {old : List (String × Value)} (hnodup : (old.map Prod.fst).Nodup) (key : String) :
    (retireDropped facts path old members).lookup key =
      if (facts.lookup key).isSome then members.lookup key
      else retired path key (members.lookup key) (old.lookup key) := by
  induction old generalizing members with
  | nil =>
    rw [retireDropped]
    split
    · rfl
    · cases members.lookup key <;> rfl
  | cons fact rest ih =>
    obtain ⟨name, value⟩ := fact
    rw [List.map_cons, List.nodup_cons] at hnodup
    rw [retireDropped, ih _ hnodup.2, retireFact_lookup, List.lookup_cons]
    by_cases hname : key = name
    · have hrest : rest.lookup key = none := by
        rw [hname]
        exact lookup_absent hnodup.1
      cases hfacts : (facts.lookup key).isSome with
      | true => simp
      | false =>
        rw [hname] at hrest ⊢
        simp only [and_self, if_true, Bool.false_eq_true, if_false, hrest, beq_self_eq_true]
        cases retired path name (members.lookup name) (some value) <;> rfl
    · have hne : (key == name) = false := by simpa using hname
      have hother : ¬(key = name ∧ (facts.lookup key).isSome = false) := fun h => hname h.1
      rw [if_neg hother, hne]

theorem retireDropped_ordered {facts old members : List (String × Value)} {path : String}
    (hmembers : (members.map Prod.fst).Pairwise (· < ·)) :
    ((retireDropped facts path old members).map Prod.fst).Pairwise (· < ·) := by
  induction old generalizing members with
  | nil =>
    rw [retireDropped]
    exact hmembers
  | cons fact rest ih =>
    obtain ⟨name, value⟩ := fact
    rw [retireDropped]
    apply ih
    rw [retireFact]
    split
    · exact hmembers
    · split
      · exact hmembers
      · split
        · exact filter_ordered _ hmembers
        · exact insertMember_ordered _ _ hmembers

/-! ## Rows -/

/-- A row is an object that states its identity. -/
def IsRow (key : String) (row : Value) : Prop :=
  ∃ members identity, row = .object members ∧ members.lookup key = some (.string identity)

/-- The rows of a section are told apart by their identity. -/
def Keyed (key : String) (rows : List Value) : Prop :=
  (∀ row ∈ rows, IsRow key row) ∧ (rows.map fun row => row.field key).Nodup

theorem Keyed.sublist {key : String} {rows kept : List Value} (h : Keyed key rows)
    (hkept : kept.Sublist rows) : Keyed key kept :=
  ⟨fun row hrow => h.1 row (hkept.subset hrow), h.2.sublist (hkept.map _)⟩

/-- `rows.iter().find(|row| row[key] == identity)`. -/
def rowOf (key : String) (rows : List Value) (identity : Value) : Option Value :=
  rows.find? fun row => row.field key = identity

theorem rowOf_mem {key : String} {rows : List Value} {identity row : Value}
    (h : rowOf key rows identity = some row) : row ∈ rows ∧ row.field key = identity := by
  rw [rowOf] at h
  have hfield := List.find?_some h
  exact ⟨List.mem_of_find?_eq_some h, of_decide_eq_true hfield⟩

theorem rowOf_eq_some {key : String} {rows : List Value} {identity row : Value}
    (h : (rows.map fun row => row.field key).Nodup) :
    rowOf key rows identity = some row ↔ row ∈ rows ∧ row.field key = identity := by
  refine ⟨rowOf_mem, ?_⟩
  rintro ⟨hmem, hfield⟩
  induction rows with
  | nil => cases hmem
  | cons first rest ih =>
    rw [List.map_cons, List.nodup_cons] at h
    rw [rowOf, List.find?_cons]
    rcases List.mem_cons.mp hmem with rfl | hmem
    · rw [decide_eq_true hfield]
    · have hne : first.field key ≠ identity := by
        intro heq
        exact h.1 (List.mem_map.mpr ⟨row, hmem, hfield.trans heq.symm⟩)
      rw [decide_eq_false hne]
      exact ih h.2 hmem

theorem rowOf_eq_none {key : String} {rows : List Value} {identity : Value} :
    rowOf key rows identity = none ↔ ∀ row ∈ rows, row.field key ≠ identity := by
  simp [rowOf]

theorem removeRow_sublist (key : String) (package rows : List Value) (old : Value) :
    (removeRow key package rows old).Sublist rows := by
  rw [removeRow]
  split
  · exact List.Sublist.refl _
  · split
    · exact List.Sublist.refl _
    · split
      · exact List.eraseIdx_sublist _ _
      · exact List.Sublist.refl _

theorem mem_removeRow {key : String} {package rows : List Value} {old row : Value}
    (hrows : (rows.map fun row => row.field key).Nodup) :
    row ∈ removeRow key package rows old ↔
      row ∈ rows ∧ ¬(row = old ∧ ∀ p ∈ package, p.field key ≠ old.field key) := by
  rw [removeRow]
  split
  · rename_i hpackage
    simp only [List.any_eq_true, decide_eq_true_eq] at hpackage
    obtain ⟨p, hp, heq⟩ := hpackage
    refine ⟨fun h => ⟨h, ?_⟩, fun h => h.1⟩
    rintro ⟨-, hall⟩
    exact hall p hp heq
  rename_i hpackage
  simp only [List.any_eq_true, decide_eq_true_eq, not_exists, not_and] at hpackage
  have hnodup : rows.Nodup := List.Nodup.of_map _ hrows
  split
  · rename_i hnone
    rw [List.findIdx?_eq_none_iff] at hnone
    refine ⟨fun h => ⟨h, ?_⟩, fun h => h.1⟩
    rintro ⟨rfl, -⟩
    simpa using hnone row h
  · rename_i i hfound
    obtain ⟨hi, hfield, -⟩ := List.findIdx?_eq_some_iff_getElem.mp hfound
    rw [decide_eq_true_eq] at hfield
    split
    · rename_i hold
      obtain ⟨hi', hold⟩ := List.getElem?_eq_some_iff.mp hold
      rw [← hnodup.erase_getElem i hi, hold, hnodup.mem_erase_iff]
      constructor
      · rintro ⟨hne, hmem⟩
        exact ⟨hmem, fun h => hne h.1⟩
      · rintro ⟨hmem, hkept⟩
        exact ⟨fun h => hkept ⟨h, hpackage⟩, hmem⟩
    · rename_i hold
      refine ⟨fun h => ⟨h, ?_⟩, fun h => h.1⟩
      rintro ⟨rfl, -⟩
      -- The first row with the identity is the only one.
      have hsame : rows[i] = row :=
        List.inj_on_of_nodup_map hrows (List.getElem_mem hi) h hfield
      apply hold
      rw [List.getElem?_eq_getElem hi, hsame]

theorem removeDropped_sublist (key : String) (package : List Value) :
    ∀ old rows : List Value, (removeDropped key package old rows).Sublist rows
  | [], rows => by
    rw [removeDropped]
  | row :: rest, rows => by
    rw [removeDropped]
    exact (removeDropped_sublist key package rest _).trans (removeRow_sublist key package rows row)

theorem mem_removeDropped {key : String} {package old rows : List Value} {row : Value}
    (hrows : (rows.map fun row => row.field key).Nodup) :
    row ∈ removeDropped key package old rows ↔
      row ∈ rows ∧ ¬(row ∈ old ∧ ∀ p ∈ package, p.field key ≠ row.field key) := by
  induction old generalizing rows with
  | nil => simp [removeDropped]
  | cons first rest ih =>
    have hsublist := (removeRow_sublist key package rows first).map fun row => row.field key
    rw [removeDropped, ih (hrows.sublist hsublist), mem_removeRow hrows, List.mem_cons]
    constructor
    · rintro ⟨⟨hmem, hfirst⟩, hrest⟩
      refine ⟨hmem, ?_⟩
      rintro ⟨rfl | hold, hall⟩
      · exact hfirst ⟨rfl, hall⟩
      · exact hrest ⟨hold, hall⟩
    · rintro ⟨hmem, hkept⟩
      refine ⟨⟨hmem, ?_⟩, fun h => hkept ⟨Or.inr h.1, h.2⟩⟩
      rintro ⟨rfl, hall⟩
      exact hkept ⟨Or.inl rfl, hall⟩

/-- A row that the package states is not removed. -/
theorem removeDropped_stated {key : String} {package old rows : List Value} {p identity : Value}
    (hrows : (rows.map fun row => row.field key).Nodup)
    (hp : rowOf key package identity = some p) :
    rowOf key (removeDropped key package old rows) identity = rowOf key rows identity := by
  have hsublist := (removeDropped_sublist key package old rows).map fun row => row.field key
  obtain ⟨hmem, hfield⟩ := rowOf_mem hp
  apply Option.ext
  intro row
  rw [rowOf_eq_some (hrows.sublist hsublist), rowOf_eq_some hrows, mem_removeDropped hrows]
  constructor
  · rintro ⟨⟨hrow, -⟩, heq⟩
    exact ⟨hrow, heq⟩
  · rintro ⟨hrow, heq⟩
    exact ⟨⟨hrow, fun h => h.2 p hmem (hfield.trans heq.symm)⟩, heq⟩

/-- Where the rows that are old rows go, a row goes when it is the old row of its identity. -/
theorem rowOf_diff {key : String} {kept rows old : List Value} {identity : Value}
    (hrows : (rows.map fun row => row.field key).Nodup)
    (hold : (old.map fun row => row.field key).Nodup) (hsublist : kept.Sublist rows)
    (hmem : ∀ row, row.field key = identity → (row ∈ kept ↔ row ∈ rows ∧ row ∉ old)) :
    rowOf key kept identity =
      if rowOf key rows identity = rowOf key old identity then none
      else rowOf key rows identity := by
  apply Option.ext
  intro row
  rw [rowOf_eq_some (hrows.sublist (hsublist.map _))]
  constructor
  · rintro ⟨hkept, hfield⟩
    obtain ⟨hrow, hnew⟩ := (hmem row hfield).mp hkept
    have hown : rowOf key rows identity = some row := (rowOf_eq_some hrows).mpr ⟨hrow, hfield⟩
    rw [if_neg, hown]
    intro heq
    rw [hown] at heq
    exact hnew ((rowOf_eq_some hold).mp heq.symm).1
  · split
    · intro h
      cases h
    · rename_i hne
      intro hown
      obtain ⟨hrow, hfield⟩ := (rowOf_eq_some hrows).mp hown
      refine ⟨(hmem row hfield).mpr ⟨hrow, fun hmem => ?_⟩, hfield⟩
      rw [hown, (rowOf_eq_some hold).mpr ⟨hmem, hfield⟩] at hne
      exact hne rfl

/-- A row that the package does not state goes when it is the prior row. -/
theorem removeDropped_unstated {key : String} {package old rows : List Value} {identity : Value}
    (hrows : (rows.map fun row => row.field key).Nodup)
    (hold : (old.map fun row => row.field key).Nodup)
    (hp : rowOf key package identity = none) :
    rowOf key (removeDropped key package old rows) identity =
      if rowOf key rows identity = rowOf key old identity then none
      else rowOf key rows identity := by
  rw [rowOf_eq_none] at hp
  refine rowOf_diff hrows hold (removeDropped_sublist key package old rows) ?_
  rintro row rfl
  rw [mem_removeDropped hrows]
  constructor
  · rintro ⟨hrow, hkept⟩
    exact ⟨hrow, fun hmem => hkept ⟨hmem, hp⟩⟩
  · rintro ⟨hrow, hnew⟩
    exact ⟨hrow, fun h => hnew h.1⟩

/-- Putting a row in the place of the first with its identity. -/
theorem rowOf_set {key : String} {rows : List Value} {identity row : Value} {i : Nat}
    (hi : rows.findIdx? (fun current => current.field key = identity) = some i)
    (hrow : row.field key = identity) (other : Value) :
    rowOf key (rows.set i row) other = if other = identity then some row else rowOf key rows other := by
  induction rows generalizing i with
  | nil => cases hi
  | cons first rest ih =>
    rw [List.findIdx?_cons] at hi
    split at hi
    · rename_i hfirst
      rw [decide_eq_true_eq] at hfirst
      cases hi
      rw [List.set_cons_zero, rowOf, rowOf, List.find?_cons, List.find?_cons, hrow, hfirst]
      split
      · rename_i heq
        rw [decide_eq_true_eq] at heq
        rw [if_pos heq.symm]
      · rename_i hne
        rw [decide_eq_false_iff_not] at hne
        rw [if_neg fun h => hne h.symm]
    · rename_i hfirst
      rw [decide_eq_true_eq] at hfirst
      obtain ⟨j, hj, rfl⟩ := Option.map_eq_some_iff.mp hi
      have ih := ih hj
      rw [List.set_cons_succ, rowOf, rowOf, List.find?_cons, List.find?_cons]
      split
      · rename_i heq
        rw [decide_eq_true_eq] at heq
        rw [if_neg fun h => hfirst (heq.trans h)]
      · exact ih

theorem rowOf_append {key : String} {rows : List Value} {row : Value}
    (hrow : rowOf key rows (row.field key) = none) (other : Value) :
    rowOf key (rows ++ [row]) other =
      if other = row.field key then some row else rowOf key rows other := by
  rw [rowOf, List.find?_append]
  split
  · rename_i heq
    rw [rowOf] at hrow
    rw [heq, hrow]
    simp
  · rename_i hne
    have hlast : [row].find? (fun row => decide (row.field key = other)) = none := by
      rw [List.find?_singleton, if_neg]
      rw [decide_eq_true_eq]
      exact fun h => hne h.symm
    rw [hlast, Option.or_none, rowOf]

/-- The prior row a package row is composed with. -/
def priorRow (key : String) (prior identity : Value) : Value :=
  (prior.asArray.bind fun rows => rowOf key rows identity).getD .null

theorem composeRows_cons {key : String} {row : Value} {rest rows : List Value} {prior : Value}
    {path : String} :
    composeRows key (row :: rest) rows prior path =
      match rows.findIdx? fun current => current.field key = row.field key with
      | some i => (composeValue (rows[i]?.getD .null) row (priorRow key prior (row.field key))
          (rowPath path (row.field key))).bind fun composed =>
            composeRows key rest (rows.set i composed) prior path
      | none => composeRows key rest (rows ++ [row]) prior path := by
  rw [composeRows]
  rfl

/-- One package row: it joins the rows as it is, or is composed with the host's own row. -/
theorem composeRows_step (key : String) (row : Value) (rest rows : List Value) (prior : Value)
    (path : String) {result : Result (List Value)}
    (h : composeRows key (row :: rest) rows prior path = result) :
    (rowOf key rows (row.field key) = none ∧
      composeRows key rest (rows ++ [row]) prior path = result) ∨
    ∃ own i, rowOf key rows (row.field key) = some own ∧
      rows.findIdx? (fun current => current.field key = row.field key) = some i ∧
      rows[i]? = some own ∧
      (composeValue own row (priorRow key prior (row.field key))
        (rowPath path (row.field key))).bind (fun composed =>
          composeRows key rest (rows.set i composed) prior path) = result := by
  rw [composeRows_cons] at h
  split at h
  · rename_i i hi
    obtain ⟨hlt, hfield, hbefore⟩ := List.findIdx?_eq_some_iff_getElem.mp hi
    have hown : rowOf key rows (row.field key) = some rows[i] := by
      rw [rowOf, List.find?_eq_some_iff_getElem]
      exact ⟨hfield, i, hlt, rfl, fun j hj => by simpa using hbefore j hj⟩
    rw [List.getElem?_eq_getElem hlt, Option.getD_some] at h
    exact Or.inr ⟨rows[i], i, hown, hi, List.getElem?_eq_getElem hlt, h⟩
  · rename_i hnone
    refine Or.inl ⟨rowOf_eq_none.mpr fun current hcurrent => ?_, h⟩
    have := List.findIdx?_eq_none_iff.mp hnone current hcurrent
    rwa [decide_eq_false_iff_not] at this

/-! ## The cases of composition -/

theorem composeValue_null (package prior : Value) (path : String) :
    composeValue .null package prior path = .ok package := by
  unfold composeValue
  rw [if_pos rfl]

theorem composeValue_self (package prior : Value) (path : String) :
    composeValue package package prior path = .ok package := by
  unfold composeValue
  rw [if_pos rfl, ite_self]

/-- A package fact that the host does not have is added. -/
theorem composeMembers_added {key path : String} {value prior : Value}
    {rest members : List (String × Value)} (h : members.lookup key = none) :
    composeMembers ((key, value) :: rest) members prior path =
      composeMembers rest (Value.insertMember key value members) prior path := by
  rw [composeMembers_cons, h, Option.getD_none, composeValue_null]
  rfl

/-- One that it does have is composed with what the host has. -/
theorem composeMembers_merged {key path : String} {own value composed prior : Value}
    {rest members : List (String × Value)} (h : members.lookup key = some own)
    (hcompose : composeValue own value (prior.field key) (memberPath path key) = .ok composed) :
    composeMembers ((key, value) :: rest) members prior path =
      composeMembers rest (Value.insertMember key composed members) prior path := by
  rw [composeMembers_cons, h, Option.getD_some, hcompose]
  rfl

theorem composeValue_objects {members facts : List (String × Value)} (prior : Value)
    (path : String) (hne : members ≠ facts) :
    composeValue (.object members) (.object facts) prior path =
      (composeMembers facts (retireDropped facts path (prior.asObject.getD []) members) prior
        path).bind fun composed => .ok (.object composed) := by
  unfold composeValue
  rw [if_neg (fun h => nomatch h), if_neg (fun h => hne (Value.object.inj h))]
  simp only
  rfl

theorem composeValue_rows {own facts : List Value} (prior : Value) {path key : String}
    (hkey : rowIdentity path = some key) (hne : own ≠ facts) :
    composeValue (.array own) (.array facts) prior path =
      (composeRows key facts (removeDropped key facts (prior.asArray.getD []) own) prior
        path).bind fun composed => .ok (.array composed) := by
  unfold composeValue
  rw [if_neg (fun h => nomatch h), if_neg (fun h => hne (Value.array.inj h))]
  simp only [hkey]
  rfl

/-- Values merge under a path when both are objects, or both arrays at a section. -/
def Merges (path : String) (host package : Value) : Prop :=
  (host.isObject = true ∧ package.isObject = true) ∨
    ((rowIdentity path).isSome = true ∧ host.asArray.isSome = true ∧ package.asArray.isSome = true)

instance (path : String) (host package : Value) : Decidable (Merges path host package) :=
  inferInstanceAs (Decidable (_ ∨ _))

theorem composeValue_whole {host package : Value} (prior : Value) {path : String}
    (hnull : host ≠ .null) (hne : host ≠ package) (hmerges : ¬Merges path host package) :
    composeValue host package prior path = composeWhole host package prior path := by
  unfold composeValue
  rw [if_neg hnull, if_neg hne]
  cases package with
  | object facts =>
    cases host with
    | object members => exact absurd (Or.inl ⟨rfl, rfl⟩) hmerges
    | null | bool | number | string | array => rfl
  | array rows =>
    cases hkey : rowIdentity path with
    | none => simp only
    | some key =>
      cases host with
      | array own => exact absurd (Or.inr ⟨by rw [hkey]; rfl, rfl, rfl⟩) hmerges
      | null | bool | number | string | object => simp only [hkey, composeWhole]
  | null | bool | number | string => rfl

/-- What is not null is a value that a TOML document can say. -/
def PlainOrNull (v : Value) : Prop := v = .null ∨ v.plain = true

theorem PlainOrNull.child {child : Option Value} (h : ∀ v, child = some v → v.plain = true) :
    PlainOrNull (child.getD .null) := by
  cases child with
  | none => exact Or.inl rfl
  | some v => exact Or.inr (h v rfl)

theorem PlainOrNull.get? {v w : Value} {key : String} (h : PlainOrNull v)
    (hw : v.get? key = some w) : w.plain = true := by
  rcases h with rfl | h
  · cases hw
  · exact plain_get? h hw

theorem PlainOrNull.item {v w : Value} {items : List Value} (h : PlainOrNull v)
    (hv : v.asArray = some items) (hw : w ∈ items) : w.plain = true := by
  cases v with
  | array values =>
    cases hv
    rcases h with h | h
    · cases h
    · exact plain_array.mp h w hw
  | null | bool | number | string | object => cases hv

theorem PlainOrNull.members_nodup {v : Value} (h : PlainOrNull v) :
    ((v.asObject.getD []).map Prod.fst).Nodup := by
  cases v with
  | object members =>
    rcases h with h | h
    · cases h
    · exact (plain_object.mp h).1.imp fun hlt => ne_of_lt hlt
  | null | bool | number | string | array => exact List.nodup_nil

theorem asObject_lookup (v : Value) (key : String) :
    (v.asObject.getD []).lookup key = v.get? key := by
  cases v <;> rfl

theorem composeObject_ok {members facts : List (String × Value)} {prior result : Value}
    {path : String} (hne : members ≠ facts) (hfacts : (facts.map Prod.fst).Nodup)
    (hprior : PlainOrNull prior)
    (h : composeValue (.object members) (.object facts) prior path = .ok result) :
    ∃ composed, result = .object composed ∧ ∀ key,
      (facts.lookup key = none →
        composed.lookup key = retired path key (members.lookup key) (prior.get? key)) ∧
      ∀ value, facts.lookup key = some value → ∃ c, composed.lookup key = some c ∧
        composeValue ((members.lookup key).getD .null) value (prior.field key)
          (memberPath path key) = .ok c := by
  rw [composeValue_objects prior path hne] at h
  obtain ⟨composed, hcomposed, hresult⟩ := Except.bind_eq_ok_iff.mp h
  cases hresult
  refine ⟨composed, rfl, fun key => ?_⟩
  have hkept := retireDropped_lookup facts members path hprior.members_nodup key
  rw [asObject_lookup] at hkept
  obtain ⟨habsent, hpresent⟩ := composeMembers_lookup hfacts hcomposed key
  constructor
  · intro hnone
    rw [habsent hnone, hkept, hnone]
    rfl
  · intro value hvalue
    rw [hvalue, Option.isSome_some, if_pos rfl] at hkept
    rw [hkept] at hpresent
    exact hpresent value hvalue

theorem composeObject_error {members facts : List (String × Value)} {prior : Value}
    {path : String} {e : CoreError} (hne : members ≠ facts)
    (hfacts : (facts.map Prod.fst).Nodup) (hprior : PlainOrNull prior)
    (h : composeValue (.object members) (.object facts) prior path = .error e) :
    ∃ key value, facts.lookup key = some value ∧
      composeValue ((members.lookup key).getD .null) value (prior.field key)
        (memberPath path key) = .error e := by
  rw [composeValue_objects prior path hne] at h
  rcases Except.bind_eq_error_iff.mp h with hfailed | ⟨composed, -, hresult⟩
  case inr => cases hresult
  obtain ⟨key, value, hvalue, herror⟩ := composeMembers_error hfacts hfailed
  have hkept := retireDropped_lookup facts members path hprior.members_nodup key
  rw [hvalue, Option.isSome_some, if_pos rfl] at hkept
  rw [hkept] at herror
  exact ⟨key, value, hvalue, herror⟩

/-- A row keeps its identity. -/
theorem compose_row {key : String} {own row prior composed : Value} {path : String}
    (hown : IsRow key own) (hrow : IsRow key row) (hplain : row.plain = true)
    (hprior : PlainOrNull prior) (hsame : own.field key = row.field key)
    (h : composeValue own row prior path = .ok composed) :
    IsRow key composed ∧ composed.field key = row.field key := by
  obtain ⟨members, identity, rfl, hmember⟩ := hown
  obtain ⟨facts, identity', rfl, hfact⟩ := hrow
  have hfield : (Value.object members).field key = .string identity := by
    simp [Value.field, Value.get?, hmember]
  have hfield' : (Value.object facts).field key = .string identity' := by
    simp [Value.field, Value.get?, hfact]
  rw [hfield, hfield', Value.string.injEq] at hsame
  subst hsame
  by_cases hne : members = facts
  · subst hne
    rw [composeValue_self] at h
    cases h
    exact ⟨⟨members, identity, rfl, hmember⟩, rfl⟩
  have hnodup : (facts.map Prod.fst).Nodup := (plain_object.mp hplain).1.imp fun hlt => ne_of_lt hlt
  obtain ⟨result, rfl, hlookup⟩ := composeObject_ok hne hnodup hprior h
  obtain ⟨c, hc, hcompose⟩ := (hlookup key).2 _ hfact
  rw [hmember, Option.getD_some, composeValue_self] at hcompose
  cases hcompose
  refine ⟨⟨result, identity, rfl, hc⟩, ?_⟩
  rw [hfield']
  simp [Value.field, Value.get?, hc]

theorem priorRow_plain {prior : Value} (h : PlainOrNull prior) (key : String) (identity : Value) :
    PlainOrNull (priorRow key prior identity) := by
  refine PlainOrNull.child fun row hrow => ?_
  obtain ⟨rows, hrows, hrow⟩ := Option.bind_eq_some_iff.mp hrow
  exact h.item hrows (rowOf_mem hrow).1

theorem keyed_set {key : String} {rows : List Value} {row own : Value} {i : Nat}
    (h : (rows.map fun row => row.field key).Nodup) (hi : rows[i]? = some own)
    (hsame : row.field key = own.field key) :
    ((rows.set i row).map fun row => row.field key).Nodup := by
  have hmap : (rows.set i row).map (fun row => row.field key) =
      rows.map fun row => row.field key := by
    apply List.ext_getElem?
    intro j
    rw [List.map_set, List.getElem?_set]
    split
    · rename_i hij
      subst hij
      rw [List.getElem?_map, hi, Option.map_some, ← hsame, List.length_map]
      rw [if_pos (List.getElem?_eq_some_iff.mp hi).1]
    · rfl
  rw [hmap]
  exact h

/-- Each package row is composed with the host's own row of its identity, and other rows stay. -/
theorem composeRows_rowOf {key : String} {facts rows result : List Value} {prior : Value}
    {path : String} (hfacts : Keyed key facts) (hplain : ∀ fact ∈ facts, fact.plain = true)
    (hprior : PlainOrNull prior) (hrows : Keyed key rows)
    (h : composeRows key facts rows prior path = .ok result) :
    Keyed key result ∧ ∀ identity,
      (rowOf key facts identity = none → rowOf key result identity = rowOf key rows identity) ∧
      ∀ fact, rowOf key facts identity = some fact →
        ∃ c, rowOf key result identity = some c ∧
          composeValue ((rowOf key rows identity).getD .null) fact (priorRow key prior identity)
            (rowPath path identity) = .ok c := by
  induction facts generalizing rows with
  | nil =>
    rw [composeRows] at h
    cases h
    refine ⟨hrows, fun identity => ⟨fun _ => rfl, ?_⟩⟩
    intro fact hfact
    cases hfact
  | cons fact rest ih =>
    have hnodup := hfacts.2
    rw [List.map_cons, List.nodup_cons] at hnodup
    have hrest : Keyed key rest := hfacts.sublist (List.sublist_cons_self fact rest)
    have hrestPlain : ∀ row ∈ rest, row.plain = true := fun row hrow =>
      hplain row (List.mem_cons_of_mem fact hrow)
    have habsent : rowOf key rest (fact.field key) = none := by
      rw [rowOf_eq_none]
      intro row hrow heq
      exact hnodup.1 (List.mem_map.mpr ⟨row, hrow, heq⟩)
    -- What one package row does to the rows, however it joins them.
    suffices hstep : ∃ rows' c, Keyed key rows' ∧
        composeRows key rest rows' prior path = .ok result ∧
        composeValue ((rowOf key rows (fact.field key)).getD .null) fact
          (priorRow key prior (fact.field key)) (rowPath path (fact.field key)) = .ok c ∧
        ∀ other, rowOf key rows' other =
          if other = fact.field key then some c else rowOf key rows other by
      obtain ⟨rows', c, hkeyed, hcomposed, hc, hrowOf⟩ := hstep
      obtain ⟨hresult, hlookup⟩ := ih hrest hrestPlain hkeyed hcomposed
      refine ⟨hresult, fun identity => ?_⟩
      obtain ⟨hother, hown⟩ := hlookup identity
      rw [rowOf, List.find?_cons]
      by_cases hid : fact.field key = identity
      · subst hid
        simp only [decide_true, reduceCtorEq, false_implies, Option.some.injEq, true_and]
        rintro _ rfl
        refine ⟨c, ?_, hc⟩
        rw [hother habsent, hrowOf, if_pos rfl]
      · rw [hrowOf, if_neg (Ne.symm hid)] at hother hown
        rw [decide_eq_false hid]
        exact ⟨hother, hown⟩
    rcases composeRows_step _ _ _ _ _ _ h with ⟨hnone, hcomposed⟩ | ⟨own, i, hown, hi, hget, hcomposed⟩
    · refine ⟨rows ++ [fact], fact, ⟨?_, ?_⟩, hcomposed, ?_, rowOf_append hnone⟩
      · intro row hrow
        rcases List.mem_append.mp hrow with hrow | hrow
        · exact hrows.1 row hrow
        · rw [List.mem_singleton.mp hrow]
          exact hfacts.1 fact List.mem_cons_self
      · rw [List.map_append, List.map_singleton, List.nodup_append_comm, List.singleton_append,
          List.nodup_cons]
        refine ⟨?_, hrows.2⟩
        rw [List.mem_map]
        rintro ⟨row, hrow, heq⟩
        exact rowOf_eq_none.mp hnone row hrow heq
      · rw [hnone, Option.getD_none]
        exact composeValue_null _ _ _
    · obtain ⟨c, hc, hcomposed⟩ := Except.bind_eq_ok_iff.mp hcomposed
      obtain ⟨hmem, hfield⟩ := rowOf_mem hown
      obtain ⟨hrow, hsame⟩ := compose_row (hrows.1 own hmem) (hfacts.1 fact List.mem_cons_self)
        (hplain fact List.mem_cons_self) (priorRow_plain hprior key _) hfield hc
      refine ⟨rows.set i c, c, ⟨?_, ?_⟩, hcomposed, ?_, rowOf_set hi hsame⟩
      · intro row hrow'
        rcases List.mem_or_eq_of_mem_set hrow' with hrow' | rfl
        · exact hrows.1 row hrow'
        · exact hrow
      · exact keyed_set hrows.2 hget (hsame.trans hfield.symm)
      · rw [hown, Option.getD_some]
        exact hc

theorem composeRows_error {key : String} {facts rows : List Value} {prior : Value}
    {path : String} {e : CoreError} (hfacts : Keyed key facts)
    (hplain : ∀ fact ∈ facts, fact.plain = true) (hprior : PlainOrNull prior)
    (hrows : ∀ row ∈ rows, IsRow key row)
    (h : composeRows key facts rows prior path = .error e) :
    ∃ identity fact own, rowOf key facts identity = some fact ∧
      rowOf key rows identity = some own ∧
      composeValue own fact (priorRow key prior identity) (rowPath path identity) = .error e := by
  induction facts generalizing rows with
  | nil =>
    rw [composeRows] at h
    cases h
  | cons fact rest ih =>
    have hnodup := hfacts.2
    rw [List.map_cons, List.nodup_cons] at hnodup
    have hrest : Keyed key rest := hfacts.sublist (List.sublist_cons_self fact rest)
    have hrestPlain : ∀ row ∈ rest, row.plain = true := fun row hrow =>
      hplain row (List.mem_cons_of_mem fact hrow)
    have hhead : rowOf key (fact :: rest) (fact.field key) = some fact := by
      rw [rowOf, List.find?_cons, decide_eq_true rfl]
    -- A failure further on is at another identity, which this row leaves as it was.
    have hlater : ∀ rows' c, (∀ row ∈ rows', IsRow key row) →
        (∀ other, rowOf key rows' other =
          if other = fact.field key then some c else rowOf key rows other) →
        composeRows key rest rows' prior path = .error e →
        ∃ identity later own, rowOf key (fact :: rest) identity = some later ∧
          rowOf key rows identity = some own ∧
          composeValue own later (priorRow key prior identity) (rowPath path identity) =
            .error e := by
      intro rows' c hrows' hrowOf herror
      obtain ⟨identity, later, own, hlater, hown, herror⟩ := ih hrest hrestPlain hrows' herror
      have hne : identity ≠ fact.field key := by
        rintro rfl
        obtain ⟨hmem, hfield⟩ := rowOf_mem hlater
        exact hnodup.1 (List.mem_map.mpr ⟨later, hmem, hfield⟩)
      rw [hrowOf, if_neg hne] at hown
      refine ⟨identity, later, own, ?_, hown, herror⟩
      rw [rowOf, List.find?_cons, decide_eq_false (Ne.symm hne)]
      exact hlater
    rcases composeRows_step _ _ _ _ _ _ h with ⟨hnone, herror⟩ | ⟨own, i, hown, hi, hget, herror⟩
    · refine hlater (rows ++ [fact]) fact ?_ (rowOf_append hnone) herror
      intro row hrow
      rcases List.mem_append.mp hrow with hrow | hrow
      · exact hrows row hrow
      · rw [List.mem_singleton.mp hrow]
        exact hfacts.1 fact List.mem_cons_self
    · rcases Except.bind_eq_error_iff.mp herror with herror | ⟨c, hc, herror⟩
      · exact ⟨fact.field key, fact, own, hhead, hown, herror⟩
      · obtain ⟨hmem, hfield⟩ := rowOf_mem hown
        obtain ⟨hrow, hsame⟩ := compose_row (hrows own hmem) (hfacts.1 fact List.mem_cons_self)
          (hplain fact List.mem_cons_self) (priorRow_plain hprior key _) hfield hc
        refine hlater (rows.set i c) c ?_ (rowOf_set hi hsame) herror
        intro row hrow'
        rcases List.mem_or_eq_of_mem_set hrow' with hrow' | rfl
        · exact hrows row hrow'
        · exact hrow

end NativeOwnership

end AgenticCore
