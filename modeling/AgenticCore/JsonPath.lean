import AgenticCore.Json

/-!
# Object paths in a JSON value

* `atPath`              : the value at a path of member names.
* `memberInduction`     : induction from the members of an object to the object.
* `Ordered`             : every object on a path lists its members in the order of their names,
                          as the library's ordered map does.
* `Ordered.ext`         : two ordered objects with the same members are equal.
-/

set_option autoImplicit false

namespace Json

theorem insertMember_lookup_self (key : String) (v : Value) :
    ∀ members : List (String × Value), (Value.insertMember key v members).lookup key = some v
  | [] => by simp [Value.insertMember]
  | (k, w) :: rest => by
    rw [Value.insertMember]
    split
    · simp
    split
    · simp
    · rename_i hk
      have hne : (key == k) = false := by simpa using hk
      rw [List.lookup_cons, hne]
      exact insertMember_lookup_self key v rest

theorem mem_of_lookup {members : List (String × Value)} {key : String} {v : Value}
    (h : members.lookup key = some v) : (key, v) ∈ members := by
  induction members with
  | nil => cases h
  | cons member rest ih =>
    obtain ⟨k, w⟩ := member
    rw [List.lookup_cons] at h
    split at h
    · rename_i heq
      cases h
      rw [eq_of_beq heq]
      exact List.mem_cons_self
    · exact List.mem_cons_of_mem _ (ih h)

theorem Value.mem_of_get? {v w : Value} {key : String} (h : v.get? key = some w) :
    (key, w) ∈ v.asObject.getD [] := by
  cases v with
  | object members => exact mem_of_lookup h
  | null | bool | number | string | array => cases h

/-! ## Induction along members -/

theorem sizeOf_lookup_lt {members : List (String × Value)} {key : String} {v : Value}
    (h : members.lookup key = some v) : sizeOf v < sizeOf (Value.object members) := by
  have hmem := List.sizeOf_lt_of_mem (mem_of_lookup h)
  simp only [Prod.mk.sizeOf_spec, Value.object.sizeOf_spec] at hmem ⊢
  omega

theorem Value.get?_sizeOf_lt {v w : Value} {key : String} (h : v.get? key = some w) :
    sizeOf w < sizeOf v := by
  cases v with
  | object members => exact sizeOf_lookup_lt h
  | null | bool | number | string | array => cases h

/-- What holds of a value once it holds of its members holds of every value. -/
theorem Value.memberInduction {P : Value → Prop}
    (step : ∀ v, (∀ key w, v.get? key = some w → P w) → P v) (v : Value) : P v :=
  step v fun _ w _h => Value.memberInduction step w
termination_by sizeOf v
decreasing_by exact Value.get?_sizeOf_lt _h

/-! ## Paths -/

/-- The value at a path of member names. -/
def Value.atPath : Value → List String → Option Value
  | v, [] => some v
  | v, key :: path => (v.get? key).bind fun w => w.atPath path

@[simp] theorem Value.atPath_nil (v : Value) : v.atPath [] = some v := rfl

theorem Value.atPath_cons (v : Value) (key : String) (path : List String) :
    v.atPath (key :: path) = (v.get? key).bind fun w => w.atPath path := rfl

theorem Value.atPath_cons_of_get? {v w : Value} {key : String} (h : v.get? key = some w)
    (path : List String) : v.atPath (key :: path) = w.atPath path := by
  rw [Value.atPath_cons, h, Option.bind_some]

theorem Value.atPath_cons_of_get?_none {v : Value} {key : String} (h : v.get? key = none)
    (path : List String) : v.atPath (key :: path) = none := by
  rw [Value.atPath_cons, h, Option.bind_none]

theorem Value.atPath_cons_eq_some {v u : Value} {key : String} {path : List String} :
    v.atPath (key :: path) = some u ↔ ∃ w, v.get? key = some w ∧ w.atPath path = some u := by
  rw [Value.atPath_cons, Option.bind_eq_some_iff]

/-- Only an object has members. -/
theorem Value.get?_of_not_object {v : Value} (h : ∀ members, v ≠ .object members) (key : String) :
    v.get? key = none := by
  cases v with
  | object members => exact absurd rfl (h members)
  | null | bool | number | string | array => rfl

/-! ## Ordered values -/

/-- The members of every object on a path stand in the order of their names. -/
def Value.Ordered (v : Value) : Prop :=
  ∀ path members, v.atPath path = some (.object members) →
    (members.map Prod.fst).Pairwise (· < ·)

theorem Value.Ordered.members {members : List (String × Value)} (h : (Value.object members).Ordered) :
    (members.map Prod.fst).Pairwise (· < ·) :=
  h [] members rfl

theorem Value.Ordered.nodup {members : List (String × Value)} (h : (Value.object members).Ordered) :
    (members.map Prod.fst).Nodup :=
  h.members.imp fun hlt => ne_of_lt hlt

theorem Value.Ordered.get? {v w : Value} {key : String} (h : v.Ordered) (hw : v.get? key = some w) :
    w.Ordered := fun path members hat =>
  h (key :: path) members (Value.atPath_cons_eq_some.mpr ⟨w, hw, hat⟩)

/-- An ordered value is one whose members are in order and ordered themselves. -/
theorem Value.ordered_of_get? {v : Value}
    (hmembers : ∀ members, v = .object members → (members.map Prod.fst).Pairwise (· < ·))
    (h : ∀ key w, v.get? key = some w → w.Ordered) : v.Ordered := by
  intro path members hat
  cases path with
  | nil => exact hmembers members (Option.some.inj hat)
  | cons key path =>
    obtain ⟨w, hw, hat⟩ := Value.atPath_cons_eq_some.mp hat
    exact h key w hw path members hat

theorem Value.ordered_of_not_object {v : Value} (h : ∀ members, v ≠ .object members) : v.Ordered := by
  refine Value.ordered_of_get? (fun members hv => absurd hv (h members)) fun key w hw => ?_
  rw [Value.get?_of_not_object h] at hw
  cases hw

theorem Value.Ordered.singleton {name : String} {v : Value} (h : v.Ordered) :
    (Value.object [(name, v)]).Ordered := by
  refine Value.ordered_of_get? (fun members hmembers => ?_) fun key w hw => ?_
  · cases hmembers
    exact List.pairwise_singleton _ _
  · obtain ⟨-, rfl⟩ := Prod.mk.inj (List.mem_singleton.mp (mem_of_lookup hw))
    exact h

theorem mem_lookup_iff {members : List (String × Value)} (hnodup : (members.map Prod.fst).Nodup)
    {key : String} {v : Value} : members.lookup key = some v ↔ (key, v) ∈ members := by
  refine ⟨mem_of_lookup, fun h => ?_⟩
  induction members with
  | nil => cases h
  | cons member rest ih =>
    obtain ⟨k, w⟩ := member
    rw [List.map_cons, List.nodup_cons] at hnodup
    rcases List.mem_cons.mp h with heq | hmem
    · cases heq
      simp
    · have hne : (key == k) = false := by
        rw [beq_eq_false_iff_ne]
        rintro rfl
        exact hnodup.1 (List.mem_map.mpr ⟨_, hmem, rfl⟩)
      rw [List.lookup_cons, hne]
      exact ih hnodup.2 hmem

/-- Members in the order of their names are determined by what each name holds. -/
theorem members_ext {as bs : List (String × Value)} (ha : (as.map Prod.fst).Pairwise (· < ·))
    (hb : (bs.map Prod.fst).Pairwise (· < ·)) (h : ∀ key, as.lookup key = bs.lookup key) :
    as = bs := by
  have hna : (as.map Prod.fst).Nodup := ha.imp fun hlt => ne_of_lt hlt
  have hnb : (bs.map Prod.fst).Nodup := hb.imp fun hlt => ne_of_lt hlt
  have hperm : as.Perm bs := by
    rw [List.perm_ext_iff_of_nodup (List.Nodup.of_map _ hna) (List.Nodup.of_map _ hnb)]
    rintro ⟨key, v⟩
    rw [← mem_lookup_iff hna, ← mem_lookup_iff hnb, h]
  rw [List.pairwise_map] at ha hb
  refine hperm.eq_of_pairwise ?_ ha hb
  intro a b _ _ hab hba
  exact absurd hba (lt_asymm hab)

theorem Value.Ordered.ext {as bs : List (String × Value)} (ha : (as.map Prod.fst).Pairwise (· < ·))
    (hb : (bs.map Prod.fst).Pairwise (· < ·))
    (h : ∀ key, (Value.object as).get? key = (Value.object bs).get? key) :
    Value.object as = .object bs := by
  rw [members_ext ha hb h]

theorem mem_insertMember {key : String} {v : Value} {member : String × Value} :
    ∀ {members : List (String × Value)}, member ∈ Value.insertMember key v members →
      member = (key, v) ∨ member ∈ members
  | [], h => Or.inl (List.mem_singleton.mp h)
  | (k, w) :: rest, h => by
    rw [Value.insertMember] at h
    split at h
    · exact List.mem_cons.mp h
    split at h
    · exact (List.mem_cons.mp h).imp_right (List.mem_cons_of_mem _)
    · rcases List.mem_cons.mp h with rfl | h
      · exact Or.inr List.mem_cons_self
      · exact (mem_insertMember h).imp_right (List.mem_cons_of_mem _)

theorem insertMember_ordered (key : String) (v : Value) :
    ∀ {members : List (String × Value)}, (members.map Prod.fst).Pairwise (· < ·) →
      ((Value.insertMember key v members).map Prod.fst).Pairwise (· < ·)
  | [], _ => by simp [Value.insertMember]
  | (k, w) :: rest, h => by
    rw [List.map_cons, List.pairwise_cons] at h
    rw [Value.insertMember]
    split
    · rename_i hlt
      simp only [List.map_cons, List.pairwise_cons]
      refine ⟨?_, h⟩
      intro name hname
      rcases List.mem_cons.mp hname with rfl | hname
      · exact hlt
      · exact lt_trans hlt (h.1 name hname)
    split
    · rename_i heq
      rw [List.map_cons, List.pairwise_cons]
      exact ⟨heq ▸ h.1, h.2⟩
    · rename_i hnot hne
      rw [List.map_cons, List.pairwise_cons]
      refine ⟨?_, insertMember_ordered key v h.2⟩
      intro name hname
      obtain ⟨member, hmember, rfl⟩ := List.mem_map.mp hname
      rcases mem_insertMember hmember with rfl | hmember
      · exact lt_of_le_of_ne (not_lt.mp hnot) (Ne.symm hne)
      · exact h.1 _ (List.mem_map_of_mem hmember)

theorem filter_ordered {members : List (String × Value)} (p : String × Value → Bool)
    (h : (members.map Prod.fst).Pairwise (· < ·)) :
    ((members.filter p).map Prod.fst).Pairwise (· < ·) :=
  h.sublist (List.filter_sublist.map Prod.fst)

end Json
