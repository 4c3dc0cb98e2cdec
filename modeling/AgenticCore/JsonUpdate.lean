import AgenticCore.JsonPath

/-!
# Writing the members of an object

How the writes to one object compose, with no assumption on the order of its members.

* `insertMember_insertMember` : the last write to a member is the one that stays.
* `Value.insert_through`      : a member is written through the writes to other members.
* `Held`                      : an object in which writing a member changes nothing.
* `Held.insert`               : writes to other members keep that.
* `Value.remove_insert`       : removing a member forgets its last write.
* `field_foldl_insert`        : the members after several writes.
-/

set_option autoImplicit false

namespace Json

theorem insertMember_insertMember (key : String) (v w : Value) (members : List (String × Value)) :
    Value.insertMember key v (Value.insertMember key w members) =
      Value.insertMember key v members := by
  induction members with
  | nil => simp [Value.insertMember]
  | cons member rest ih =>
    obtain ⟨k, u⟩ := member
    rw [Value.insertMember]
    split
    · simp [Value.insertMember, *]
    split
    · simp [Value.insertMember, *]
    · rw [Value.insertMember, if_neg ‹_›, if_neg ‹_›, ih, Value.insertMember, if_neg ‹_›,
        if_neg ‹_›]

theorem Value.insert_insert (obj : Value) (key : String) (v w : Value) :
    (obj.insert key w).insert key v = obj.insert key v := by
  cases obj with
  | object members => exact congrArg Value.object (insertMember_insertMember key v w members)
  | null => simp [Value.insert, Value.insertMember]
  | bool | number | string | array => rfl

theorem insertMember_filter (key : String) (v : Value) (members : List (String × Value)) :
    (Value.insertMember key v members).filter (·.1 ≠ key) = members.filter (·.1 ≠ key) := by
  induction members with
  | nil => simp [Value.insertMember]
  | cons member rest ih =>
    obtain ⟨k, u⟩ := member
    rw [Value.insertMember]
    split
    · simp
    split
    · rename_i hk
      simp [hk]
    · rw [List.filter_cons, List.filter_cons, ih]

theorem Value.remove_insert {obj : Value} (h : obj.isObject = true) (key : String) (v : Value) :
    (obj.insert key v).remove key = obj.remove key := by
  cases obj with
  | object members => exact congrArg Value.object (insertMember_filter key v members)
  | null | bool | number | string | array => cases h

theorem Value.remove_remove (obj : Value) (key : String) :
    (obj.remove key).remove key = obj.remove key := by
  cases obj with
  | object members =>
    refine congrArg Value.object ?_
    rw [List.filter_filter]
    simp
  | null | bool | number | string | array => rfl

theorem lookup_ne_none {members : List (String × Value)} {key : String} {v : Value}
    (h : (key, v) ∈ members) : members.lookup key ≠ none := by
  induction members with
  | nil => cases h
  | cons member rest ih =>
    rw [List.lookup_cons]
    split
    · simp
    · rename_i hne
      rcases List.mem_cons.mp h with rfl | h
      · simp at hne
      · exact ih h

theorem Value.remove_absent {obj : Value} {key : String} (h : obj.get? key = none) :
    obj.remove key = obj := by
  cases obj with
  | object members =>
    refine congrArg Value.object (List.filter_eq_self.mpr ?_)
    rintro ⟨name, v⟩ hmem
    rw [decide_eq_true_eq]
    rintro rfl
    exact absurd h (lookup_ne_none hmem)
  | null | bool | number | string | array => rfl

/-- A value whose members can be written: an object, or a null that is made one. -/
def Value.Writable (obj : Value) : Prop := obj.isObject = true ∨ obj = .null

theorem Value.Writable.insert_isObject {obj : Value} (h : obj.Writable) (key : String) (v : Value) :
    (obj.insert key v).isObject = true := by
  cases obj with
  | object members => rfl
  | null => rfl
  | bool | number | string | array => simp [Value.Writable, Value.isObject, Value.asObject] at h

theorem Value.Writable.get?_insert_self {obj : Value} (h : obj.Writable) (key : String)
    (v : Value) :
    (obj.insert key v).get? key = some v := by
  cases obj with
  | object members => exact insertMember_lookup_self key v members
  | null => simp [Value.insert, Value.get?]
  | bool | number | string | array => simp [Value.Writable, Value.isObject, Value.asObject] at h

theorem Value.Writable.field_insert_self {obj : Value} (h : obj.Writable) (key : String)
    (v : Value) : (obj.insert key v).field key = v := by
  rw [Value.field, h.get?_insert_self, Option.getD_some]

/-- The members named are all written, and no other. -/
theorem Value.Writable.field_foldl_insert {f : String → Value} {key : String} :
    ∀ {names : List String} {obj : Value}, obj.Writable →
      (names.foldl (fun obj name => obj.insert name (f name)) obj).field key =
        if key ∈ names then f key else obj.field key
  | [], obj, _ => by simp
  | name :: names, obj, h => by
    have hinsert : (obj.insert name (f name)).Writable := Or.inl (h.insert_isObject name (f name))
    rw [List.foldl_cons, hinsert.field_foldl_insert]
    by_cases hmem : key ∈ names
    · rw [if_pos hmem, if_pos (List.mem_cons_of_mem name hmem)]
    rw [if_neg hmem]
    by_cases hkey : key = name
    · subst hkey
      rw [h.field_insert_self, if_pos List.mem_cons_self]
    · rw [Value.field_insert_of_ne hkey, if_neg (by simp [hkey, hmem])]

theorem isObject_foldl_insert {f : String → Value} :
    ∀ {names : List String} {obj : Value}, obj.isObject = true →
      (names.foldl (fun obj name => obj.insert name (f name)) obj).isObject = true
  | [], _, h => h
  | name :: _, _, h => by
    rw [List.foldl_cons]
    exact isObject_foldl_insert (Value.Writable.insert_isObject (Or.inl h) name (f name))

/-- Writing `v` to the member changes nothing. -/
def Held (obj : Value) (key : String) (v : Value) : Prop := obj.insert key v = obj

theorem held_insert (obj : Value) (key : String) (v : Value) : Held (obj.insert key v) key v :=
  obj.insert_insert key v v

theorem insertMember_at (key : String) (v u : Value) (rest : List (String × Value)) :
    Value.insertMember key v ((key, u) :: rest) = (key, v) :: rest := by
  rw [Value.insertMember, if_neg (lt_irrefl key), if_pos rfl]

theorem insertMember_after {key k : String} (hlt : ¬key < k) (hne : key ≠ k) (v u : Value)
    (rest : List (String × Value)) :
    Value.insertMember key v ((k, u) :: rest) = (k, u) :: Value.insertMember key v rest := by
  rw [Value.insertMember, if_neg hlt, if_neg hne]

theorem insertMember_front {key k : String} (hlt : key < k) (v u : Value)
    (rest : List (String × Value)) :
    Value.insertMember key v ((k, u) :: rest) = (key, v) :: (k, u) :: rest := by
  rw [Value.insertMember, if_pos hlt]

theorem insertMember_through_at {key other : String} (hne : key ≠ other) (v u w : Value)
    (rest : List (String × Value)) :
    Value.insertMember key v (Value.insertMember other w ((key, u) :: rest)) =
      Value.insertMember other w ((key, v) :: rest) := by
  rcases lt_trichotomy other key with hlt | heq | hgt
  · rw [insertMember_front hlt, insertMember_after (not_lt_of_gt hlt) hne, insertMember_at,
      insertMember_front hlt]
  · exact absurd heq.symm hne
  · rw [insertMember_after (not_lt_of_gt hgt) hne.symm, insertMember_at,
      insertMember_after (not_lt_of_gt hgt) hne.symm]

/-- The place of a member is found before any member that is written later, so a write to it
    passes through theirs. -/
theorem insertMember_through {key other : String} (hne : key ≠ other) (v u w : Value)
    (members : List (String × Value)) :
    Value.insertMember key v (Value.insertMember other w (Value.insertMember key u members)) =
      Value.insertMember other w (Value.insertMember key v members) := by
  induction members with
  | nil => exact insertMember_through_at hne v u w []
  | cons member rest ih =>
    obtain ⟨k, x⟩ := member
    by_cases hfront : key < k
    · rw [insertMember_front hfront, insertMember_front hfront]
      exact insertMember_through_at hne v u w _
    by_cases hkey : key = k
    · subst hkey
      rw [insertMember_at, insertMember_at]
      exact insertMember_through_at hne v u w rest
    rw [insertMember_after hfront hkey, insertMember_after hfront hkey]
    rcases lt_trichotomy other k with hlt | rfl | hgt
    · have hbefore : ¬key < other := fun hko => hfront (hko.trans hlt)
      rw [insertMember_front hlt, insertMember_after hbefore hne, insertMember_after hfront hkey,
        insertMember_insertMember, insertMember_front hlt]
    · rw [insertMember_at, insertMember_after hfront hkey, insertMember_insertMember,
      insertMember_at]
    · rw [insertMember_after (not_lt_of_gt hgt) (ne_of_gt hgt), insertMember_after hfront hkey,
        ih, insertMember_after (not_lt_of_gt hgt) (ne_of_gt hgt)]

theorem Value.insert_through {key other : String} (hne : key ≠ other) (obj v u w : Value) :
    ((obj.insert key u).insert other w).insert key v = (obj.insert key v).insert other w := by
  cases obj with
  | object members => exact congrArg Value.object (insertMember_through hne v u w members)
  | null => exact congrArg Value.object (insertMember_through hne v u w [])
  | bool | number | string | array => rfl

theorem Held.insert {obj : Value} {key other : String} {v : Value} (h : Held obj key v)
    (hne : key ≠ other) (w : Value) : Held (obj.insert other w) key v := by
  have hthrough := Value.insert_through hne obj v v w
  rw [h] at hthrough
  exact hthrough

theorem insertMember_filter_lt {key other : String} (hlt : other < key) (v : Value)
    (members : List (String × Value)) :
    Value.insertMember key v (members.filter (·.1 ≠ other)) =
      (Value.insertMember key v members).filter (·.1 ≠ other) := by
  induction members with
  | nil => simp [Value.insertMember, ne_of_gt hlt]
  | cons member rest ih =>
    obtain ⟨k, u⟩ := member
    by_cases hk : k = other
    · subst hk
      rw [List.filter_cons_of_neg (by simp), insertMember_after (not_lt_of_gt hlt) (ne_of_gt hlt),
        List.filter_cons_of_neg (by simp), ih]
    rw [List.filter_cons_of_pos (by simpa using hk)]
    by_cases hfront : key < k
    · rw [insertMember_front hfront, insertMember_front hfront,
        List.filter_cons_of_pos (by simpa using ne_of_gt hlt),
        List.filter_cons_of_pos (by simpa using hk)]
    by_cases hkey : key = k
    · subst hkey
      rw [insertMember_at, insertMember_at, List.filter_cons_of_pos (by simpa using hk)]
    · rw [insertMember_after hfront hkey, insertMember_after hfront hkey,
        List.filter_cons_of_pos (by simpa using hk), ih]

/-- A member is written where it would be with a smaller one removed. -/
theorem Value.insert_remove {key other : String} (hlt : other < key) (obj v : Value) :
    (obj.remove other).insert key v = (obj.insert key v).remove other := by
  cases obj with
  | object members => exact congrArg Value.object (insertMember_filter_lt hlt v members)
  | null =>
    refine congrArg Value.object ?_
    rw [List.filter_cons_of_pos (by simpa using ne_of_gt hlt)]
    rfl
  | bool | number | string | array => rfl

end Json
