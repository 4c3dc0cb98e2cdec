import AgenticCore.Text

/-!
# JSON values

The values of the source's JSON library: `Value`, its accessors, and objects built from
literals. Objects keep their members sorted by name, as the library's ordered map does, so every
object written out below lists its members in that order. A number outside the integers is kept
as the text it prints as; no computation is ever done on it.
-/

set_option autoImplicit false

namespace Json

def numberChar (c : Char) : Bool := c.isDigit || c ∈ ['-', '+', '.', 'e', 'E']

/-- What is left after one or more digits. -/
def skipDigits (cs : List Char) : Option (List Char) :=
  match cs with
  | [] => none
  | c :: rest => if c.isDigit then some (rest.dropWhile Char.isDigit) else none

/-- What is left after the fraction or the exponent that a marker opens. -/
def skipMarked (markers signs cs : List Char) : Option (List Char) :=
  match cs with
  | [] => some []
  | c :: rest =>
    if c ∈ markers then
      match rest with
      | [] => none
      | d :: rest' => if d ∈ signs then skipDigits rest' else skipDigits rest
    else some cs

/-- A number in JSON syntax that has a fraction or an exponent. -/
def floatSyntax (cs : List Char) : Bool :=
  cs.all numberChar && cs.any (· ∈ ['.', 'e', 'E']) &&
    ((skipDigits (if cs.head? = some '-' then cs.tail else cs)).bind (skipMarked ['.'] [])
      |>.bind (skipMarked ['e', 'E'] ['+', '-'])) == some []

structure FloatText where
  chars : List Char
  valid : floatSyntax chars = true
  deriving DecidableEq, Repr

inductive Number where
  | int (i : Int)
  | float (text : FloatText)
  deriving DecidableEq, Repr

inductive Value where
  | null
  | bool (b : Bool)
  | number (n : Number)
  | string (s : String)
  | array (items : List Value)
  | object (members : List (String × Value))
  deriving Repr, Inhabited

mutual
def Value.decEq : (a b : Value) → Decidable (a = b)
  | .null, .null => isTrue rfl
  | .bool a, .bool b => decidable_of_iff (a = b) (by simp)
  | .number a, .number b => decidable_of_iff (a = b) (by simp)
  | .string a, .string b => decidable_of_iff (a = b) (by simp)
  | .array a, .array b =>
    match decEqItems a b with
    | isTrue h => isTrue (by rw [h])
    | isFalse h => isFalse (by simpa using h)
  | .object a, .object b =>
    match decEqMembers a b with
    | isTrue h => isTrue (by rw [h])
    | isFalse h => isFalse (by simpa using h)
  | .null, .bool _ | .null, .number _ | .null, .string _ | .null, .array _ | .null, .object _
  | .bool _, .null | .bool _, .number _ | .bool _, .string _ | .bool _, .array _
  | .bool _, .object _ | .number _, .null | .number _, .bool _ | .number _, .string _
  | .number _, .array _ | .number _, .object _ | .string _, .null | .string _, .bool _
  | .string _, .number _ | .string _, .array _ | .string _, .object _ | .array _, .null
  | .array _, .bool _ | .array _, .number _ | .array _, .string _ | .array _, .object _
  | .object _, .null | .object _, .bool _ | .object _, .number _ | .object _, .string _
  | .object _, .array _ => isFalse (by simp)
def decEqItems : (a b : List Value) → Decidable (a = b)
  | [], [] => isTrue rfl
  | [], _ :: _ | _ :: _, [] => isFalse (by simp)
  | a :: as, b :: bs =>
    match Value.decEq a b, decEqItems as bs with
    | isTrue h, isTrue hs => isTrue (by rw [h, hs])
    | isFalse h, _ => isFalse (by simp [h])
    | _, isFalse hs => isFalse (by simp [hs])
def decEqMembers : (a b : List (String × Value)) → Decidable (a = b)
  | [], [] => isTrue rfl
  | [], _ :: _ | _ :: _, [] => isFalse (by simp)
  | (k, a) :: as, (l, b) :: bs =>
    match decEq k l, Value.decEq a b, decEqMembers as bs with
    | isTrue hk, isTrue h, isTrue hs => isTrue (by rw [hk, h, hs])
    | isFalse hk, _, _ => isFalse (by simp [hk])
    | _, isFalse h, _ => isFalse (by simp [h])
    | _, _, isFalse hs => isFalse (by simp [hs])
end

instance : DecidableEq Value := Value.decEq

/-- Optional texts, as `asStr` reads them, have a lawful equality. -/
instance lawfulBEqOptionString : LawfulBEq (Option String) := inferInstance

namespace Value

/-- `value.get(key)`. -/
def get? (v : Value) (key : String) : Option Value :=
  match v with
  | .object members => members.lookup key
  | _ => none

/-- `value[key]`: null where there is no such member. -/
def field (v : Value) (key : String) : Value := (v.get? key).getD .null

def asStr : Value → Option String
  | .string s => some s
  | _ => none

def asArray : Value → Option (List Value)
  | .array items => some items
  | _ => none

def asObject : Value → Option (List (String × Value))
  | .object members => some members
  | _ => none

def asU64 : Value → Option Nat
  | .number (.int i) => if 0 ≤ i then some i.toNat else none
  | _ => none

def isObject (v : Value) : Bool := v.asObject.isSome

def ofNat (n : Nat) : Value := .number (.int n)

def strings (l : List String) : Value := .array (l.map .string)

/-- The fields a struct without further fields is read from: an object with no other member, or
    an array with the fields in order. -/
def structFields (fields : List String) (v : Value) : Option (String → Option Value) :=
  match v with
  | .object members =>
    if members.all (·.1 ∈ fields) then some fun name => members.lookup name else none
  | .array items =>
    if items.length ≤ fields.length then some fun name => (fields.zip items).lookup name else none
  | _ => none

/-- Insertion into the ordered member list. -/
def insertMember (key : String) (v : Value) : List (String × Value) → List (String × Value)
  | [] => [(key, v)]
  | (k, w) :: rest =>
    if key < k then (key, v) :: (k, w) :: rest
    else if key = k then (key, v) :: rest
    else (k, w) :: insertMember key v rest

/-- `object.insert(key, v)` and `object[key] = v`. -/
def insert (obj : Value) (key : String) (v : Value) : Value :=
  match obj with
  | .object members => .object (insertMember key v members)
  | .null => .object [(key, v)]
  | other => other

/-- `object.remove(key)`. -/
def remove (obj : Value) (key : String) : Value :=
  match obj with
  | .object members => .object (members.filter (·.1 ≠ key))
  | other => other

/-- An object literal in which a `none` member is left out (`skip_serializing_if`). -/
def record (members : List (String × Option Value)) : Value :=
  .object (members.filterMap fun (k, v) => v.map (k, ·))

/-- An optional member that is written as null when absent. -/
def orNull : Option Value → Value := fun v => v.getD .null

end Value

theorem asObject_eq_some {v : Value} {members : List (String × Value)} :
    v.asObject = some members ↔ v = .object members := by
  cases v <;> simp [Value.asObject]

/-! ## Removed members -/

theorem lookup_absent {β : Type} {key : String} {members : List (String × β)}
    (h : key ∉ members.map Prod.fst) : members.lookup key = none := by
  rw [List.lookup_eq_none_iff]
  intro member hmember
  exact bne_iff_ne.mpr fun heq => h (List.mem_map.mpr ⟨member, hmember, heq.symm⟩)

theorem lookup_filter_mem (names : List String) (key : String) :
    ∀ members : List (String × Value), (members.filter (·.1 ∈ names)).lookup key =
      if key ∈ names then members.lookup key else none
  | [] => by simp
  | (name, v) :: members => by
    have ih := lookup_filter_mem names key members
    by_cases hname : name ∈ names
    · rw [List.filter_cons_of_pos (by simpa using hname), List.lookup_cons, List.lookup_cons, ih]
      by_cases hkey : key = name
      · simp [hkey, hname]
      · rw [beq_false_of_ne hkey]
    · rw [List.filter_cons_of_neg (by simpa using hname), ih, List.lookup_cons]
      by_cases hkey : key = name
      · rw [hkey, if_neg hname, if_neg hname]
      · rw [beq_false_of_ne hkey]

theorem lookup_filter_ne {k k' : String} {members : List (String × Value)} (h : k' ≠ k) :
    (members.filter (·.1 ≠ k)).lookup k' = members.lookup k' := by
  induction members with
  | nil => rfl
  | cons member rest ih =>
    obtain ⟨key, v⟩ := member
    by_cases hkey : key = k
    · have hk : (k' == key) = false := by simpa [hkey] using h
      rw [List.filter_cons, if_neg (by simpa using hkey), List.lookup_cons, hk, ih]
    · rw [List.filter_cons, if_pos (by simpa using hkey), List.lookup_cons, List.lookup_cons, ih]

theorem lookup_filter_self {k : String} {members : List (String × Value)} :
    (members.filter (·.1 ≠ k)).lookup k = none := by
  rw [List.lookup_eq_none_iff]
  intro member hmember
  have hne := (List.mem_filter.mp hmember).2
  simp only [ne_eq, decide_not, Bool.not_eq_true', decide_eq_false_iff_not] at hne
  exact bne_iff_ne.mpr fun h => hne h.symm

theorem Value.get?_remove_self (v : Value) (key : String) : (v.remove key).get? key = none := by
  cases v with
  | object members => exact lookup_filter_self
  | null | bool | number | string | array => rfl

theorem Value.get?_remove_of_ne (v : Value) {key other : String} (h : other ≠ key) :
    (v.remove key).get? other = v.get? other := by
  cases v with
  | object members => exact lookup_filter_ne h
  | null | bool | number | string | array => rfl

theorem Value.field_remove_of_ne (v : Value) {key other : String} (h : other ≠ key) :
    (v.remove key).field other = v.field other := by
  rw [Value.field, Value.get?_remove_of_ne v h, Value.field]

/-! ## Inserted members and literals -/

theorem insertMember_lookup {key key' : String} (h : key' ≠ key) (v : Value) :
    ∀ members : List (String × Value),
      (Value.insertMember key v members).lookup key' = members.lookup key'
  | [] => by simp [Value.insertMember, h]
  | (k, w) :: rest => by
    have hne : (key' == key) = false := by simpa using h
    rw [Value.insertMember]
    split
    · rw [List.lookup_cons, hne]
    split
    · rename_i hk
      rw [List.lookup_cons, List.lookup_cons, hne, ← hk, hne]
    · rw [List.lookup_cons, List.lookup_cons, insertMember_lookup h v rest]

theorem Value.get?_insert_of_ne {key key' : String} (h : key' ≠ key) (obj v : Value) :
    (obj.insert key v).get? key' = obj.get? key' := by
  cases obj with
  | object members => exact insertMember_lookup h v members
  | null => simp [Value.insert, Value.get?, h]
  | bool | number | string | array => rfl

theorem Value.field_insert_of_ne {key key' : String} (h : key' ≠ key) (obj v : Value) :
    (obj.insert key v).field key' = obj.field key' := by
  rw [Value.field, Value.get?_insert_of_ne h, Value.field]

/-- A literal's members are the ones written, where they are not left out. -/
theorem record_get? {members : List (String × Option Value)}
    (hnodup : (members.map Prod.fst).Nodup) (key : String) :
    (Value.record members).get? key = (members.lookup key).join := by
  unfold Value.record Value.get?
  induction members with
  | nil => rfl
  | cons member rest ih =>
    obtain ⟨k, v⟩ := member
    rw [List.map_cons, List.nodup_cons] at hnodup
    rw [List.filterMap_cons, List.lookup_cons]
    by_cases hk : key = k
    · subst hk
      cases v with
      | some v => simp
      | none =>
        have habsent : rest.lookup key = none := lookup_absent hnodup.1
        have := ih hnodup.2
        simp only [habsent] at this
        simpa using this
    · have hne : (key == k) = false := by simpa using hk
      cases v with
      | some v => simpa [List.lookup_cons, hne] using ih hnodup.2
      | none => simpa [hne] using ih hnodup.2

/-- The fields of a literal that has no others. -/
theorem structFields_record {fields : List String} {members : List (String × Option Value)}
    (hfields : ∀ m ∈ members, m.1 ∈ fields) (hnodup : (members.map Prod.fst).Nodup) :
    (Value.record members).structFields fields =
      some fun name => (members.lookup name).join := by
  have hall : (members.filterMap fun (k, v) => v.map (k, ·)).all (·.1 ∈ fields) = true := by
    rw [List.all_eq_true]
    intro m hm
    obtain ⟨⟨k, v⟩, hmem, hv⟩ := List.mem_filterMap.mp hm
    obtain ⟨w, -, rfl⟩ := Option.map_eq_some_iff.mp hv
    exact decide_eq_true (hfields _ hmem)
  rw [Value.record, Value.structFields, if_pos hall]
  exact congrArg some (funext fun name => record_get? hnodup name)

/-! ## Objects built from the same literal are equal member by member -/

/-- **Two literals with the same distinct names are equal only when their members are.** -/
theorem record_inj {members : List (String × Option Value)}
    (hnodup : (members.map Prod.fst).Nodup) {members' : List (String × Option Value)}
    (hnames : members.map Prod.fst = members'.map Prod.fst)
    (h : Value.record members = Value.record members') : members = members' := by
  induction members generalizing members' with
  | nil => exact (List.map_eq_nil_iff.mp hnames.symm).symm
  | cons m members ih =>
    obtain ⟨k, v⟩ := m
    obtain ⟨⟨k', w⟩, members', rfl⟩ : ∃ m' rest, members' = m' :: rest := by
      cases members' with
      | nil => cases hnames
      | cons m' rest => exact ⟨m', rest, rfl⟩
    have hnodup' := hnames ▸ hnodup
    obtain ⟨rfl, hrest⟩ := List.cons.inj hnames
    have hvw : v = w := by
      have hget := congrArg (Value.get? · k) h
      rwa [record_get? hnodup, record_get? hnodup', List.lookup_cons_self, List.lookup_cons_self,
        Option.join_some, Option.join_some] at hget
    subst hvw
    rw [ih (List.nodup_cons.mp hnodup).2 hrest]
    cases v with
    | none => simpa [Value.record] using h
    | some v => simpa [Value.record] using h

theorem strings_inj {l l' : List String} : Value.strings l = Value.strings l' ↔ l = l' := by
  unfold Value.strings
  rw [Value.array.injEq, List.map_inj_right fun _ _ => Value.string.inj]

end Json
