import AgenticCore.JsonPath

/-!
# Schemas and tables

* `Schema`, `validates`  : the part of JSON schema that a ledger of rows is declared in.
* `memberSchema`         : what an object schema asks of one member.
* `loose`                : a value of such a schema stays valid when members are taken out of it.
* `keeps`                : a value states every member that its schema cannot let go.
* `plain`                : what a TOML document can say: no null, 64-bit integers, members in
                           the order of their names.
-/

set_option autoImplicit false

namespace Json

/-- `additional` is the schema of the members that `properties` does not list; there are no such
    members where it is `none`. -/
inductive Schema where
  | any
  | integer
  | string
  | array (items : Schema) (minItems : Nat)
  | object (required : List String) (properties : List (String × Schema))
      (additional : Option Schema)

mutual
def validates : Schema → Value → Bool
  | .any, _ => true
  | .integer, v =>
    match v with
    | .number (.int _) => true
    | _ => false
  | .string, v => v.asStr.isSome
  | .array items minItems, v =>
    match v with
    | .array values => decide (minItems ≤ values.length) && values.all fun w => validates items w
    | _ => false
  | .object required properties additional, v =>
    match v with
    | .object members =>
      (required.all fun key => (members.lookup key).isSome) &&
        members.all fun member => validatesMember properties
          (match additional with
          | none => false
          | some schema => validates schema member.2) member.1 member.2
    | _ => false

/-- The property named `key` decides, and `otherwise` where none is. -/
def validatesMember : List (String × Schema) → Bool → String → Value → Bool
  | [], otherwise, _, _ => otherwise
  | (name, schema) :: rest, otherwise, key, v =>
    if name = key then validates schema v else validatesMember rest otherwise key v
end

/-- The schema of the member `key`. -/
def memberSchema (properties : List (String × Schema)) (additional : Option Schema)
    (key : String) : Option Schema :=
  match properties with
  | [] => additional
  | (name, schema) :: rest =>
    if name = key then some schema else memberSchema rest additional key

theorem validatesMember_iff {properties : List (String × Schema)} {additional : Option Schema}
    {key : String} {v : Value} :
    validatesMember properties
        (match additional with
        | none => false
        | some schema => validates schema v) key v = true ↔
      ∃ schema, memberSchema properties additional key = some schema ∧
        validates schema v = true := by
  induction properties with
  | nil =>
    rw [memberSchema]
    cases additional with
    | none => simp [validatesMember]
    | some schema => simp [validatesMember]
  | cons property rest ih =>
    obtain ⟨name, schema⟩ := property
    rw [validatesMember, memberSchema]
    split
    · simp
    · exact ih

theorem validates_object {required : List String} {properties : List (String × Schema)}
    {additional : Option Schema} {v : Value} :
    validates (.object required properties additional) v = true ↔
      ∃ members, v = .object members ∧ (∀ key ∈ required, (members.lookup key).isSome) ∧
        ∀ key w, (key, w) ∈ members → ∃ schema,
          memberSchema properties additional key = some schema ∧ validates schema w = true := by
  cases v with
  | object members =>
    simp only [validates, Bool.and_eq_true, List.all_eq_true, validatesMember_iff,
      Value.object.injEq, exists_eq_left', Prod.forall]
  | null | bool | number | string | array => simp [validates]

theorem validates_array {items : Schema} {minItems : Nat} {v : Value} :
    validates (.array items minItems) v = true ↔
      ∃ values, v = .array values ∧ minItems ≤ values.length ∧
        ∀ w ∈ values, validates items w = true := by
  cases v with
  | array values =>
    simp only [validates, Bool.and_eq_true, List.all_eq_true, decide_eq_true_eq,
      Value.array.injEq, exists_eq_left']
  | null | bool | number | string | object => simp [validates]

theorem validates_string {v : Value} (h : validates .string v = true) : ∃ s, v = .string s := by
  cases v with
  | string s => exact ⟨s, rfl⟩
  | null | bool | number | array | object => simp [validates, Value.asStr] at h

/-! ## What may be taken out -/

mutual
def loose : Schema → Bool
  | .any | .integer | .string => true
  | .array _ minItems => decide (minItems = 0)
  | .object required properties additional =>
    required.isEmpty && looseMembers properties && looseAdditional additional

def looseAdditional : Option Schema → Bool
  | none => true
  | some schema => loose schema

def looseMembers : List (String × Schema) → Bool
  | [] => true
  | (_, schema) :: rest => loose schema && looseMembers rest
end

theorem looseMembers_memberSchema {properties : List (String × Schema)}
    {additional : Option Schema} {key : String} {schema : Schema}
    (h : looseMembers properties = true)
    (hadditional : looseAdditional additional = true)
    (hschema : memberSchema properties additional key = some schema) : loose schema = true := by
  induction properties with
  | nil =>
    rw [memberSchema] at hschema
    rw [hschema] at hadditional
    exact hadditional
  | cons property rest ih =>
    obtain ⟨name, own⟩ := property
    rw [looseMembers, Bool.and_eq_true] at h
    rw [memberSchema] at hschema
    split at hschema
    · cases hschema
      exact h.1
    · exact ih h.2 hschema

/-- Every member of a loose object is loose itself, and none is required. -/
theorem loose_object {required : List String} {properties : List (String × Schema)}
    {additional : Option Schema}
    (h : loose (.object required properties additional) = true) :
    required = [] ∧ ∀ key schema, memberSchema properties additional key = some schema →
      loose schema = true := by
  rw [loose, Bool.and_eq_true, Bool.and_eq_true, List.isEmpty_iff] at h
  exact ⟨h.1.1, fun key schema => looseMembers_memberSchema h.1.2 h.2⟩

mutual
def keeps : Schema → Value → Bool
  | .array items minItems, v =>
    match v with
    | .array values => decide (minItems = 0) && values.all fun w => keeps items w
    | _ => true
  | .object _ properties additional, v =>
    match v with
    | .object members =>
      (properties.all fun property => loose property.2 || (members.lookup property.1).isSome) &&
        looseAdditional additional &&
        members.all fun member => keepsMember properties
          (match additional with
          | none => true
          | some schema => keeps schema member.2) member.1 member.2
    | _ => true
  | _, _ => true

def keepsMember : List (String × Schema) → Bool → String → Value → Bool
  | [], otherwise, _, _ => otherwise
  | (name, schema) :: rest, otherwise, key, v =>
    if name = key then keeps schema v else keepsMember rest otherwise key v
end

theorem keepsMember_iff {properties : List (String × Schema)} {additional : Option Schema}
    {key : String} {v : Value} :
    keepsMember properties
        (match additional with
        | none => true
        | some schema => keeps schema v) key v = true ↔
      ∀ schema, memberSchema properties additional key = some schema →
        keeps schema v = true := by
  induction properties with
  | nil =>
    rw [memberSchema]
    cases additional with
    | none => simp [keepsMember]
    | some schema => simp [keepsMember]
  | cons property rest ih =>
    obtain ⟨name, schema⟩ := property
    rw [keepsMember, memberSchema]
    split
    · simp
    · exact ih

theorem memberSchema_loose {properties : List (String × Schema)} {additional : Option Schema}
    {members : List (String × Value)} {key : String} {schema : Schema}
    (hproperties : ∀ property ∈ properties,
      loose property.2 = true ∨ (members.lookup property.1).isSome = true)
    (hadditional : looseAdditional additional = true)
    (hkey : members.lookup key = none)
    (hschema : memberSchema properties additional key = some schema) : loose schema = true := by
  induction properties with
  | nil =>
    rw [memberSchema] at hschema
    rw [hschema] at hadditional
    exact hadditional
  | cons property rest ih =>
    obtain ⟨name, own⟩ := property
    rw [memberSchema] at hschema
    split at hschema
    · rename_i hname
      cases hschema
      rcases hproperties _ List.mem_cons_self with h | h
      · exact h
      · rw [hname, hkey] at h
        cases h
    · exact ih (fun property hmem => hproperties property (List.mem_cons_of_mem _ hmem)) hschema

/-- A member that the value does not state has a loose schema, and the members it states keep
    theirs. -/
theorem keeps_object {required : List String} {properties : List (String × Schema)}
    {additional : Option Schema} {members : List (String × Value)}
    (h : keeps (.object required properties additional) (.object members) = true) :
    (∀ key schema, members.lookup key = none →
      memberSchema properties additional key = some schema → loose schema = true) ∧
    ∀ key w schema, (key, w) ∈ members → memberSchema properties additional key = some schema →
      keeps schema w = true := by
  simp only [keeps, Bool.and_eq_true, List.all_eq_true, Bool.or_eq_true, keepsMember_iff] at h
  obtain ⟨⟨hproperties, hadditional⟩, hmembers⟩ := h
  exact ⟨fun key schema => memberSchema_loose hproperties hadditional,
    fun key w schema hmem => hmembers _ hmem schema⟩

/-! ## Tables -/

mutual
def Value.plain : Value → Bool
  | .null => false
  | .number (.int i) => decide (-(2 ^ 63) ≤ i ∧ i < 2 ^ 63)
  | .array items => plainItems items
  | .object members =>
    decide ((members.map Prod.fst).Pairwise (· < ·)) && plainMembers members
  | .bool _ | .number (.float _) | .string _ => true

def plainItems : List Value → Bool
  | [] => true
  | v :: rest => v.plain && plainItems rest

def plainMembers : List (String × Value) → Bool
  | [] => true
  | (_, v) :: rest => v.plain && plainMembers rest
end

theorem plain_array {items : List Value} :
    (Value.array items).plain = true ↔ ∀ v ∈ items, v.plain = true := by
  rw [Value.plain]
  induction items with
  | nil => simp [plainItems]
  | cons v rest ih => rw [plainItems, Bool.and_eq_true, ih, List.forall_mem_cons]

theorem plainMembers_iff {members : List (String × Value)} :
    plainMembers members = true ↔ ∀ key v, (key, v) ∈ members → v.plain = true := by
  induction members with
  | nil => simp [plainMembers]
  | cons member rest ih =>
    obtain ⟨name, w⟩ := member
    rw [plainMembers, Bool.and_eq_true, ih]
    constructor
    · rintro ⟨hw, hrest⟩ key v hmem
      rcases List.mem_cons.mp hmem with heq | hmem
      · cases heq
        exact hw
      · exact hrest key v hmem
    · intro h
      exact ⟨h name w List.mem_cons_self, fun key v hmem => h key v (List.mem_cons_of_mem _ hmem)⟩

theorem plain_object {members : List (String × Value)} :
    (Value.object members).plain = true ↔
      (members.map Prod.fst).Pairwise (· < ·) ∧ ∀ key v, (key, v) ∈ members → v.plain = true := by
  rw [Value.plain, Bool.and_eq_true, decide_eq_true_eq, plainMembers_iff]

theorem plain_ne_null {v : Value} (h : v.plain = true) : v ≠ .null := by
  rintro rfl
  cases h

theorem plain_get? {v w : Value} {key : String} (h : v.plain = true) (hw : v.get? key = some w) :
    w.plain = true := by
  cases v with
  | object members => exact (plain_object.mp h).2 key w (mem_of_lookup hw)
  | null | bool | number | string | array => cases hw

end Json
