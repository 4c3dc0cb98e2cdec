import AgenticCore.Json

/-!
# JSON texts

* `print`        : compact JSON text, with the escaping of string characters as a parameter.
* `parse`        : a JSON parser that keeps the members of objects as they stand in the text.
* `parse_print`  : **the text of a value parses back to it**, whatever the escaping.
* `print_inj`    : different values have different texts.
* `escape`       : the escapes of the source's JSON library.
-/

set_option autoImplicit false

namespace Json

/-! ## Printing -/

def hexDigit (n : Nat) : Char := Char.ofNat (if n < 10 then 48 + n else 87 + n)

def printInt (i : Int) : List Char :=
  if i < 0 then '-' :: Nat.toDigits 10 i.natAbs else Nat.toDigits 10 i.natAbs

def Number.print : Number → List Char
  | .int i => printInt i
  | .float text => text.chars

def quote (esc : Char → List Char) (s : String) : List Char :=
  '"' :: (s.toList.flatMap esc ++ ['"'])

mutual
def print (esc : Char → List Char) : Value → List Char
  | .null => ['n', 'u', 'l', 'l']
  | .bool true => ['t', 'r', 'u', 'e']
  | .bool false => ['f', 'a', 'l', 's', 'e']
  | .number n => n.print
  | .string s => quote esc s
  | .array items => '[' :: printItems esc [] items
  | .object members => '{' :: printMembers esc [] members
/-- The items up to the closing bracket, the first of them after `sep`. -/
def printItems (esc : Char → List Char) (sep : List Char) : List Value → List Char
  | [] => [']']
  | v :: rest => sep ++ (print esc v ++ printItems esc [','] rest)
def printMembers (esc : Char → List Char) (sep : List Char) : List (String × Value) → List Char
  | [] => ['}']
  | (k, v) :: rest => sep ++ (quote esc k ++ ':' :: (print esc v ++ printMembers esc [','] rest))
end

/-! ## Parsing -/

def hexValue (c : Char) : Option Nat :=
  if '0' ≤ c ∧ c ≤ '9' then some (c.toNat - 48)
  else if 'a' ≤ c ∧ c ≤ 'f' then some (c.toNat - 87)
  else if 'A' ≤ c ∧ c ≤ 'F' then some (c.toNat - 55)
  else none

def readHex4 : List Char → Option (Nat × List Char)
  | a :: b :: c :: d :: rest => do
    let a ← hexValue a
    let b ← hexValue b
    let c ← hexValue c
    let d ← hexValue d
    pure (((a * 16 + b) * 16 + c) * 16 + d, rest)
  | _ => none

/-- After `\u`: a scalar value, or a pair of surrogates. -/
def readUnicode (cs : List Char) : Option (Char × List Char) := do
  let (high, rest) ← readHex4 cs
  if 0xd800 ≤ high ∧ high < 0xdc00 then
    match rest with
    | '\\' :: 'u' :: rest => do
      let (low, rest) ← readHex4 rest
      if 0xdc00 ≤ low ∧ low < 0xe000 then
        pure (Char.ofNat (0x10000 + (high - 0xd800) * 0x400 + (low - 0xdc00)), rest)
      else none
    | _ => none
  else if 0xdc00 ≤ high ∧ high < 0xe000 then none
  else pure (Char.ofNat high, rest)

def readEscape : List Char → Option (Char × List Char)
  | '"' :: rest => some ('"', rest)
  | '\\' :: rest => some ('\\', rest)
  | '/' :: rest => some ('/', rest)
  | 'b' :: rest => some (Char.ofNat 8, rest)
  | 'f' :: rest => some (Char.ofNat 12, rest)
  | 'n' :: rest => some ('\n', rest)
  | 'r' :: rest => some ('\r', rest)
  | 't' :: rest => some ('\t', rest)
  | 'u' :: rest => readUnicode rest
  | _ => none

/-- One character of a string, or none at its closing quote. -/
def readChar : List Char → Option (Option Char × List Char)
  | [] => none
  | c :: rest =>
    if c = '"' then some (none, rest)
    else if c = '\\' then (readEscape rest).map fun (c, rest) => (some c, rest)
    else if c.toNat < 0x20 then none
    else some (some c, rest)

def readString : Nat → List Char → Option (List Char × List Char)
  | 0, _ => none
  | fuel + 1, cs =>
    match readChar cs with
    | none => none
    | some (none, rest) => some ([], rest)
    | some (some c, rest) => (readString fuel rest).map fun (s, rest) => (c :: s, rest)

/-- A natural number without leading zeros. -/
def readNat (cs : List Char) : Option Nat :=
  let n := Nat.ofDigitChars 10 cs 0
  if Nat.toDigits 10 n = cs then some n else none

/-- `-0` is a floating-point number to the source's library. -/
def readInt : List Char → Option Number
  | '-' :: digits =>
    (readNat digits).map fun n : Nat =>
      if n = 0 then .float ⟨['-', '0', '.', '0'], by decide⟩ else .int (-(n : Int))
  | digits => (readNat digits).map fun n : Nat => .int (n : Int)

def readNumber (cs : List Char) : Option Number :=
  if h : floatSyntax cs = true then some (.float ⟨cs, h⟩) else readInt cs

def space (c : Char) : Bool := c ∈ [' ', '\n', '\t', '\r']

def skipSpace (cs : List Char) : List Char := cs.dropWhile space

/-- The name of a member and its colon. -/
def readKey (cs : List Char) : Option (String × List Char) :=
  match skipSpace cs with
  | '"' :: rest => do
    let (k, rest) ← readString (rest.length + 1) rest
    match skipSpace rest with
    | ':' :: rest => some (String.ofList k, rest)
    | _ => none
  | _ => none

mutual
def readValue : Nat → List Char → Option (Value × List Char)
  | 0, _ => none
  | fuel + 1, cs =>
    match skipSpace cs with
    | 'n' :: 'u' :: 'l' :: 'l' :: rest => some (.null, rest)
    | 't' :: 'r' :: 'u' :: 'e' :: rest => some (.bool true, rest)
    | 'f' :: 'a' :: 'l' :: 's' :: 'e' :: rest => some (.bool false, rest)
    | '"' :: rest =>
      (readString (rest.length + 1) rest).map fun (s, rest) => (.string (String.ofList s), rest)
    | '[' :: rest => (readItems fuel true rest).map fun (items, rest) => (.array items, rest)
    | '{' :: rest => (readMembers fuel true rest).map fun (ms, rest) => (.object ms, rest)
    | cs =>
      (readNumber (cs.takeWhile numberChar)).map fun n => (.number n, cs.dropWhile numberChar)
/-- The items up to the closing bracket; every item but the first follows a comma. -/
def readItems : Nat → Bool → List Char → Option (List Value × List Char)
  | 0, _, _ => none
  | fuel + 1, first, cs =>
    match skipSpace cs with
    | ']' :: rest => some ([], rest)
    | c :: rest =>
      if first = false ∧ c ≠ ',' then none
      else do
        let (v, rest) ← readValue fuel (if first then c :: rest else rest)
        let (vs, rest) ← readItems fuel false rest
        pure (v :: vs, rest)
    | [] => none
def readMembers : Nat → Bool → List Char → Option (List (String × Value) × List Char)
  | 0, _, _ => none
  | fuel + 1, first, cs =>
    match skipSpace cs with
    | '}' :: rest => some ([], rest)
    | c :: rest =>
      if first = false ∧ c ≠ ',' then none
      else do
        let (k, rest) ← readKey (if first then c :: rest else rest)
        let (v, rest) ← readValue fuel rest
        let (ms, rest) ← readMembers fuel false rest
        pure ((k, v) :: ms, rest)
    | [] => none
end

/-- A whole text: one value and white space. -/
def parse (cs : List Char) : Option Value :=
  match readValue (cs.length + 1) cs with
  | some (v, rest) => if skipSpace rest = [] then some v else none
  | none => none

/-! ## Numbers -/

/-- What follows a value in a text: no character that could continue a number. -/
def Delimited (rest : List Char) : Prop := ∀ c ∈ rest.head?, numberChar c = false

theorem isDigit_numberChar {c : Char} (h : c.isDigit = true) : numberChar c = true := by
  simp [numberChar, h]

theorem toDigits_isDigit {n : Nat} {c : Char} (h : c ∈ Nat.toDigits 10 n) : c.isDigit = true :=
  Nat.isDigit_of_mem_toDigits (by decide) (by decide) h

theorem readNat_toDigits (n : Nat) : readNat (Nat.toDigits 10 n) = some n := by
  simp [readNat, Nat.ofDigitChars_ten_toDigits]

theorem printInt_numberChar {i : Int} : ∀ c ∈ printInt i, numberChar c = true := by
  intro c hc
  unfold printInt at hc
  split at hc
  · rcases List.mem_cons.mp hc with rfl | hc
    · decide
    · exact isDigit_numberChar (toDigits_isDigit hc)
  · exact isDigit_numberChar (toDigits_isDigit hc)

theorem floatSyntax_numberChar {cs : List Char} (h : floatSyntax cs = true) :
    ∀ c ∈ cs, numberChar c = true := by
  simp only [floatSyntax, Bool.and_eq_true, List.all_eq_true] at h
  exact h.1.1

theorem printInt_not_float {i : Int} : floatSyntax (printInt i) ≠ true := by
  intro h
  simp only [floatSyntax, Bool.and_eq_true, List.any_eq_true, decide_eq_true_eq] at h
  obtain ⟨c, hc, hmark⟩ := h.1.2
  have hdigit : c = '-' ∨ c.isDigit = true := by
    unfold printInt at hc
    split at hc
    · rcases List.mem_cons.mp hc with rfl | hc
      · exact Or.inl rfl
      · exact Or.inr (toDigits_isDigit hc)
    · exact Or.inr (toDigits_isDigit hc)
  simp only [List.mem_cons, List.not_mem_nil, or_false] at hmark
  rcases hmark with rfl | rfl | rfl <;> revert hdigit <;> decide

theorem printInt_ne_nil {i : Int} : printInt i ≠ [] := by
  unfold printInt
  split
  · simp
  · exact Nat.toDigits_ne_nil

theorem readInt_printInt (i : Int) : readInt (printInt i) = some (.int i) := by
  unfold printInt
  split
  · rename_i hneg
    simp only [readInt, readNat_toDigits, Option.map_some]
    rw [if_neg (by omega)]
    congr 2
    omega
  · rename_i hpos
    unfold readInt
    split
    · rename_i digits heq
      have : '-'.isDigit = true := toDigits_isDigit (n := i.natAbs) (by rw [heq]; simp)
      exact absurd this (by decide)
    · rw [readNat_toDigits, Option.map_some]
      congr 2
      omega

theorem readNumber_print (n : Number) : readNumber n.print = some n := by
  cases n with
  | float text =>
    obtain ⟨chars, valid⟩ := text
    simp [Number.print, readNumber, valid]
  | int i =>
    rw [Number.print, readNumber, dif_neg printInt_not_float, readInt_printInt]

theorem Number.print_numberChar (n : Number) : ∀ c ∈ n.print, numberChar c = true := by
  cases n with
  | int i => exact printInt_numberChar
  | float text => exact floatSyntax_numberChar text.valid

theorem Number.print_ne_nil (n : Number) : n.print ≠ [] := by
  cases n with
  | int i => exact printInt_ne_nil
  | float text =>
    intro hnil
    have := text.valid
    rw [show text.chars = [] from hnil] at this
    exact absurd this (by decide)

/-- A number is read back up to what follows it. -/
theorem span_number (n : Number) {rest : List Char} (hrest : Delimited rest) :
    (n.print ++ rest).takeWhile numberChar = n.print ∧
      (n.print ++ rest).dropWhile numberChar = rest := by
  have hall := n.print_numberChar
  have hstop : rest.takeWhile numberChar = [] ∧ rest.dropWhile numberChar = rest := by
    cases rest with
    | nil => exact ⟨rfl, rfl⟩
    | cons c rest => simp [hrest c rfl]
  rw [List.takeWhile_append_of_pos hall, List.dropWhile_append_of_pos hall, hstop.1, hstop.2,
    List.append_nil]
  exact ⟨rfl, rfl⟩

/-! ## Strings -/

/-- An escaping of string characters that the parser undoes. -/
def Escapes (esc : Char → List Char) : Prop :=
  ∀ c rest, readChar (esc c ++ rest) = some (some c, rest)

theorem readString_flatMap {esc : Char → List Char} (hesc : Escapes esc) (rest : List Char) :
    ∀ {cs : List Char} {fuel : Nat}, cs.length < fuel →
      readString fuel (cs.flatMap esc ++ '"' :: rest) = some (cs, rest)
  | [], fuel + 1, _ => rfl
  | c :: cs, fuel + 1, h => by
    rw [List.flatMap_cons, List.append_assoc, readString, hesc]
    simp only [readString_flatMap hesc rest (Nat.lt_of_succ_lt_succ h), Option.map_some]

theorem Escapes.ne_nil {esc : Char → List Char} (hesc : Escapes esc) (c : Char) : esc c ≠ [] := by
  intro hnil
  have h := hesc c []
  rw [hnil] at h
  cases h

theorem Escapes.length_le {esc : Char → List Char} (hesc : Escapes esc) :
    ∀ cs : List Char, cs.length ≤ (cs.flatMap esc).length
  | [] => Nat.le_refl _
  | c :: cs => by
    have := hesc.length_le cs
    have := List.length_pos_iff.mpr (hesc.ne_nil c)
    rw [List.flatMap_cons, List.length_append, List.length_cons]
    omega

/-- A quoted string is read back, from after its opening quote. -/
theorem readString_quote {esc : Char → List Char} (hesc : Escapes esc) (s : String)
    (rest : List Char) :
    ∃ body, quote esc s = '"' :: body ∧
      readString ((body ++ rest).length + 1) (body ++ rest) = some (s.toList, rest) := by
  refine ⟨s.toList.flatMap esc ++ ['"'], rfl, ?_⟩
  rw [List.append_assoc]
  refine readString_flatMap hesc rest ?_
  have := hesc.length_le s.toList
  rw [List.length_append]
  omega

/-- The escapes of the source's JSON library. -/
def escape (c : Char) : List Char :=
  if c = '"' then ['\\', '"']
  else if c = '\\' then ['\\', '\\']
  else if c = '\n' then ['\\', 'n']
  else if c = '\r' then ['\\', 'r']
  else if c = '\t' then ['\\', 't']
  else if c.toNat = 8 then ['\\', 'b']
  else if c.toNat = 12 then ['\\', 'f']
  else if c.toNat < 0x20 then
    ['\\', 'u', '0', '0', hexDigit (c.toNat / 16), hexDigit (c.toNat % 16)]
  else [c]

theorem hexValue_hexDigit : ∀ n < 16, hexValue (hexDigit n) = some n := by
  decide

theorem escape_escapes : Escapes escape := by
  intro c rest
  unfold escape
  split
  · subst_vars
    rfl
  split
  · subst_vars
    rfl
  split
  · subst_vars
    rfl
  split
  · subst_vars
    rfl
  split
  · subst_vars
    rfl
  split
  · rename_i h
    rw [← Char.ofNat_toNat c, h]
    rfl
  split
  · rename_i h
    rw [← Char.ofNat_toNat c, h]
    rfl
  split
  · rename_i hlt
    have hhigh := hexValue_hexDigit (c.toNat / 16) (by omega)
    have hlow := hexValue_hexDigit (c.toNat % 16) (by omega)
    have hzero : hexValue '0' = some 0 := by decide
    have hread : readUnicode
        ('0' :: '0' :: hexDigit (c.toNat / 16) :: hexDigit (c.toNat % 16) :: rest) =
          some (c, rest) := by
      simp only [readUnicode, readHex4, hhigh, hlow, hzero, Option.bind_eq_bind, Option.bind_some,
        Option.pure_def]
      rw [if_neg (by omega), if_neg (by omega)]
      rw [show ((0 * 16 + 0) * 16 + c.toNat / 16) * 16 + c.toNat % 16 = c.toNat by omega,
        Char.ofNat_toNat]
    simp [readChar, readEscape, hread]
  · rename_i hquote hslash _ _ _ _ _ hlow
    simp [readChar, hquote, hslash, hlow]

/-! ## Values -/

theorem skipSpace_cons {c : Char} (h : space c = false) (rest : List Char) :
    skipSpace (c :: rest) = c :: rest := by
  simp [skipSpace, h]

theorem skipSpace_quote (rest : List Char) : skipSpace ('"' :: rest) = '"' :: rest :=
  skipSpace_cons (by decide) rest

theorem skipSpace_colon (rest : List Char) : skipSpace (':' :: rest) = ':' :: rest :=
  skipSpace_cons (by decide) rest

theorem readKey_quote {esc : Char → List Char} (hesc : Escapes esc) (k : String)
    (rest : List Char) : readKey (quote esc k ++ ':' :: rest) = some (k, rest) := by
  obtain ⟨body, hquote, hread⟩ := readString_quote hesc k (':' :: rest)
  rw [hquote, List.cons_append, readKey, skipSpace_quote]
  simp only [hread, Option.bind_eq_bind, Option.bind_some, skipSpace_colon, String.ofList_toList]

theorem numberChar_not_space {c : Char} (h : numberChar c = true) : space c = false := by
  by_contra hspace
  simp only [space, decide_eq_true_eq, Bool.not_eq_false, List.mem_cons, List.not_mem_nil,
    or_false] at hspace
  rcases hspace with rfl | rfl | rfl | rfl <;> revert h <;> decide

/-- The first character of a value's text closes nothing and separates nothing. -/
theorem print_head (esc : Char → List Char) (v : Value) :
    ∃ c cs, print esc v = c :: cs ∧ space c = false ∧ c ≠ ']' ∧ c ≠ '}' ∧ c ≠ ',' := by
  cases v with
  | null => exact ⟨_, _, rfl, by decide⟩
  | bool b => cases b <;> exact ⟨_, _, rfl, by decide⟩
  | string s => exact ⟨_, _, rfl, by decide⟩
  | array items => exact ⟨_, _, rfl, by decide⟩
  | object members => exact ⟨_, _, rfl, by decide⟩
  | number n =>
    obtain ⟨c, cs, heq⟩ := List.exists_cons_of_ne_nil n.print_ne_nil
    have hc : numberChar c = true := n.print_numberChar c (by rw [heq]; simp)
    refine ⟨c, cs, heq, numberChar_not_space hc, ?_, ?_, ?_⟩ <;>
      (rintro rfl; revert hc; decide)

/-- The separator before an item or a member. -/
def separator (first : Bool) : List Char := if first then [] else [',']

theorem printItems_delimited (esc : Char → List Char) (items : List Value) (rest : List Char) :
    Delimited (printItems esc [','] items ++ rest) := by
  cases items <;> (intro c hc; cases hc; decide)

theorem printMembers_delimited (esc : Char → List Char) (members : List (String × Value))
    (rest : List Char) : Delimited (printMembers esc [','] members ++ rest) := by
  cases members <;> (intro c hc; cases hc; decide)

theorem printItems_length_pos (esc : Char → List Char) (sep : List Char) :
    ∀ items : List Value, 0 < (printItems esc sep items).length
  | [] => Nat.one_pos
  | v :: vs => by
    have := printItems_length_pos esc [','] vs
    simp only [printItems, List.length_append]
    omega

theorem printMembers_length_pos (esc : Char → List Char) (sep : List Char) :
    ∀ members : List (String × Value), 0 < (printMembers esc sep members).length
  | [] => Nat.one_pos
  | (k, v) :: ms => by
    simp only [printMembers, List.length_append, List.length_cons]
    omega

theorem readValue_number {n : Number} {fuel : Nat} {rest : List Char} (hrest : Delimited rest) :
    readValue (fuel + 1) (n.print ++ rest) = some (.number n, rest) := by
  obtain ⟨htake, hdrop⟩ := span_number n hrest
  obtain ⟨c, cs, heq⟩ := List.exists_cons_of_ne_nil n.print_ne_nil
  have hc : numberChar c = true := n.print_numberChar c (by rw [heq]; simp)
  have hskip : skipSpace (n.print ++ rest) = n.print ++ rest := by
    rw [heq]
    exact skipSpace_cons (numberChar_not_space hc) _
  have hhead : ∀ d ds, n.print ++ rest = d :: ds → numberChar d = true := by
    intro d ds h
    rw [heq] at h
    cases h
    exact hc
  unfold readValue
  rw [hskip]
  -- No other value starts with a character of a number.
  split
  case h_7 => rw [htake, hdrop, readNumber_print, Option.map_some]
  all_goals
    rename_i h
    exact absurd (hhead _ _ h) (by decide)

mutual
theorem readValue_print {esc : Char → List Char} (hesc : Escapes esc) :
    ∀ (v : Value) (fuel : Nat) (rest : List Char), Delimited rest → (print esc v).length < fuel →
      readValue fuel (print esc v ++ rest) = some (v, rest)
  | _, 0, _, _, h => by omega
  | .null, _ + 1, _, _, _ => rfl
  | .bool true, _ + 1, _, _, _ => rfl
  | .bool false, _ + 1, _, _, _ => rfl
  | .number n, _ + 1, _, hrest, _ => readValue_number hrest
  | .string s, fuel + 1, rest, _, _ => by
    obtain ⟨body, hquote, hread⟩ := readString_quote hesc s rest
    rw [print, hquote, List.cons_append, readValue, skipSpace_cons (by decide)]
    simp only [hread, Option.map_some, String.ofList_toList]
  | .array items, fuel + 1, rest, _, h => by
    have hitems := readItems_print hesc items true fuel rest
      (by simpa [print, separator] using h)
    rw [print, List.cons_append, readValue, skipSpace_cons (by decide)]
    simp only [separator, if_true] at hitems
    simp only [hitems, Option.map_some]
  | .object members, fuel + 1, rest, _, h => by
    have hmembers := readMembers_print hesc members true fuel rest
      (by simpa [print, separator] using h)
    rw [print, List.cons_append, readValue, skipSpace_cons (by decide)]
    simp only [separator, if_true] at hmembers
    simp only [hmembers, Option.map_some]
theorem readItems_print {esc : Char → List Char} (hesc : Escapes esc) :
    ∀ (items : List Value) (first : Bool) (fuel : Nat) (rest : List Char),
      (printItems esc (separator first) items).length < fuel →
      readItems fuel first (printItems esc (separator first) items ++ rest) = some (items, rest)
  | _, _, 0, _, h => by omega
  | [], first, _ + 1, _, _ => rfl
  | v :: vs, first, fuel + 1, rest, h => by
    rw [printItems, List.length_append, List.length_append] at h
    have hpos := printItems_length_pos esc [','] vs
    have hv := readValue_print hesc v fuel _ (printItems_delimited esc vs rest) (by omega)
    obtain ⟨c, cs, heq, hspace, hclose, -, -⟩ := print_head esc v
    have hvpos : 0 < (print esc v).length := by rw [heq]; simp
    have hvs := readItems_print hesc vs false fuel rest
      (by simp only [separator, Bool.false_eq_true, if_false]; omega)
    simp only [separator, Bool.false_eq_true, if_false] at hvs
    rw [printItems, List.append_assoc, List.append_assoc]
    cases first with
    | true =>
      simp only [separator, if_true, List.nil_append]
      rw [heq, List.cons_append] at hv ⊢
      rw [readItems, skipSpace_cons hspace]
      split
      · rename_i h
        exact absurd (List.cons.inj h).1 hclose
      · rename_i h
        cases h
        simp [hv, hvs]
      · rename_i h
        cases h
    | false =>
      simp only [separator, Bool.false_eq_true, if_false, List.cons_append, List.nil_append]
      rw [readItems, skipSpace_cons (by decide)]
      simp [hv, hvs]
theorem readMembers_print {esc : Char → List Char} (hesc : Escapes esc) :
    ∀ (members : List (String × Value)) (first : Bool) (fuel : Nat) (rest : List Char),
      (printMembers esc (separator first) members).length < fuel →
      readMembers fuel first (printMembers esc (separator first) members ++ rest) =
        some (members, rest)
  | _, _, 0, _, h => by omega
  | [], first, _ + 1, _, _ => rfl
  | (k, v) :: ms, first, fuel + 1, rest, h => by
    simp only [printMembers, List.length_append, List.length_cons] at h
    have hpos := printMembers_length_pos esc [','] ms
    have hv := readValue_print hesc v fuel _ (printMembers_delimited esc ms rest) (by omega)
    have hms := readMembers_print hesc ms false fuel rest
      (by simp only [separator, Bool.false_eq_true, if_false]; omega)
    simp only [separator, Bool.false_eq_true, if_false] at hms
    have hk := readKey_quote hesc k (print esc v ++ (printMembers esc [','] ms ++ rest))
    rw [printMembers, List.append_assoc, List.append_assoc, List.cons_append, List.append_assoc]
    cases first with
    | true =>
      simp only [separator, if_true, List.nil_append]
      obtain ⟨body, hbody⟩ : ∃ body, quote esc k = '"' :: body := ⟨_, rfl⟩
      rw [hbody, List.cons_append] at hk ⊢
      rw [readMembers, skipSpace_quote]
      simp [hk, hv, hms]
    | false =>
      simp only [separator, Bool.false_eq_true, if_false, List.cons_append, List.nil_append]
      rw [readMembers, skipSpace_cons (by decide)]
      simp [hk, hv, hms]
end

theorem delimited_nil : Delimited [] := by
  intro c hc
  cases hc

/-- **The text of a value parses back to the value.** -/
theorem parse_print {esc : Char → List Char} (hesc : Escapes esc) (v : Value) :
    parse (print esc v) = some v := by
  have h := readValue_print hesc v _ [] delimited_nil (Nat.lt_succ_self _)
  rw [List.append_nil] at h
  rw [parse, h]
  rfl

/-- Different values have different texts. -/
theorem print_inj {esc : Char → List Char} (hesc : Escapes esc) {v w : Value} :
    print esc v = print esc w ↔ v = w := by
  constructor
  · intro h
    have hv := parse_print hesc v
    rw [h, parse_print hesc w] at hv
    exact (Option.some.inj hv).symm
  · rintro rfl
    rfl

/-- The compact text of a value. -/
def text (v : Value) : String := String.ofList (print escape v)

theorem text_injective : Function.Injective text := fun _ _ h =>
  (print_inj escape_escapes).mp (String.ofList_injective h)

theorem printMembers_getLast? (esc : Char → List Char) :
    ∀ (sep : List Char) (members : List (String × Value)),
      (printMembers esc sep members).getLast? = some '}'
  | _, [] => rfl
  | sep, (k, v) :: rest => by
    have hrest := printMembers_getLast? esc [','] rest
    simp [printMembers, List.getLast?_append, List.getLast?_cons, hrest]

/-- The text of an object has no white space around it. -/
theorem trim_text_object (members : List (String × Value)) :
    Text.trim (text (.object members)) = text (.object members) := by
  apply Text.trim_of_ends
  · intro c hc
    rw [text, String.toList_ofList, print, List.head?_cons] at hc
    obtain rfl := Option.some.inj hc
    rfl
  · intro c hc
    rw [text, String.toList_ofList, print, List.getLast?_cons, printMembers_getLast?] at hc
    obtain rfl := Option.some.inj hc
    rfl

/-! ## Bytes -/

/-- `to_vec`: compact text in UTF-8. -/
def toVec (v : Value) : ByteArray := (text v).toByteArray

/-- `from_slice`, for texts whose objects already have their members in order. -/
def fromSlice (bytes : ByteArray) : Option Value :=
  (String.fromUTF8? bytes).bind fun text => parse text.toList

theorem fromSlice_toVec (v : Value) : fromSlice (toVec v) = some v := by
  have h : String.fromUTF8? (toVec v) = some (text v) := by
    have hvalid : (toVec v).IsValidUTF8 := String.isValidUTF8 _
    rw [String.fromUTF8?, dif_pos hvalid]
    rfl
  rw [fromSlice, h, Option.bind_some, text, String.toList_ofList, parse_print escape_escapes]

theorem toVec_inj {v w : Value} : toVec v = toVec w ↔ v = w := by
  constructor
  · intro h
    have hv := fromSlice_toVec v
    rw [h, fromSlice_toVec] at hv
    exact (Option.some.inj hv).symm
  · rintro rfl
    rfl

-- What is proved about texts is proved from the round trip.
attribute [irreducible] text toVec fromSlice

end Json
