import AgenticCore.Basic
import AgenticCore.JsonText

/-!
# The text that identities are taken of (`proof_subject.rs`)

* `proven`           : the value has no number whose text other encoders may write differently.
* `compactJson`      : the compact text of such a value, in ASCII.
* `asciiOf_escapes`  : the parser undoes the escapes of that text.
* `compactJson_inj`  : **values with one compact text are equal.**
-/

set_option autoImplicit false

namespace AgenticCore

open Json

namespace CompactJson

/-! ## Characters outside ASCII -/

/-- `encode_utf16`. -/
def encodeUtf16 (c : Char) : List Nat :=
  if c.toNat < 0x10000 then [c.toNat]
  else [0xd800 + (c.toNat - 0x10000) / 0x400, 0xdc00 + (c.toNat - 0x10000) % 0x400]

/-- `{unit:04x}`, for a unit of 16 bits. -/
def unitDigits (u : Nat) : List Char :=
  [hexDigit (u / 4096), hexDigit (u / 256 % 16), hexDigit (u / 16 % 16), hexDigit (u % 16)]

def unitText (u : Nat) : List Char := '\\' :: 'u' :: unitDigits u

/-- What the loop over the encoded text makes of one of its characters. -/
def ascii (c : Char) : List Char :=
  if 0x7f ≤ c.toNat then (encodeUtf16 c).flatMap unitText else [c]

/-- The escapes of the JSON library, and then those of the loop. -/
def asciiOf (c : Char) : List Char := (escape c).flatMap ascii

theorem ascii_of_lt {c : Char} (h : c.toNat < 0x7f) : ascii c = [c] := by
  unfold ascii
  rw [if_neg (by omega)]

theorem flatMap_ascii_of_lt : ∀ {cs : List Char}, (∀ c ∈ cs, c.toNat < 0x7f) →
    cs.flatMap ascii = cs
  | [], _ => rfl
  | c :: cs, h => by
    rw [List.flatMap_cons, ascii_of_lt (h c List.mem_cons_self),
      flatMap_ascii_of_lt fun d hd => h d (List.mem_cons_of_mem _ hd)]
    rfl

theorem numberChar_lt {c : Char} (h : numberChar c = true) : c.toNat < 0x7f := by
  simp only [numberChar, Bool.or_eq_true, Char.isDigit, Bool.and_eq_true, decide_eq_true_eq,
    List.mem_cons, List.not_mem_nil, or_false] at h
  rcases h with ⟨-, h⟩ | rfl | rfl | rfl | rfl | rfl
  · have : c.toNat ≤ 57 := h
    omega
  all_goals decide

/-! ## The escapes are undone -/

theorem readHex4_unit {u : Nat} (h : u < 0x10000) (rest : List Char) :
    readHex4 (unitDigits u ++ rest) = some (u, rest) := by
  have h1 := hexValue_hexDigit (u / 4096) (by omega)
  have h2 := hexValue_hexDigit (u / 256 % 16) (by omega)
  have h3 := hexValue_hexDigit (u / 16 % 16) (by omega)
  have h4 := hexValue_hexDigit (u % 16) (by omega)
  simp only [unitDigits, List.cons_append, List.nil_append, readHex4, h1, h2, h3, h4,
    Option.bind_eq_bind, Option.bind_some, Option.pure_def]
  congr 2
  omega

/-- No character is a surrogate, and none is above the last plane. -/
theorem char_range (c : Char) :
    c.toNat < 0xd800 ∨ 0xdfff < c.toNat ∧ c.toNat < 0x110000 := c.valid

theorem readUnicode_pair {high low : Nat} (hhigh : 0xd800 ≤ high ∧ high < 0xdc00)
    (hlow : 0xdc00 ≤ low ∧ low < 0xe000) (rest : List Char) :
    readUnicode (unitDigits high ++ (unitText low ++ rest)) =
      some (Char.ofNat (0x10000 + (high - 0xd800) * 0x400 + (low - 0xdc00)), rest) := by
  rw [readUnicode, readHex4_unit (by omega)]
  simp only [Option.bind_eq_bind, Option.bind_some]
  rw [if_pos hhigh, unitText, List.cons_append, List.cons_append]
  simp only [readHex4_unit (show low < 0x10000 by omega), Option.bind_some, Option.pure_def]
  rw [if_pos hlow]

theorem readUnicode_utf16 (c : Char) (rest : List Char) :
    ∃ text, (encodeUtf16 c).flatMap unitText = '\\' :: 'u' :: text ∧
      readUnicode (text ++ rest) = some (c, rest) := by
  have hrange := char_range c
  unfold encodeUtf16
  split
  · rename_i hplane
    refine ⟨unitDigits c.toNat, by simp [unitText], ?_⟩
    simp only [readUnicode, readHex4_unit hplane, Option.bind_eq_bind, Option.bind_some,
      Option.pure_def]
    rw [if_neg (by omega), if_neg (by omega), Char.ofNat_toNat]
  · rename_i hplane
    obtain ⟨high, hhigh⟩ : ∃ high, high = 0xd800 + (c.toNat - 0x10000) / 0x400 := ⟨_, rfl⟩
    obtain ⟨low, hlow⟩ : ∃ low, low = 0xdc00 + (c.toNat - 0x10000) % 0x400 := ⟨_, rfl⟩
    have hsum : 0x10000 + (high - 0xd800) * 0x400 + (low - 0xdc00) = c.toNat := by omega
    refine ⟨unitDigits high ++ unitText low, ?_, ?_⟩
    · rw [← hhigh, ← hlow]
      simp [unitText]
    · rw [List.append_assoc, readUnicode_pair ⟨by omega, by omega⟩ ⟨by omega, by omega⟩, hsum,
        Char.ofNat_toNat]

/-- The library's own escapes are ASCII, and leave the other characters to the loop. -/
theorem escape_lt {c : Char} (h : c.toNat < 0x7f) : ∀ d ∈ escape c, d.toNat < 0x7f := by
  have hhex : ∀ n < 16, (hexDigit n).toNat < 0x7f := by decide
  unfold escape
  split
  · simp
  split
  · simp
  split
  · simp
  split
  · simp
  split
  · simp
  split
  · simp
  split
  · simp
  split
  · rename_i hlow
    have hhigh := hhex (c.toNat / 16) (by omega)
    have hlast := hhex (c.toNat % 16) (by omega)
    simp only [List.mem_cons, List.not_mem_nil, or_false]
    rintro d (rfl | rfl | rfl | rfl | rfl | rfl)
    · decide
    · decide
    · decide
    · decide
    · exact hhigh
    · exact hlast
  · simpa using h

theorem escape_of_le {c : Char} (h : 0x7f ≤ c.toNat) : escape c = [c] := by
  have hne : ∀ d : Char, d.toNat < 0x7f → c ≠ d := by
    rintro d hd rfl
    omega
  unfold escape
  rw [if_neg (hne _ (by decide)), if_neg (hne _ (by decide)), if_neg (hne _ (by decide)),
    if_neg (hne _ (by decide)), if_neg (hne _ (by decide)), if_neg (by omega), if_neg (by omega),
    if_neg (by omega)]

theorem asciiOf_escapes : Escapes asciiOf := by
  intro c rest
  unfold asciiOf
  by_cases h : c.toNat < 0x7f
  · rw [flatMap_ascii_of_lt (escape_lt h)]
    exact escape_escapes c rest
  · obtain ⟨text, htext, hread⟩ := readUnicode_utf16 c rest
    rw [escape_of_le (by omega), List.flatMap_singleton, ascii, if_pos (by omega), htext]
    simp [readChar, readEscape, hread]

/-! ## The text -/

theorem quote_flatMap_ascii (s : String) : (quote escape s).flatMap ascii = quote asciiOf s := by
  rw [quote, quote, List.flatMap_cons, List.flatMap_append, List.flatMap_assoc]
  rfl

mutual
theorem print_flatMap_ascii : ∀ v : Value, (print escape v).flatMap ascii = print asciiOf v
  | .null => by decide
  | .bool true => by decide
  | .bool false => by decide
  | .number n => by
    rw [print, print]
    exact flatMap_ascii_of_lt fun c hc => numberChar_lt (n.print_numberChar c hc)
  | .string s => by
    rw [print, print, quote_flatMap_ascii]
  | .array items => by
    rw [print, print, List.flatMap_cons, printItems_flatMap_ascii [] (by simp) items]
    rfl
  | .object members => by
    rw [print, print, List.flatMap_cons, printMembers_flatMap_ascii [] (by simp) members]
    rfl
theorem printItems_flatMap_ascii : ∀ sep : List Char, (∀ c ∈ sep, c.toNat < 0x7f) →
    ∀ items : List Value,
      (printItems escape sep items).flatMap ascii = printItems asciiOf sep items
  | _, _, [] => rfl
  | sep, hsep, v :: vs => by
    rw [printItems, printItems, List.flatMap_append, List.flatMap_append, flatMap_ascii_of_lt hsep,
      print_flatMap_ascii v, printItems_flatMap_ascii [','] (by simp) vs]
theorem printMembers_flatMap_ascii : ∀ sep : List Char, (∀ c ∈ sep, c.toNat < 0x7f) →
    ∀ members : List (String × Value),
      (printMembers escape sep members).flatMap ascii = printMembers asciiOf sep members
  | _, _, [] => rfl
  | sep, hsep, (k, v) :: ms => by
    rw [printMembers, printMembers, List.flatMap_append, List.flatMap_append, List.flatMap_cons,
      List.flatMap_append, flatMap_ascii_of_lt hsep, quote_flatMap_ascii,
      print_flatMap_ascii v, printMembers_flatMap_ascii [','] (by simp) ms]
    rfl
end

/-- Whether the magnitude of a decimal fraction is zero or in `0.0001..1e16`. -/
def inRange (cs : List Char) : Bool :=
  let digits := if cs.head? = some '-' then cs.tail else cs
  let whole := digits.takeWhile Char.isDigit
  let fraction := (digits.dropWhile Char.isDigit).tail
  let nonzero := fun l : List Char => l.any (· ≠ '0')
  if nonzero whole then Nat.ofDigitChars 10 whole 0 < 10 ^ 16
  else !nonzero fraction || nonzero (fraction.take 4)

/-- A number that is not an integer, as another encoder writes it too. -/
def provenFloat (text : FloatText) : Bool :=
  !text.chars.any (· ∈ ['e', 'E']) && inRange text.chars

mutual
def proven : Value → Bool
  | .number (.float text) => provenFloat text
  | .array items => provenItems items
  | .object members => provenMembers members
  | _ => true
def provenItems : List Value → Bool
  | [] => true
  | v :: vs => proven v && provenItems vs
def provenMembers : List (String × Value) → Bool
  | [] => true
  | (_, v) :: ms => proven v && provenMembers ms
end

def UNPROVEN : String := "proof identity numeric encoding compatibility is unproven"

end CompactJson

open CompactJson in
def compactJson (value : Value) : Result String := do
  check (proven value = true) UNPROVEN
  pure (String.ofList ((text value).toList.flatMap ascii))

open CompactJson in
theorem compactJson_eq_ok {v : Value} {s : String} :
    compactJson v = .ok s ↔ proven v = true ∧ s = String.ofList (print asciiOf v) := by
  have htext : (text v).toList = print escape v := by
    unfold text
    rw [String.toList_ofList]
  simp only [compactJson, Except.bind_eq_ok_iff, check_eq_ok, Except.pure_eq_ok_iff, htext,
    print_flatMap_ascii]
  constructor
  · rintro ⟨-, hproven, rfl⟩
    exact ⟨hproven, rfl⟩
  · rintro ⟨hproven, rfl⟩
    exact ⟨(), hproven, rfl⟩

open CompactJson in
/-- **Values with one compact text are equal.** -/
theorem compactJson_inj {v w : Value} {s : String} (hv : compactJson v = .ok s)
    (hw : compactJson w = .ok s) : v = w := by
  obtain ⟨-, hv⟩ := compactJson_eq_ok.mp hv
  obtain ⟨-, hw⟩ := compactJson_eq_ok.mp hw
  exact (print_inj asciiOf_escapes).mp (String.ofList_injective (hv.symm.trans hw))

end AgenticCore
