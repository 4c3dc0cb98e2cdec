import AgenticCore.JsonText

/-!
# Indented JSON texts

* `pretty`        : the indented text of a value, with the escaping of string characters as a
                    parameter.
* `parse_pretty`  : **the indented text of a value parses back to it**.
* `parse_line`    : **no line of a JSON text starts with a character that starts no token**.
* `pretty_not_mem`, `print_not_mem` : what an escaping leaves out of the text.
-/

set_option autoImplicit false

namespace Json

/-! ## Printing -/

/-- A line feed and the indentation of a level. -/
def newline (level : Nat) : List Char := '\n' :: List.replicate (2 * level) ' '

mutual
def pretty (esc : Char → List Char) (level : Nat) : Value → List Char
  | .array items => '[' :: prettyItems esc level true items
  | .object members => '{' :: prettyMembers esc level true members
  | v => print esc v
/-- The items up to the closing bracket; every item but the first follows a comma. -/
def prettyItems (esc : Char → List Char) (level : Nat) (first : Bool) : List Value → List Char
  | [] => (if first then [] else newline level) ++ [']']
  | v :: rest => separator first ++ (newline (level + 1) ++
      (pretty esc (level + 1) v ++ prettyItems esc level false rest))
def prettyMembers (esc : Char → List Char) (level : Nat) (first : Bool) :
    List (String × Value) → List Char
  | [] => (if first then [] else newline level) ++ ['}']
  | (k, v) :: rest => separator first ++ (newline (level + 1) ++
      (quote esc k ++ ':' :: ' ' :: (pretty esc (level + 1) v ++
        prettyMembers esc level false rest)))
end

/-! ## White space -/

theorem skipSpace_blank {blank : List Char} (h : ∀ c ∈ blank, space c = true) (rest : List Char) :
    skipSpace (blank ++ rest) = skipSpace rest := List.dropWhile_append_of_pos h

theorem newline_space (level : Nat) : ∀ c ∈ newline level, space c = true := by
  intro c hc
  rcases List.mem_cons.mp hc with rfl | hc
  · decide
  · obtain rfl := List.eq_of_mem_replicate hc
    decide

theorem readValue_skip {blank : List Char} (h : ∀ c ∈ blank, space c = true) :
    ∀ (fuel : Nat) (rest : List Char), readValue fuel (blank ++ rest) = readValue fuel rest
  | 0, _ => rfl
  | fuel + 1, rest => by
    conv => lhs; unfold readValue
    conv => rhs; unfold readValue
    rw [skipSpace_blank h]

theorem readKey_skip {blank : List Char} (h : ∀ c ∈ blank, space c = true) (rest : List Char) :
    readKey (blank ++ rest) = readKey rest := by
  unfold readKey
  rw [skipSpace_blank h]

theorem newline_delimited (level : Nat) (rest : List Char) : Delimited (newline level ++ rest) := by
  intro c hc
  obtain rfl := Option.some.inj hc
  decide

/-! ## Parsing an indented text -/

theorem pretty_head (esc : Char → List Char) (level : Nat) (v : Value) :
    ∃ c cs, pretty esc level v = c :: cs ∧ space c = false ∧ c ≠ ']' ∧ c ≠ '}' ∧ c ≠ ',' := by
  cases v with
  | array items => exact ⟨_, _, by rw [pretty], by decide⟩
  | object members => exact ⟨_, _, by rw [pretty], by decide⟩
  | null | bool | number | string => simpa only [pretty] using print_head esc _

theorem prettyItems_delimited (esc : Char → List Char) (level : Nat) (items : List Value)
    (rest : List Char) : Delimited (prettyItems esc level false items ++ rest) := by
  cases items with
  | nil =>
    rw [prettyItems, if_neg (by decide), List.append_assoc]
    exact newline_delimited level _
  | cons v items =>
    intro c hc
    rw [prettyItems] at hc
    obtain rfl := Option.some.inj hc
    decide

theorem prettyMembers_delimited (esc : Char → List Char) (level : Nat)
    (members : List (String × Value)) (rest : List Char) :
    Delimited (prettyMembers esc level false members ++ rest) := by
  cases members with
  | nil =>
    rw [prettyMembers, if_neg (by decide), List.append_assoc]
    exact newline_delimited level _
  | cons member members =>
    intro c hc
    rw [prettyMembers] at hc
    obtain rfl := Option.some.inj hc
    decide

theorem prettyItems_length_pos (esc : Char → List Char) (level : Nat) (first : Bool)
    (items : List Value) : 0 < (prettyItems esc level first items).length := by
  cases items <;> simp only [prettyItems, List.length_append, newline, List.length_cons] <;> omega

theorem prettyMembers_length_pos (esc : Char → List Char) (level : Nat) (first : Bool)
    (members : List (String × Value)) : 0 < (prettyMembers esc level first members).length := by
  cases members <;> simp only [prettyMembers, List.length_append, newline, List.length_cons] <;> omega

/-- The end of a list. -/
theorem readItems_close (esc : Char → List Char) (level : Nat) (first : Bool) (fuel : Nat)
    (rest : List Char) :
    readItems (fuel + 1) first (prettyItems esc level first [] ++ rest) = some ([], rest) := by
  have hskip : skipSpace (prettyItems esc level first [] ++ rest) = ']' :: rest := by
    rw [prettyItems, List.append_assoc, skipSpace_blank ?_]
    · exact skipSpace_cons (by decide) rest
    · cases first
      · exact newline_space level
      · simp
  rw [readItems, hskip]
  rfl

theorem readMembers_close (esc : Char → List Char) (level : Nat) (first : Bool) (fuel : Nat)
    (rest : List Char) :
    readMembers (fuel + 1) first (prettyMembers esc level first [] ++ rest) = some ([], rest) := by
  have hskip : skipSpace (prettyMembers esc level first [] ++ rest) = '}' :: rest := by
    rw [prettyMembers, List.append_assoc, skipSpace_blank ?_]
    · exact skipSpace_cons (by decide) rest
    · cases first
      · exact newline_space level
      · simp
  rw [readMembers, hskip]
  rfl

/-- One item and those after it. -/
theorem readItems_step {first : Bool} {fuel level : Nat} {cs rest rest' : List Char} {v : Value}
    {vs : List Value} (hhead : ∃ c ds, cs = c :: ds ∧ space c = false ∧ c ≠ ']')
    (hv : readValue fuel cs = some (v, rest')) (hvs : readItems fuel false rest' = some (vs, rest)) :
    readItems (fuel + 1) first (separator first ++ (newline (level + 1) ++ cs)) =
      some (v :: vs, rest) := by
  obtain ⟨c, ds, rfl, hspace, hclose⟩ := hhead
  cases first with
  | true =>
    rw [separator, if_pos rfl, List.nil_append, readItems, skipSpace_blank (newline_space _),
      skipSpace_cons hspace]
    split
    · rename_i h
      exact absurd (List.cons.inj h).1 hclose
    · rename_i h
      cases h
      simp [hv, hvs]
    · rename_i h
      cases h
  | false =>
    have hskip := readValue_skip (newline_space (level + 1)) fuel (c :: ds)
    rw [separator, if_neg (by decide), List.cons_append, List.nil_append, readItems,
      skipSpace_cons (by decide)]
    simp [hskip, hv, hvs]

/-- One member and those after it. -/
theorem readMembers_step {esc : Char → List Char} (hesc : Escapes esc) {first : Bool}
    {fuel level : Nat} {k : String} {cs rest rest' : List Char} {v : Value}
    {ms : List (String × Value)} (hv : readValue fuel cs = some (v, rest'))
    (hms : readMembers fuel false rest' = some (ms, rest)) :
    readMembers (fuel + 1) first (separator first ++ (newline (level + 1) ++
      (quote esc k ++ ':' :: ' ' :: cs))) = some ((k, v) :: ms, rest) := by
  have hk := readKey_quote hesc k (' ' :: cs)
  have hblank : ∀ c ∈ [' '], space c = true := by simp [space]
  have hv' : readValue fuel (' ' :: cs) = some (v, rest') := by
    rw [← hv]
    exact readValue_skip hblank fuel cs
  cases first with
  | true =>
    obtain ⟨body, hbody⟩ : ∃ body, quote esc k = '"' :: body := ⟨_, rfl⟩
    rw [hbody, List.cons_append] at hk ⊢
    rw [separator, if_pos rfl, List.nil_append, readMembers, skipSpace_blank (newline_space _),
      skipSpace_quote]
    simp [hk, hv', hms]
  | false =>
    have hskip := readKey_skip (newline_space (level + 1)) (quote esc k ++ ':' :: ' ' :: cs)
    rw [separator, if_neg (by decide), List.cons_append, List.nil_append, readMembers,
      skipSpace_cons (by decide)]
    simp [hskip, hk, hv', hms]

mutual
theorem readValue_pretty {esc : Char → List Char} (hesc : Escapes esc) :
    ∀ (v : Value) (level fuel : Nat) (rest : List Char), Delimited rest →
      (pretty esc level v).length < fuel →
      readValue fuel (pretty esc level v ++ rest) = some (v, rest)
  | v, _, 0, _, _, h => by omega
  | .null, _, _ + 1, _, _, _ => rfl
  | .bool true, _, _ + 1, _, _, _ => rfl
  | .bool false, _, _ + 1, _, _, _ => rfl
  | .number n, level, fuel + 1, rest, hrest, h => by
    rw [pretty] at h ⊢
    · exact readValue_print hesc (.number n) (fuel + 1) rest hrest h
    all_goals simp
  | .string s, level, fuel + 1, rest, hrest, h => by
    rw [pretty] at h ⊢
    · exact readValue_print hesc (.string s) (fuel + 1) rest hrest h
    all_goals simp
  | .array items, level, fuel + 1, rest, _, h => by
    rw [pretty, List.length_cons] at h
    have hitems := readItems_pretty hesc items level true fuel rest (by omega)
    rw [pretty, List.cons_append, readValue, skipSpace_cons (by decide)]
    simp only [hitems, Option.map_some]
  | .object members, level, fuel + 1, rest, _, h => by
    rw [pretty, List.length_cons] at h
    have hmembers := readMembers_pretty hesc members level true fuel rest (by omega)
    rw [pretty, List.cons_append, readValue, skipSpace_cons (by decide)]
    simp only [hmembers, Option.map_some]
theorem readItems_pretty {esc : Char → List Char} (hesc : Escapes esc) :
    ∀ (items : List Value) (level : Nat) (first : Bool) (fuel : Nat) (rest : List Char),
      (prettyItems esc level first items).length < fuel →
      readItems fuel first (prettyItems esc level first items ++ rest) = some (items, rest)
  | _, _, _, 0, _, h => by omega
  | [], level, first, fuel + 1, rest, _ => readItems_close esc level first fuel rest
  | v :: vs, level, first, fuel + 1, rest, h => by
    simp only [prettyItems, List.length_append] at h
    have hpos := prettyItems_length_pos esc level false vs
    obtain ⟨c, cs, heq, hspace, hclose, -, -⟩ := pretty_head esc (level + 1) v
    have hvpos : 0 < (pretty esc (level + 1) v).length := by rw [heq]; simp
    have hv := readValue_pretty hesc v (level + 1) fuel _ (prettyItems_delimited esc level vs rest)
      (by omega)
    have hvs := readItems_pretty hesc vs level false fuel rest (by omega)
    rw [prettyItems, List.append_assoc, List.append_assoc, List.append_assoc]
    exact readItems_step ⟨c, _, by rw [heq, List.cons_append], hspace, hclose⟩ hv hvs
theorem readMembers_pretty {esc : Char → List Char} (hesc : Escapes esc) :
    ∀ (members : List (String × Value)) (level : Nat) (first : Bool) (fuel : Nat)
      (rest : List Char), (prettyMembers esc level first members).length < fuel →
      readMembers fuel first (prettyMembers esc level first members ++ rest) = some (members, rest)
  | _, _, _, 0, _, h => by omega
  | [], level, first, fuel + 1, rest, _ => readMembers_close esc level first fuel rest
  | (k, v) :: ms, level, first, fuel + 1, rest, h => by
    simp only [prettyMembers, List.length_append, List.length_cons] at h
    have hpos := prettyMembers_length_pos esc level false ms
    have hv := readValue_pretty hesc v (level + 1) fuel _ (prettyMembers_delimited esc level ms rest)
      (by omega)
    have hms := readMembers_pretty hesc ms level false fuel rest (by omega)
    rw [prettyMembers]
    simp only [List.append_assoc, List.cons_append]
    exact readMembers_step hesc hv hms
end

/-- **The indented text of a value parses back to the value.** -/
theorem parse_pretty {esc : Char → List Char} (hesc : Escapes esc) (v : Value) :
    parse (pretty esc 0 v) = some v := by
  have h := readValue_pretty hesc v 0 _ [] delimited_nil (Nat.lt_succ_self _)
  rw [List.append_nil] at h
  rw [parse, h]
  rfl

/-! ## What a parsed text is made of -/

/-- The characters that a token or white space starts with. -/
def lineStart (c : Char) : Bool :=
  space c || numberChar c || c ∈ ['n', 't', 'f', '"', '[', ']', '{', '}', ':', ',']

/-- A stretch whose lines, the first of them included, start as tokens do. -/
def Stretch (cs : List Char) : Prop :=
  ('\n' :: cs).IsChain fun a c => a = '\n' → lineStart c = true

theorem stretch_nil : Stretch [] := List.isChain_singleton _

theorem Stretch.append {p q : List Char} (hp : Stretch p) (hq : Stretch q) : Stretch (p ++ q) := by
  unfold Stretch at *
  rw [← List.cons_append, List.isChain_append]
  refine ⟨hp, hq.tail, fun a _ c hc ha => ?_⟩
  cases q with
  | nil => cases hc
  | cons d q =>
    obtain rfl := Option.some.inj hc
    exact (List.isChain_cons_cons.mp hq).1 rfl

/-- A token: it starts as one, and has no line feed. -/
theorem stretch_token {c : Char} {cs : List Char} (hc : lineStart c = true)
    (hcs : '\n' ∉ c :: cs) : Stretch (c :: cs) := by
  refine List.isChain_cons_cons.mpr ⟨fun _ => hc, List.Pairwise.isChain ?_⟩
  rw [List.pairwise_iff_forall_sublist]
  intro a d hsub ha
  rw [ha] at hsub
  exact absurd (hsub.subset List.mem_cons_self) hcs

theorem stretch_of_all {cs : List Char} (h : ∀ c ∈ cs, lineStart c = true) : Stretch cs := by
  refine List.Pairwise.isChain ?_
  rw [List.pairwise_cons]
  refine ⟨fun c hc _ => h c hc, ?_⟩
  rw [List.pairwise_iff_forall_sublist]
  exact fun hsub _ => h _ (hsub.subset (by simp))

/-- What is read off a text. -/
def Consumes (cs rest : List Char) : Prop := ∃ p, cs = p ++ rest ∧ Stretch p

theorem Consumes.trans {cs rest rest' : List Char} (h : Consumes cs rest)
    (h' : Consumes rest rest') : Consumes cs rest' := by
  obtain ⟨p, rfl, hp⟩ := h
  obtain ⟨q, rfl, hq⟩ := h'
  exact ⟨p ++ q, by rw [List.append_assoc], hp.append hq⟩

theorem consumes_cons {c : Char} (h : lineStart c = true) (rest : List Char) :
    Consumes (c :: rest) rest := ⟨[c], rfl, stretch_of_all (by simpa using h)⟩

theorem consumes_takeWhile {f : Char → Bool} (h : ∀ c, f c = true → lineStart c = true)
    (cs : List Char) : Consumes cs (cs.dropWhile f) :=
  ⟨cs.takeWhile f, List.takeWhile_append_dropWhile.symm,
    stretch_of_all fun _ hc => h _ (List.mem_takeWhile_imp hc)⟩

theorem consumes_space (cs : List Char) : Consumes cs (skipSpace cs) :=
  consumes_takeWhile (fun c hc => by rw [lineStart, hc, Bool.true_or, Bool.true_or]) cs

/-- A part of a string's text. -/
def Inside (cs rest : List Char) : Prop := ∃ p, cs = p ++ rest ∧ '\n' ∉ p

theorem Inside.trans {cs rest rest' : List Char} (h : Inside cs rest) (h' : Inside rest rest') :
    Inside cs rest' := by
  obtain ⟨p, rfl, hp⟩ := h
  obtain ⟨q, rfl, hq⟩ := h'
  exact ⟨p ++ q, by rw [List.append_assoc], by simp [hp, hq]⟩

theorem inside_cons {c : Char} (h : c ≠ '\n') (rest : List Char) : Inside (c :: rest) rest :=
  ⟨[c], rfl, by simpa using h.symm⟩

theorem hexValue_ne {c : Char} {n : Nat} (h : hexValue c = some n) : c ≠ '\n' := by
  rintro rfl
  have hnone : hexValue '\n' = none := by decide
  rw [hnone] at h
  cases h

theorem readHex4_inside {cs rest : List Char} {n : Nat} (h : readHex4 cs = some (n, rest)) :
    Inside cs rest := by
  unfold readHex4 at h
  split at h
  · simp only [Option.bind_eq_bind, Option.bind_eq_some_iff, Option.pure_def, Option.some.injEq,
      Prod.mk.injEq] at h
    obtain ⟨a, ha, b, hb, c, hc, d, hd, -, rfl⟩ := h
    exact ⟨[_, _, _, _], rfl, by simp [(hexValue_ne ha).symm, (hexValue_ne hb).symm,
      (hexValue_ne hc).symm, (hexValue_ne hd).symm]⟩
  · cases h

theorem readUnicode_inside {cs rest : List Char} {c : Char} (h : readUnicode cs = some (c, rest)) :
    Inside cs rest := by
  obtain ⟨⟨high, tail⟩, hhigh, h⟩ := Option.bind_eq_some_iff.mp h
  have hinside := readHex4_inside hhigh
  dsimp only at h
  split at h
  · split at h
    · obtain ⟨⟨low, rest'⟩, hlow, h⟩ := Option.bind_eq_some_iff.mp h
      simp only [Option.pure_def] at h
      split at h
      · simp only [Option.some.injEq, Prod.mk.injEq] at h
        obtain ⟨-, rfl⟩ := h
        exact hinside.trans ((inside_cons (by decide) _).trans ((inside_cons (by decide) _).trans
          (readHex4_inside hlow)))
      · cases h
    · cases h
  split at h
  · cases h
  · simp only [Option.pure_def, Option.some.injEq, Prod.mk.injEq] at h
    obtain ⟨-, rfl⟩ := h
    exact hinside

theorem readEscape_inside {cs rest : List Char} {c : Char} (h : readEscape cs = some (c, rest)) :
    Inside cs rest := by
  unfold readEscape at h
  split at h
  case h_9 => exact (inside_cons (by decide) _).trans (readUnicode_inside h)
  case h_10 => cases h
  all_goals
    cases h
    exact inside_cons (by decide) _

theorem readChar_inside {cs rest : List Char} {c : Option Char} (h : readChar cs = some (c, rest)) :
    Inside cs rest := by
  cases cs with
  | nil => cases h
  | cons d cs =>
    rw [readChar] at h
    split at h
    · rename_i hd
      cases h
      exact inside_cons (by rw [hd]; decide) _
    split at h
    · rename_i hd
      obtain ⟨⟨e, rest'⟩, he, h⟩ := Option.map_eq_some_iff.mp h
      cases h
      exact (inside_cons (by rw [hd]; decide) _).trans (readEscape_inside he)
    split at h
    · cases h
    · rename_i hd
      cases h
      refine inside_cons ?_ _
      rintro rfl
      exact hd (by decide)

theorem readString_inside {fuel : Nat} {cs rest s : List Char}
    (h : readString fuel cs = some (s, rest)) : Inside cs rest := by
  induction fuel generalizing cs s with
  | zero => cases h
  | succ fuel ih =>
    rw [readString] at h
    split at h
    · cases h
    · rename_i hchar
      cases h
      exact readChar_inside hchar
    · rename_i hchar
      obtain ⟨⟨s', rest'⟩, hs, h⟩ := Option.map_eq_some_iff.mp h
      cases h
      exact (readChar_inside hchar).trans (ih hs)

/-- A string from its opening quote. -/
theorem consumes_string {fuel : Nat} {cs rest s : List Char}
    (h : readString fuel cs = some (s, rest)) : Consumes ('"' :: cs) rest := by
  obtain ⟨p, rfl, hp⟩ := readString_inside h
  exact ⟨'"' :: p, rfl, stretch_token (by decide) (by simpa using hp)⟩

theorem readKey_consumes {cs rest : List Char} {k : String} (h : readKey cs = some (k, rest)) :
    Consumes cs rest := by
  refine (consumes_space cs).trans ?_
  unfold readKey at h
  split at h
  · rename_i hquote
    rw [hquote]
    obtain ⟨⟨s, rest'⟩, hs, h⟩ := Option.bind_eq_some_iff.mp h
    dsimp only at h
    split at h
    · rename_i hcolon
      cases h
      refine (consumes_string hs).trans ((consumes_space _).trans ?_)
      rw [hcolon]
      exact consumes_cons (by decide) _
    · cases h
  · cases h

theorem readNumber_consumes {cs : List Char} :
    Consumes cs (cs.dropWhile numberChar) :=
  consumes_takeWhile (fun c hc => by rw [lineStart, hc, Bool.or_true, Bool.true_or]) cs

/-- A literal. -/
theorem consumes_literal {c : Char} (cs : List Char) (hc : lineStart c = true)
    (hcs : '\n' ∉ c :: cs) (rest : List Char) : Consumes (c :: cs ++ rest) rest :=
  ⟨c :: cs, rfl, stretch_token hc hcs⟩

/-- The comma before every item but the first. -/
theorem consumes_comma {first : Bool} {c : Char} {rest : List Char}
    (h : ¬(first = false ∧ c ≠ ',')) :
    Consumes (c :: rest) (if first then c :: rest else rest) := by
  cases first with
  | true => exact ⟨[], rfl, stretch_nil⟩
  | false =>
    rw [not_and, not_not] at h
    rw [h rfl]
    exact consumes_cons (by decide) rest

/-- What the three readers read with a fuel is a stretch. -/
structure Reads (fuel : Nat) : Prop where
  value : ∀ {cs v rest}, readValue fuel cs = some (v, rest) → Consumes cs rest
  items : ∀ {first cs vs rest}, readItems fuel first cs = some (vs, rest) → Consumes cs rest
  members : ∀ {first cs ms rest}, readMembers fuel first cs = some (ms, rest) → Consumes cs rest

theorem Reads.value_succ {fuel : Nat} (R : Reads fuel) {cs rest : List Char} {v : Value}
    (h : readValue (fuel + 1) cs = some (v, rest)) : Consumes cs rest := by
  refine (consumes_space cs).trans ?_
  rw [readValue] at h
  split at h
  · rename_i heq
    rw [heq]
    cases h
    exact consumes_literal ['u', 'l', 'l'] (by decide) (by decide) _
  · rename_i heq
    rw [heq]
    cases h
    exact consumes_literal ['r', 'u', 'e'] (by decide) (by decide) _
  · rename_i heq
    rw [heq]
    cases h
    exact consumes_literal ['a', 'l', 's', 'e'] (by decide) (by decide) _
  · rename_i heq
    rw [heq]
    obtain ⟨_, hs, h⟩ := Option.map_eq_some_iff.mp h
    cases h
    exact consumes_string hs
  · rename_i heq
    rw [heq]
    obtain ⟨_, hitems, h⟩ := Option.map_eq_some_iff.mp h
    cases h
    exact (consumes_cons (by decide) _).trans (R.items hitems)
  · rename_i heq
    rw [heq]
    obtain ⟨_, hmembers, h⟩ := Option.map_eq_some_iff.mp h
    cases h
    exact (consumes_cons (by decide) _).trans (R.members hmembers)
  · obtain ⟨_, -, h⟩ := Option.map_eq_some_iff.mp h
    cases h
    exact readNumber_consumes

theorem Reads.items_succ {fuel : Nat} (R : Reads fuel) {first : Bool} {cs rest : List Char}
    {vs : List Value} (h : readItems (fuel + 1) first cs = some (vs, rest)) : Consumes cs rest := by
  refine (consumes_space cs).trans ?_
  rw [readItems] at h
  split at h
  · rename_i heq
    rw [heq]
    cases h
    exact consumes_cons (by decide) _
  · rename_i heq
    rw [heq]
    split at h
    · cases h
    · rename_i hcomma
      obtain ⟨_, hv, h⟩ := Option.bind_eq_some_iff.mp h
      obtain ⟨_, hvs, h⟩ := Option.bind_eq_some_iff.mp h
      cases h
      exact (consumes_comma hcomma).trans ((R.value hv).trans (R.items hvs))
  · cases h

theorem Reads.members_succ {fuel : Nat} (R : Reads fuel) {first : Bool} {cs rest : List Char}
    {ms : List (String × Value)} (h : readMembers (fuel + 1) first cs = some (ms, rest)) :
    Consumes cs rest := by
  refine (consumes_space cs).trans ?_
  rw [readMembers] at h
  split at h
  · rename_i heq
    rw [heq]
    cases h
    exact consumes_cons (by decide) _
  · rename_i heq
    rw [heq]
    split at h
    · cases h
    · rename_i hcomma
      obtain ⟨_, hk, h⟩ := Option.bind_eq_some_iff.mp h
      obtain ⟨_, hv, h⟩ := Option.bind_eq_some_iff.mp h
      obtain ⟨_, hms, h⟩ := Option.bind_eq_some_iff.mp h
      cases h
      exact (consumes_comma hcomma).trans ((readKey_consumes hk).trans
        ((R.value hv).trans (R.members hms)))
  · cases h

theorem reads : ∀ fuel, Reads fuel
  | 0 => ⟨fun h => (by cases h), fun h => (by cases h), fun h => (by cases h)⟩
  | fuel + 1 => ⟨(reads fuel).value_succ, (reads fuel).items_succ, (reads fuel).members_succ⟩

/-- **No line of a JSON text starts with a character that starts no token.** -/
theorem parse_line {a b : List Char} {c : Char} {v : Value}
    (h : parse (a ++ '\n' :: c :: b) = some v) : lineStart c = true := by
  unfold parse at h
  split at h
  · rename_i rest hread
    obtain ⟨p, hp, hstretch⟩ := (reads _).value hread
    have hspace : skipSpace rest = [] := by
      by_contra hne
      rw [if_neg hne] at h
      cases h
    have hrest : Stretch rest := by
      have hall := consumes_space rest
      rw [hspace] at hall
      obtain ⟨q, hq, hstretch⟩ := hall
      rwa [hq, List.append_nil]
    have hwhole := hstretch.append hrest
    rw [← hp] at hwhole
    have hsuffix : ('\n' :: c :: b).IsChain fun a c => a = '\n' → lineStart c = true :=
      List.IsChain.suffix hwhole ⟨'\n' :: a, by rw [List.cons_append]⟩
    exact (List.isChain_cons_cons.mp hsuffix).1 rfl
  · cases h

/-! ## The end of a text -/

theorem printItems_getLast? (esc : Char → List Char) :
    ∀ (sep : List Char) (items : List Value), (printItems esc sep items).getLast? = some ']'
  | _, [] => rfl
  | sep, v :: rest => by
    have hrest := printItems_getLast? esc [','] rest
    simp [printItems, List.getLast?_append, hrest]

/-- The last character of a value's text closes it. -/
theorem print_getLast? (esc : Char → List Char) (v : Value) :
    ∃ c, (print esc v).getLast? = some c ∧
      (numberChar c = true ∨ c ∈ ['l', 'e', '"', ']', '}']) := by
  cases v with
  | null => exact ⟨'l', rfl, Or.inr (by simp)⟩
  | bool b => cases b <;> exact ⟨'e', rfl, Or.inr (by simp)⟩
  | number n =>
    have hc := List.getLast?_eq_some_getLast n.print_ne_nil
    exact ⟨_, hc, Or.inl (n.print_numberChar _ (List.mem_of_getLast? hc))⟩
  | string s => exact ⟨'"', by simp [print, quote, List.getLast?_cons, List.getLast?_append],
      Or.inr (by simp)⟩
  | array items =>
    refine ⟨']', ?_, Or.inr (by simp)⟩
    rw [print, List.getLast?_cons, printItems_getLast?]
    rfl
  | object members =>
    refine ⟨'}', ?_, Or.inr (by simp)⟩
    rw [print, List.getLast?_cons, printMembers_getLast?]
    rfl

/-! ## Characters that a text leaves out -/

/-- The characters of the tokens that are neither numbers nor strings. -/
def TOKENS : List Char :=
  ['"', '[', ']', '{', '}', ':', ',', 'n', 'u', 'l', 't', 'r', 'e', 'f', 'a', 's']

/-- A character that no token is made of, and that an escaping leaves out. -/
structure Unprinted (esc : Char → List Char) (c : Char) : Prop where
  escaped : ∀ d, c ∉ esc d
  number : numberChar c = false
  token : c ∉ TOKENS

section
variable {esc : Char → List Char} {c : Char} (h : Unprinted esc c)
include h

theorem token_not_mem {cs : List Char} (hcs : cs.all (· ∈ TOKENS) = true) : c ∉ cs := fun hmem =>
  h.token (of_decide_eq_true (List.all_eq_true.mp hcs c hmem))

theorem quote_not_mem (s : String) : c ∉ quote esc s := by
  have htoken := h.token
  simp only [TOKENS, List.mem_cons, not_or] at htoken
  simp only [quote, List.mem_cons, List.mem_append, List.mem_flatMap, List.not_mem_nil, or_false,
    not_or, not_exists, not_and]
  exact ⟨htoken.1, fun d _ => h.escaped d, htoken.1⟩

theorem number_not_mem (n : Number) : c ∉ n.print := fun hmem => by
  have hnumber := n.print_numberChar c hmem
  rw [h.number] at hnumber
  cases hnumber

mutual
theorem print_not_mem : ∀ v : Value, c ∉ print esc v
  | .null => token_not_mem h rfl
  | .bool true => token_not_mem h rfl
  | .bool false => token_not_mem h rfl
  | .number n => number_not_mem h n
  | .string s => quote_not_mem h s
  | .array items => by
    have hitems := printItems_not_mem [] (by simp) items
    have hopen : c ∉ ['['] := token_not_mem h rfl
    rw [print, List.mem_cons, not_or]
    exact ⟨by simpa using hopen, hitems⟩
  | .object members => by
    have hmembers := printMembers_not_mem [] (by simp) members
    have hopen : c ∉ ['{'] := token_not_mem h rfl
    rw [print, List.mem_cons, not_or]
    exact ⟨by simpa using hopen, hmembers⟩
theorem printItems_not_mem (sep : List Char) (hsep : c ∉ sep) :
    ∀ items : List Value, c ∉ printItems esc sep items
  | [] => token_not_mem h rfl
  | v :: vs => by
    have hcomma : c ∉ [','] := token_not_mem h rfl
    simp only [printItems, List.mem_append, not_or]
    exact ⟨hsep, print_not_mem v, printItems_not_mem [','] hcomma vs⟩
theorem printMembers_not_mem (sep : List Char) (hsep : c ∉ sep) :
    ∀ members : List (String × Value), c ∉ printMembers esc sep members
  | [] => token_not_mem h rfl
  | (k, v) :: ms => by
    have hcomma : c ∉ [','] := token_not_mem h rfl
    have hcolon : c ∉ [':'] := token_not_mem h rfl
    simp only [printMembers, List.mem_append, List.mem_cons, not_or]
    exact ⟨hsep, quote_not_mem h k, by simpa using hcolon, print_not_mem v,
      printMembers_not_mem [','] hcomma ms⟩
end

omit h in
theorem newline_not_mem (hline : c ≠ '\n') (hspace : c ≠ ' ') (level : Nat) : c ∉ newline level := by
  intro hmem
  rcases List.mem_cons.mp hmem with hmem | hmem
  · exact hline hmem
  · exact hspace (List.eq_of_mem_replicate hmem)

theorem separator_not_mem (first : Bool) : c ∉ separator first := by
  cases first with
  | true => exact List.not_mem_nil
  | false => exact token_not_mem h rfl

omit h in
theorem blank_not_mem (hline : c ≠ '\n') (hspace : c ≠ ' ') (first : Bool) (level : Nat) :
    c ∉ (if first then [] else newline level) := by
  cases first with
  | true => exact List.not_mem_nil
  | false => exact newline_not_mem hline hspace level

mutual
theorem pretty_not_mem (hline : c ≠ '\n') (hspace : c ≠ ' ') :
    ∀ (level : Nat) (v : Value), c ∉ pretty esc level v
  | _, .null => print_not_mem h .null
  | _, .bool true => print_not_mem h (.bool true)
  | _, .bool false => print_not_mem h (.bool false)
  | _, .number n => number_not_mem h n
  | _, .string s => quote_not_mem h s
  | level, .array items => by
    have hopen : c ∉ ['['] := token_not_mem h rfl
    rw [pretty, List.mem_cons, not_or]
    exact ⟨by simpa using hopen, prettyItems_not_mem hline hspace level true items⟩
  | level, .object members => by
    have hopen : c ∉ ['{'] := token_not_mem h rfl
    rw [pretty, List.mem_cons, not_or]
    exact ⟨by simpa using hopen, prettyMembers_not_mem hline hspace level true members⟩
theorem prettyItems_not_mem (hline : c ≠ '\n') (hspace : c ≠ ' ') :
    ∀ (level : Nat) (first : Bool) (items : List Value), c ∉ prettyItems esc level first items
  | level, first, [] => by
    rw [prettyItems, List.mem_append, not_or]
    exact ⟨blank_not_mem hline hspace first level, token_not_mem h rfl⟩
  | level, first, v :: vs => by
    simp only [prettyItems, List.mem_append, not_or]
    exact ⟨separator_not_mem h first, newline_not_mem hline hspace _,
      pretty_not_mem hline hspace (level + 1) v, prettyItems_not_mem hline hspace level false vs⟩
theorem prettyMembers_not_mem (hline : c ≠ '\n') (hspace : c ≠ ' ') :
    ∀ (level : Nat) (first : Bool) (members : List (String × Value)),
      c ∉ prettyMembers esc level first members
  | level, first, [] => by
    rw [prettyMembers, List.mem_append, not_or]
    exact ⟨blank_not_mem hline hspace first level, token_not_mem h rfl⟩
  | level, first, (k, v) :: ms => by
    have hcolon : c ∉ [':'] := token_not_mem h rfl
    simp only [prettyMembers, List.mem_append, List.mem_cons, not_or]
    exact ⟨separator_not_mem h first, newline_not_mem hline hspace _, quote_not_mem h k,
      by simpa using hcolon, hspace, pretty_not_mem hline hspace (level + 1) v,
      prettyMembers_not_mem hline hspace level false ms⟩
end

end

theorem hexDigit_toNat : ∀ n < 16, 0x20 ≤ (hexDigit n).toNat := by decide

/-- The escapes of the source's JSON library leave no control character in a text. -/
theorem escape_not_mem {c : Char} (hc : c.toNat < 0x20) (d : Char) : c ∉ escape d := by
  have hne : ∀ e : Char, 0x20 ≤ e.toNat → c ≠ e := by
    rintro e he rfl
    omega
  unfold escape
  split_ifs with h1 h2 h3 h4 h5 h6 h7 hlow
  all_goals simp only [List.mem_cons, List.not_mem_nil, or_false, not_or]
  iterate 7 exact ⟨hne _ (by decide), hne _ (by decide)⟩
  · have hhigh := hexDigit_toNat (d.toNat / 16) (by omega)
    have hdigit := hexDigit_toNat (d.toNat % 16) (by omega)
    exact ⟨hne _ (by decide), hne _ (by decide), hne _ (by decide), hne _ (by decide),
      hne _ hhigh, hne _ hdigit⟩
  · exact hne d (not_lt.mp hlow)

/-- Control characters are in no text of the source's JSON library, but for the line feeds and
    spaces of its layout. -/
theorem unprinted_escape {c : Char} (hc : c.toNat < 0x20) : Unprinted escape c where
  escaped := escape_not_mem hc
  number := by
    cases hnumber : numberChar c with
    | false => rfl
    | true =>
      simp only [numberChar, Bool.or_eq_true, Char.isDigit, Bool.and_eq_true, decide_eq_true_eq,
        List.mem_cons, List.not_mem_nil, or_false] at hnumber
      rcases hnumber with ⟨h, -⟩ | rfl | rfl | rfl | rfl | rfl
      · have : 48 ≤ c.toNat := h
        omega
      all_goals exact absurd hc (by decide)
  token := by
    have htokens : TOKENS.all (0x20 ≤ ·.toNat) = true := rfl
    intro hmem
    have := of_decide_eq_true (List.all_eq_true.mp htokens c hmem)
    omega

end Json
