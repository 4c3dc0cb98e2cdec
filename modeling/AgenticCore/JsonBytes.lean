import AgenticCore.JsonText
import AgenticCore.Basic

/-!
# JSON bytes

* `fromSlice_incomplete` : **an object's bytes that break off are the bytes of no value**.
* `byteCount`            : the size of a text, and how it grows with the items of an array.
* `byteCount_print_le`   : a bound on it for which no text is written.
-/

set_option autoImplicit false

namespace Json

/-! ## A text that goes on

What the parser has read of a text it reads of every longer text. -/

theorem skipSpace_append {cs : List Char} (q : List Char) (h : skipSpace cs ≠ []) :
    skipSpace (cs ++ q) = skipSpace cs ++ q := by
  rw [skipSpace, List.dropWhile_append, if_neg]
  · rfl
  · simpa [skipSpace, List.isEmpty_iff] using h

theorem readHex4_append {cs rest : List Char} {n : Nat} (q : List Char)
    (h : readHex4 cs = some (n, rest)) : readHex4 (cs ++ q) = some (n, rest ++ q) := by
  unfold readHex4 at h
  split at h
  · rename_i a b c d tail
    simp only [Option.bind_eq_bind, Option.bind_eq_some_iff, Option.pure_def, Option.some.injEq,
      Prod.mk.injEq] at h
    obtain ⟨x, hx, y, hy, z, hz, w, hw, rfl, rfl⟩ := h
    simp [readHex4, hx, hy, hz, hw]
  · cases h

theorem readUnicode_append {cs rest : List Char} {c : Char} (q : List Char)
    (h : readUnicode cs = some (c, rest)) : readUnicode (cs ++ q) = some (c, rest ++ q) := by
  simp only [readUnicode, Option.bind_eq_bind, Option.bind_eq_some_iff] at h ⊢
  obtain ⟨⟨high, tail⟩, hhigh, h⟩ := h
  refine ⟨(high, tail ++ q), readHex4_append q hhigh, ?_⟩
  simp only at h ⊢
  split at h
  · rename_i hsurrogate
    rw [if_pos hsurrogate]
    split at h
    · rename_i tail'
      obtain ⟨⟨low, tail''⟩, hlow, h⟩ := Option.bind_eq_some_iff.mp h
      simp only at h
      split at h
      · rename_i hpair
        simp only [Option.pure_def, Option.some.injEq, Prod.mk.injEq] at h
        obtain ⟨rfl, rfl⟩ := h
        simp only [List.cons_append, readHex4_append q hlow, Option.bind_some]
        rw [if_pos hpair]
        rfl
      · cases h
    · cases h
  · rename_i hsurrogate
    rw [if_neg hsurrogate]
    split at h
    · cases h
    · rename_i hlow
      cases h
      rw [if_neg hlow]
      rfl

theorem readEscape_append {cs rest : List Char} {c : Char} (q : List Char)
    (h : readEscape cs = some (c, rest)) : readEscape (cs ++ q) = some (c, rest ++ q) := by
  unfold readEscape at h
  split at h <;> first | exact readUnicode_append q h | (cases h <;> rfl)

theorem readChar_append {cs rest : List Char} {c : Option Char} (q : List Char)
    (h : readChar cs = some (c, rest)) : readChar (cs ++ q) = some (c, rest ++ q) := by
  cases cs with
  | nil => cases h
  | cons d tail =>
    simp only [readChar, List.cons_append] at h ⊢
    split at h
    · rename_i hquote
      cases h
      rw [if_pos hquote]
    · rename_i hquote
      rw [if_neg hquote]
      split at h
      · rename_i hslash
        obtain ⟨⟨e, tail'⟩, he, hpair⟩ := Option.map_eq_some_iff.mp h
        cases hpair
        rw [if_pos hslash, readEscape_append q he]
        rfl
      · rename_i hslash
        rw [if_neg hslash]
        split at h
        · cases h
        · rename_i hlow
          cases h
          rw [if_neg hlow]

theorem readString_append (q : List Char) : ∀ {fuel fuel' : Nat} {cs s rest : List Char},
    fuel ≤ fuel' → readString fuel cs = some (s, rest) →
      readString fuel' (cs ++ q) = some (s, rest ++ q)
  | 0, _, _, _, _, _, h => by cases h
  | fuel + 1, 0, _, _, _, hle, _ => by omega
  | fuel + 1, fuel' + 1, cs, s, rest, hle, h => by
    unfold readString at h ⊢
    split at h
    · cases h
    · rename_i tail hchar
      cases h
      rw [readChar_append q hchar]
    · rename_i c tail hchar
      obtain ⟨⟨s', rest'⟩, hs, hpair⟩ := Option.map_eq_some_iff.mp h
      cases hpair
      rw [readChar_append q hchar]
      simp only [readString_append q (Nat.le_of_succ_le_succ hle) hs, Option.map_some]

theorem readKey_append {cs rest : List Char} {k : String} (q : List Char)
    (h : readKey cs = some (k, rest)) : readKey (cs ++ q) = some (k, rest ++ q) := by
  unfold readKey at h
  split at h
  · rename_i body hbody
    obtain ⟨⟨s, tail⟩, hs, h⟩ := Option.bind_eq_some_iff.mp h
    simp only at h
    split at h
    · rename_i tail' htail
      cases h
      have hstring := @readString_append q _ ((body ++ q).length + 1) _ _ _
        (by simp) hs
      rw [readKey, skipSpace_append q (by rw [hbody]; simp), hbody]
      simp only [List.cons_append, hstring, Option.bind_eq_bind, Option.bind_some]
      rw [skipSpace_append q (by rw [htail]; simp), htail]
      rfl
    · cases h
  · cases h


theorem span_number_append {ds : List Char} (q : List Char) (h : ds.dropWhile numberChar ≠ []) :
    (ds ++ q).takeWhile numberChar = ds.takeWhile numberChar ∧
      (ds ++ q).dropWhile numberChar = ds.dropWhile numberChar ++ q := by
  rw [List.dropWhile_append, List.takeWhile_append]
  have hlen : (ds.takeWhile numberChar).length ≠ ds.length := by
    intro hlen
    have hsplit := congrArg List.length (List.takeWhile_append_dropWhile (p := numberChar) (l := ds))
    rw [List.length_append, hlen] at hsplit
    exact h (List.length_eq_zero_iff.mp (by omega))
  rw [if_neg hlen, if_neg (by simpa [List.isEmpty_iff] using h)]
  exact ⟨rfl, rfl⟩

theorem readNumber_nil : readNumber [] = none := by decide

theorem readItems_nil {fuel : Nat} {x : List Value × List Char} :
    readItems fuel false [] ≠ some x := by
  cases fuel <;> (intro h; cases h)

theorem readMembers_nil {fuel : Nat} {x : List (String × Value) × List Char} :
    readMembers fuel false [] ≠ some x := by
  cases fuel <;> (intro h; cases h)

mutual
/-- A value that does not end in a number at the end of the text is read the same when the text
    goes on. -/
theorem readValue_append (q : List Char) : ∀ {fuel fuel' : Nat} {cs rest : List Char} {v : Value},
    fuel ≤ fuel' → readValue fuel cs = some (v, rest) → (rest ≠ [] ∨ ∀ n, v ≠ .number n) →
      readValue fuel' (cs ++ q) = some (v, rest ++ q)
  | 0, _, _, _, _, _, h, _ => by cases h
  | fuel + 1, 0, _, _, _, hle, _, _ => by omega
  | fuel + 1, fuel' + 1, cs, rest, v, hle, h, hend => by
    have hle' := Nat.le_of_succ_le_succ hle
    unfold readValue at h
    split at h
    · rename_i tail heq
      cases h
      rw [readValue, skipSpace_append q (by rw [heq]; simp), heq]
      rfl
    · rename_i tail heq
      cases h
      rw [readValue, skipSpace_append q (by rw [heq]; simp), heq]
      rfl
    · rename_i tail heq
      cases h
      rw [readValue, skipSpace_append q (by rw [heq]; simp), heq]
      rfl
    · rename_i tail heq
      obtain ⟨⟨s, rest'⟩, hs, hpair⟩ := Option.map_eq_some_iff.mp h
      cases hpair
      have hstring := @readString_append q _ ((tail ++ q).length + 1) _ _ _ (by simp) hs
      rw [readValue, skipSpace_append q (by rw [heq]; simp), heq]
      simp only [List.cons_append, hstring, Option.map_some]
    · rename_i tail heq
      obtain ⟨⟨items, rest'⟩, hitems, hpair⟩ := Option.map_eq_some_iff.mp h
      cases hpair
      rw [readValue, skipSpace_append q (by rw [heq]; simp), heq]
      simp only [List.cons_append, readItems_append q hle' hitems, Option.map_some]
    · rename_i tail heq
      obtain ⟨⟨members, rest'⟩, hmembers, hpair⟩ := Option.map_eq_some_iff.mp h
      cases hpair
      rw [readValue, skipSpace_append q (by rw [heq]; simp), heq]
      simp only [List.cons_append, readMembers_append q hle' hmembers, Option.map_some]
    · obtain ⟨n, hn, hpair⟩ := Option.map_eq_some_iff.mp h
      cases hpair
      have hrest : (skipSpace cs).dropWhile numberChar ≠ [] := by
        rcases hend with hrest | hnumber
        · exact hrest
        · exact absurd rfl (hnumber n)
      obtain ⟨htake, hdrop⟩ := span_number_append q hrest
      have hhead : ∀ d ds, skipSpace cs ++ q = d :: ds → numberChar d = true := by
        intro d ds hds
        by_contra hd
        rw [← htake, hds, List.takeWhile_cons_of_neg hd, readNumber_nil] at hn
        cases hn
      rw [readValue, skipSpace_append q fun hnil => hrest (by rw [hnil]; rfl)]
      -- No other value starts with a character of a number.
      split
      case h_7 => rw [htake, hdrop, hn, Option.map_some]
      all_goals
        rename_i h
        exact absurd (hhead _ _ h) (by decide)
theorem readItems_append (q : List Char) : ∀ {fuel fuel' : Nat} {first : Bool}
    {cs rest : List Char} {vs : List Value},
    fuel ≤ fuel' → readItems fuel first cs = some (vs, rest) →
      readItems fuel' first (cs ++ q) = some (vs, rest ++ q)
  | 0, _, _, _, _, _, _, h => by cases h
  | fuel + 1, 0, _, _, _, _, hle, _ => by omega
  | fuel + 1, fuel' + 1, first, cs, rest, vs, hle, h => by
    have hle' := Nat.le_of_succ_le_succ hle
    unfold readItems at h
    split at h
    · rename_i tail heq
      cases h
      rw [readItems, skipSpace_append q (by rw [heq]; simp), heq]
      rfl
    · rename_i c tail hclose heq
      split at h
      · cases h
      · rename_i hcomma
        simp only [Option.bind_eq_bind, Option.bind_eq_some_iff, Option.pure_def,
          Option.some.injEq, Prod.mk.injEq] at h
        obtain ⟨⟨v, rest₁⟩, hv, ⟨vs', rest₂⟩, hvs, rfl, rfl⟩ := h
        have hrest : rest₁ ≠ [] := by
          rintro rfl
          exact readItems_nil hvs
        have hv' := readValue_append q hle' hv (Or.inl hrest)
        have hvs' := readItems_append q hle' hvs
        rw [readItems, skipSpace_append q (by rw [heq]; simp), heq, List.cons_append]
        split
        · rename_i hc
          exact absurd (List.cons.inj hc).1 hclose
        · rename_i hc
          cases hc
          rw [if_neg hcomma]
          cases first <;> simp_all
        · rename_i hc
          cases hc
    · cases h
theorem readMembers_append (q : List Char) : ∀ {fuel fuel' : Nat} {first : Bool}
    {cs rest : List Char} {ms : List (String × Value)},
    fuel ≤ fuel' → readMembers fuel first cs = some (ms, rest) →
      readMembers fuel' first (cs ++ q) = some (ms, rest ++ q)
  | 0, _, _, _, _, _, _, h => by cases h
  | fuel + 1, 0, _, _, _, _, hle, _ => by omega
  | fuel + 1, fuel' + 1, first, cs, rest, ms, hle, h => by
    have hle' := Nat.le_of_succ_le_succ hle
    unfold readMembers at h
    split at h
    · rename_i tail heq
      cases h
      rw [readMembers, skipSpace_append q (by rw [heq]; simp), heq]
      rfl
    · rename_i c tail hclose heq
      split at h
      · cases h
      · rename_i hcomma
        simp only [Option.bind_eq_bind, Option.bind_eq_some_iff, Option.pure_def,
          Option.some.injEq, Prod.mk.injEq] at h
        obtain ⟨⟨k, rest₀⟩, hk, ⟨v, rest₁⟩, hv, ⟨ms', rest₂⟩, hms, rfl, rfl⟩ := h
        have hrest : rest₁ ≠ [] := by
          rintro rfl
          exact readMembers_nil hms
        have hk' := readKey_append q hk
        have hv' := readValue_append q hle' hv (Or.inl hrest)
        have hms' := readMembers_append q hle' hms
        rw [readMembers, skipSpace_append q (by rw [heq]; simp), heq, List.cons_append]
        split
        · rename_i hc
          exact absurd (List.cons.inj hc).1 hclose
        · rename_i hc
          cases hc
          rw [if_neg hcomma]
          cases first <;> simp_all
        · rename_i hc
          cases hc
    · cases h
end

/-- The text of an object that breaks off is no text of any value. -/
theorem parse_incomplete {esc : Char → List Char} (hesc : Escapes esc)
    {members : List (String × Value)} {p q : List Char}
    (h : print esc (.object members) = p ++ q) (hq : q ≠ []) : parse p = none := by
  cases hread : readValue (p.length + 1) p with
  | none => rw [parse, hread]
  | some result =>
    obtain ⟨v, rest⟩ := result
    have hwhole := readValue_print hesc (.object members) _ [] delimited_nil (Nat.lt_succ_self _)
    rw [List.append_nil, h] at hwhole
    have hobject : ∀ n, v ≠ .number n := by
      rintro n rfl
      cases p with
      | nil => cases hread
      | cons c tail =>
        cases (List.cons.inj h).1
        rw [readValue, skipSpace_cons (by decide)] at hread
        obtain ⟨_, -, hpair⟩ := Option.map_eq_some_iff.mp hread
        cases hpair
    have happend := readValue_append q
      (show p.length + 1 ≤ (p ++ q).length + 1 by simp) hread (Or.inr hobject)
    rw [hwhole] at happend
    exact absurd (List.append_eq_nil_iff.mp (Prod.mk.inj (Option.some.inj happend)).2.symm).2 hq

theorem isValidUTF8_suffix : ∀ {l : List Char} {rest : ByteArray},
    (l.utf8Encode ++ rest).IsValidUTF8 → rest.IsValidUTF8
  | [], _, h => by simpa using h
  | c :: l, rest, h => by
    rw [List.utf8Encode_cons, ByteArray.append_assoc,
      ByteArray.isValidUTF8_utf8Encode_singleton_append_iff] at h
    exact isValidUTF8_suffix h

theorem utf8Encode_inj {l l' : List Char} (h : l.utf8Encode = l'.utf8Encode) : l = l' := by
  refine String.ofList_injective (String.toByteArray_inj.mp ?_)
  rw [String.toByteArray_ofList, String.toByteArray_ofList, h]

theorem fromUTF8_toVec (v : Value) : (String.fromUTF8? (toVec v)).isSome = true := by
  have h := fromSlice_toVec v
  rw [fromSlice] at h
  obtain ⟨text, htext, -⟩ := Option.bind_eq_some_iff.mp h
  rw [htext]
  rfl

theorem toVec_eq (v : Value) : toVec v = (print escape v).utf8Encode := by
  rw [toVec, text, String.toByteArray_ofList]

/-- **The bytes of an object that break off are the bytes of no value.** -/
theorem fromSlice_incomplete {members : List (String × Value)} {part rest : ByteArray}
    (h : toVec (.object members) = part ++ rest) (hrest : rest ≠ .empty) :
    fromSlice part = none := by
  rw [fromSlice, String.fromUTF8?]
  split
  · rename_i hvalid
    obtain ⟨l, rfl⟩ := id hvalid
    rw [toVec_eq] at h
    obtain ⟨q, rfl⟩ : rest.IsValidUTF8 :=
      isValidUTF8_suffix (h ▸ ByteArray.isValidUTF8_utf8Encode)
    rw [← List.utf8Encode_append] at h
    have hq : q ≠ [] := by
      rintro rfl
      exact hrest rfl
    have hl : (String.fromUTF8 l.utf8Encode hvalid).toList = l := by
      refine utf8Encode_inj ?_
      rw [← String.toByteArray_ofList, String.ofList_toList]
      rfl
    rw [Option.bind_some, hl]
    exact parse_incomplete escape_escapes (utf8Encode_inj h) hq
  · rfl

/-! ## Sizes -/

/-- The size of a text in bytes. -/
def byteCount (cs : List Char) : Nat := (cs.map Char.utf8Size).sum

@[simp] theorem byteCount_nil : byteCount [] = 0 := rfl

@[simp] theorem byteCount_cons (c : Char) (cs : List Char) :
    byteCount (c :: cs) = c.utf8Size + byteCount cs := by
  simp [byteCount]

@[simp] theorem byteCount_append (cs ds : List Char) :
    byteCount (cs ++ ds) = byteCount cs + byteCount ds := by
  simp [byteCount]

theorem byteCount_sublist {cs ds : List Char} (h : cs.Sublist ds) : byteCount cs ≤ byteCount ds :=
  (h.map Char.utf8Size).sum_le_sum fun _ _ => Nat.zero_le _

theorem size_utf8Encode (cs : List Char) : cs.utf8Encode.size = byteCount cs := by
  rw [List.utf8Encode]
  induction cs with
  | nil => rfl
  | cons c cs ih =>
    rw [List.flatMap_cons, List.toByteArray_append, ByteArray.size_append, ih, byteCount_cons]
    simp

theorem toVec_size (v : Value) : (toVec v).size = byteCount (print escape v) := by
  rw [toVec_eq, size_utf8Encode]

theorem byteCount_toList (s : String) : byteCount s.toList = s.utf8ByteSize := by
  rw [← size_utf8Encode, ← String.toByteArray_ofList, String.ofList_toList]
  rfl

theorem printItems_sublist (esc : Char → List Char) {items items' : List Value}
    (h : items.Sublist items') : ∀ {sep sep' : List Char}, sep.Sublist sep' →
      sep'.Sublist [','] → (printItems esc sep items).Sublist (printItems esc sep' items') := by
  induction h with
  | slnil => exact fun _ _ => List.Sublist.refl _
  | cons a _ ih =>
    intro sep sep' hsep hsep'
    rw [printItems]
    exact ((ih (hsep.trans hsep') (List.Sublist.refl _)).trans
      (List.sublist_append_right _ _)).trans (List.sublist_append_right _ _)
  | cons_cons a _ ih =>
    intro sep sep' hsep _
    rw [printItems, printItems]
    exact hsep.append ((List.Sublist.refl _).append
      (ih (List.Sublist.refl _) (List.Sublist.refl _)))

/-- Leaving items out makes the text of an array shorter. -/
theorem byteCount_array_sublist {items items' : List Value} (h : items.Sublist items') :
    byteCount (print escape (.array items)) ≤ byteCount (print escape (.array items')) := by
  rw [print, print]
  exact byteCount_sublist
    ((printItems_sublist escape h (List.Sublist.refl []) (List.nil_sublist _)).cons_cons _)

/-- A character that a text keeps as one byte. -/
def plain (c : Char) : Bool :=
  0x20 ≤ c.toNat && c.toNat < 0x80 && c ≠ '"' && c ≠ '\\'

theorem escape_plain {c : Char} (h : plain c = true) : escape c = [c] := by
  simp only [plain, Bool.and_eq_true, decide_eq_true_eq] at h
  obtain ⟨⟨⟨hlow, -⟩, hquote⟩, hslash⟩ := h
  have hne : ∀ d : Char, d.toNat < 0x20 → c ≠ d := by
    rintro d hd rfl
    omega
  unfold escape
  rw [if_neg hquote, if_neg hslash, if_neg (hne _ (by decide)), if_neg (hne _ (by decide)),
    if_neg (hne _ (by decide)), if_neg (by omega), if_neg (by omega), if_neg (by omega)]

theorem utf8Size_plain {c : Char} (h : plain c = true) : c.utf8Size = 1 := by
  simp only [plain, Bool.and_eq_true, decide_eq_true_eq] at h
  obtain ⟨⟨⟨-, hhigh⟩, -⟩, -⟩ := h
  have hle : c.val ≤ 0x7f := UInt32.le_iff_toNat_le.mpr (Nat.lt_succ_iff.mp hhigh)
  simp [Char.utf8Size, hle]

theorem byteCount_plain : ∀ {cs : List Char}, cs.all plain = true → byteCount cs = cs.length
  | [], _ => rfl
  | c :: cs, h => by
    rw [List.all_cons, Bool.and_eq_true] at h
    rw [byteCount_cons, utf8Size_plain h.1, byteCount_plain h.2, List.length_cons, Nat.add_comm]

theorem flatMap_escape_plain : ∀ {cs : List Char}, cs.all plain = true → cs.flatMap escape = cs
  | [], _ => rfl
  | c :: cs, h => by
    rw [List.all_cons, Bool.and_eq_true] at h
    rw [List.flatMap_cons, escape_plain h.1, flatMap_escape_plain h.2]
    rfl

theorem byteCount_quote {s : String} (h : s.toList.all plain = true) :
    byteCount (quote escape s) = s.toList.length + 2 := by
  have hquote : '"'.utf8Size = 1 := by decide
  rw [quote, byteCount_cons, byteCount_append, flatMap_escape_plain h, byteCount_plain h,
    byteCount_cons, byteCount_nil, hquote]
  omega

theorem byteCount_escape (c : Char) : byteCount (escape c) ≤ 6 * c.utf8Size := by
  have hpos : 0 < c.utf8Size := c.utf8Size_pos
  have hdigit : ∀ n < 16, (hexDigit n).utf8Size = 1 := by decide
  have hshort : ∀ d : Char, d.utf8Size = 1 → byteCount ['\\', d] = 2 := by
    intro d hd
    rw [byteCount_cons, byteCount_cons, byteCount_nil, hd]
    rfl
  unfold escape
  split
  · rw [hshort _ (by decide)]
    omega
  split
  · rw [hshort _ (by decide)]
    omega
  split
  · rw [hshort _ (by decide)]
    omega
  split
  · rw [hshort _ (by decide)]
    omega
  split
  · rw [hshort _ (by decide)]
    omega
  split
  · rw [hshort _ (by decide)]
    omega
  split
  · rw [hshort _ (by decide)]
    omega
  split
  · have hfront : byteCount ['\\', 'u', '0', '0'] = 4 := by decide
    have hcontrol : byteCount (['\\', 'u', '0', '0'] ++
        [hexDigit (c.toNat / 16), hexDigit (c.toNat % 16)]) = 6 := by
      rw [byteCount_append, hfront, byteCount_cons, byteCount_cons, byteCount_nil,
        hdigit _ (by omega), hdigit _ (by omega)]
    exact hcontrol.trans_le (by omega)
  · rw [byteCount_cons, byteCount_nil]
    omega

mutual
/-- A bound on the text of a value, for which no text has to be written. -/
def printBound : Value → Nat
  | .null | .bool _ => 5
  | .number n => byteCount n.print
  | .string s => 6 * s.utf8ByteSize + 2
  | .array items => 1 + itemsBound items
  | .object members => 1 + membersBound members
def itemsBound : List Value → Nat
  | [] => 1
  | v :: rest => 1 + printBound v + itemsBound rest
def membersBound : List (String × Value) → Nat
  | [] => 1
  | (k, v) :: rest => 4 + 6 * k.utf8ByteSize + printBound v + membersBound rest
end

theorem byteCount_quote_le (s : String) : byteCount (quote escape s) ≤ 6 * s.utf8ByteSize + 2 := by
  have hchars : ∀ cs : List Char, byteCount (cs.flatMap escape) ≤ 6 * byteCount cs := by
    intro cs
    induction cs with
    | nil => exact Nat.le_refl _
    | cons c cs ih =>
      have hc := byteCount_escape c
      rw [List.flatMap_cons, byteCount_append, byteCount_cons]
      omega
  have hs := hchars s.toList
  have hquote : '"'.utf8Size = 1 := by decide
  rw [byteCount_toList] at hs
  rw [quote, byteCount_cons, byteCount_append, byteCount_cons, byteCount_nil, hquote]
  omega

mutual
theorem byteCount_print_le : ∀ v : Value, byteCount (print escape v) ≤ printBound v
  | .null | .bool true | .bool false => by decide
  | .number n => Nat.le_refl _
  | .string s => byteCount_quote_le s
  | .array items => by
    have hitems := byteCount_items_le items (Or.inl rfl)
    have hopen : '['.utf8Size = 1 := by decide
    rw [print, byteCount_cons, printBound, hopen]
    omega
  | .object members => by
    have hmembers := byteCount_members_le members (Or.inl rfl)
    have hopen : '{'.utf8Size = 1 := by decide
    rw [print, byteCount_cons, printBound, hopen]
    omega
theorem byteCount_items_le {sep : List Char} : ∀ items : List Value, sep = [] ∨ sep = [','] →
    byteCount (printItems escape sep items) ≤ itemsBound items
  | [], _ => by simp [printItems, itemsBound]; decide
  | v :: rest, hsep => by
    have hv := byteCount_print_le v
    have hrest := byteCount_items_le rest (Or.inr rfl)
    have hbytes : byteCount sep ≤ 1 := by
      rcases hsep with rfl | rfl <;> decide
    rw [printItems, byteCount_append, byteCount_append, itemsBound]
    omega
theorem byteCount_members_le {sep : List Char} : ∀ members : List (String × Value),
    sep = [] ∨ sep = [','] → byteCount (printMembers escape sep members) ≤ membersBound members
  | [], _ => by simp [printMembers, membersBound]; decide
  | (k, v) :: rest, hsep => by
    have hk := byteCount_quote_le k
    have hv := byteCount_print_le v
    have hrest := byteCount_members_le rest (Or.inr rfl)
    have hbytes : byteCount sep ≤ 1 := by
      rcases hsep with rfl | rfl <;> decide
    have hcolon : ':'.utf8Size = 1 := by decide
    rw [printMembers, byteCount_append, byteCount_append, byteCount_cons, byteCount_append,
      membersBound, hcolon]
    omega
end

theorem toVec_size_le (v : Value) : (toVec v).size ≤ printBound v :=
  (toVec_size v).trans_le (byteCount_print_le v)

theorem size_le_of_bound {v : Value} {n : Nat} (h : printBound v ≤ n) : (toVec v).size ≤ n :=
  (toVec_size_le v).trans h

end Json

namespace AgenticCore

open Json Text

theorem plain_lowerHexDigit {c : Char} (h : lowerHexDigit c = true) : plain c = true := by
  simp only [lowerHexDigit, Bool.or_eq_true, Bool.and_eq_true, decide_eq_true_eq] at h
  simp only [plain, Bool.and_eq_true, decide_eq_true_eq]
  have h0 : ('0' : Char).toNat = 48 := rfl
  have h9 : ('9' : Char).toNat = 57 := rfl
  have ha : ('a' : Char).toNat = 97 := rfl
  have hf : ('f' : Char).toNat = 102 := rfl
  have hrange : 48 ≤ c.toNat ∧ c.toNat ≤ 57 ∨ 97 ≤ c.toNat ∧ c.toNat ≤ 102 := h
  refine ⟨⟨⟨by omega, by omega⟩, ?_⟩, ?_⟩ <;>
    (rintro rfl; revert hrange; decide)

/-- A digest is plain text of 71 characters. -/
theorem plain_sha256 {s : String} (h : sha256Revision s = true) :
    s.toList.all plain = true ∧ s.toList.length = 71 := by
  simp only [sha256Revision, Bool.and_eq_true, beq_iff_eq] at h
  obtain ⟨⟨hsize, hfront⟩, hhex⟩ := h
  have hsplit : s.toList = "sha256:".toList ++ s.toList.drop 7 := by
    obtain ⟨rest, hrest⟩ := List.isPrefixOf_iff_prefix.mp hfront
    rw [← hrest]
    rfl
  have hall : s.toList.all plain = true := by
    rw [hsplit, List.all_append, Bool.and_eq_true]
    refine ⟨by decide, ?_⟩
    rw [List.all_eq_true] at hhex ⊢
    exact fun c hc => plain_lowerHexDigit (hhex c hc)
  refine ⟨hall, ?_⟩
  rw [← byteCount_plain hall, byteCount_toList, hsize]

/-- A bound on a document's size, over its text. -/
theorem check_size (v : Value) (n : Nat) (problem : String) :
    check ((toVec v).size ≤ n) problem = check (byteCount (print escape v) ≤ n) problem := by
  simp only [toVec_size]

end AgenticCore
