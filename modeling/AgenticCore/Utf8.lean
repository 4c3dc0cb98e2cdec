import Mathlib.Data.List.Forall2
import Mathlib.Tactic.Common

/-!
# UTF-8, one byte at a time

* `step`, `run`         : the bytes a character still owes, byte by byte.
* `run_iff`             : **the bytes that owe nothing at their end are the encodings of texts**.
* `fromUtf8`            : `str::from_utf8`, with how far the bytes are valid and how an error ends.
* `fromUtf8_unfinished` : what an unfinished end leaves: a valid front, and at most three bytes.
-/

set_option autoImplicit false

namespace Utf8

/-- The least and the greatest value of each byte that a character still owes. -/
abbrev Owed := List (Nat × Nat)

def tail : Nat × Nat := (0x80, 0xBF)

/-- What a character's first byte owes. -/
def follows (first : UInt8) : Option Owed :=
  let b := first.toNat
  if b < 0x80 then some []
  else if b < 0xC2 then none
  else if b ≤ 0xDF then some [tail]
  else if b = 0xE0 then some [(0xA0, 0xBF), tail]
  else if b = 0xED then some [(0x80, 0x9F), tail]
  else if b ≤ 0xEF then some [tail, tail]
  else if b = 0xF0 then some [(0x90, 0xBF), tail, tail]
  else if b ≤ 0xF3 then some [tail, tail, tail]
  else if b = 0xF4 then some [(0x80, 0x8F), tail, tail]
  else none

def Within (range : Nat × Nat) (b : UInt8) : Prop := range.1 ≤ b.toNat ∧ b.toNat ≤ range.2

instance (range : Nat × Nat) (b : UInt8) : Decidable (Within range b) :=
  inferInstanceAs (Decidable (_ ∧ _))

def step : Owed → UInt8 → Option Owed
  | [], b => follows b
  | range :: owed, b => if Within range b then some owed else none

def run (owed : Owed) (bytes : List UInt8) : Option Owed := bytes.foldlM step owed

@[simp] theorem run_nil (owed : Owed) : run owed [] = some owed := rfl

theorem run_cons (owed : Owed) (b : UInt8) (bytes : List UInt8) :
    run owed (b :: bytes) = (step owed b).bind fun owed => run owed bytes := by
  rw [run, List.foldlM_cons]
  rfl

theorem run_append (owed : Owed) (bytes more : List UInt8) :
    run owed (bytes ++ more) = (run owed bytes).bind fun owed => run owed more := by
  rw [run, List.foldlM_append]
  rfl

/-! ## Characters -/

theorem length_follows {b : UInt8} {owed : Owed} (h : follows b = some owed) : owed.length ≤ 3 := by
  unfold follows at h
  simp only at h
  split_ifs at h <;> cases h <;> simp

/-- What is owed is taken first. -/
theorem run_owed {owed : Owed} {bytes : List UInt8} (h : run owed bytes = some []) :
    ∃ own rest, bytes = own ++ rest ∧ List.Forall₂ Within owed own ∧ run [] rest = some [] := by
  induction owed generalizing bytes with
  | nil => exact ⟨[], bytes, rfl, .nil, h⟩
  | cons range owed ih =>
    cases bytes with
    | nil => cases h
    | cons b bytes =>
      rw [run_cons, step] at h
      split at h
      · rename_i hwithin
        obtain ⟨own, rest, rfl, hown, hrest⟩ := ih h
        exact ⟨b :: own, rest, rfl, .cons hwithin hown, hrest⟩
      · cases h

theorem run_within {owed : Owed} {own : List UInt8} (h : List.Forall₂ Within owed own)
    (rest : List UInt8) : run owed (own ++ rest) = run [] rest := by
  induction h with
  | nil => rfl
  | cons hwithin _ ih =>
    rw [List.cons_append, run_cons, step, if_pos hwithin]
    exact ih

/-- The character of a code point. -/
theorem exists_char {v : Nat} (h : v.isValidChar) : ∃ c : Char, c.val.toNat = v := by
  have hlt : v < 2 ^ 32 := by
    rcases h with h | h <;> omega
  exact ⟨⟨UInt32.ofNatLT v hlt, h⟩, rfl⟩

theorem ofNat_eq {n : Nat} {b : UInt8} (h : n = b.toNat) : UInt8.ofNat n = b := by
  rw [h, UInt8.ofNat_toNat]

theorem encode_one {x : UInt8} (hx : x.toNat < 0x80) : ∃ c, String.utf8EncodeChar c = [x] := by
  obtain ⟨c, hc⟩ := exists_char (v := x.toNat) (Or.inl (by omega))
  refine ⟨c, ?_⟩
  rw [String.utf8EncodeChar, if_pos (by omega), ofNat_eq hc]

theorem encode_two {x y : UInt8} (hx : 0xC2 ≤ x.toNat) (hx' : x.toNat ≤ 0xDF) (hy : Within tail y) :
    ∃ c, String.utf8EncodeChar c = [x, y] := by
  simp only [Within, tail] at hy
  obtain ⟨c, hc⟩ := exists_char (v := (x.toNat - 0xC0) * 64 + (y.toNat - 0x80)) (Or.inl (by omega))
  refine ⟨c, ?_⟩
  rw [String.utf8EncodeChar]
  simp only [hc]
  rw [if_neg (by omega), if_pos (by omega), ofNat_eq (b := x) (by omega),
    ofNat_eq (b := y) (by omega)]

theorem encode_three {x y z : UInt8} (hx : 0xE0 ≤ x.toNat) (hx' : x.toNat ≤ 0xEF)
    (hy : Within tail y) (hlow : x.toNat = 0xE0 → 0xA0 ≤ y.toNat)
    (hhigh : x.toNat = 0xED → y.toNat ≤ 0x9F) (hz : Within tail z) :
    ∃ c, String.utf8EncodeChar c = [x, y, z] := by
  simp only [Within, tail] at hy hz
  have hvalid : ((x.toNat - 0xE0) * 4096 + (y.toNat - 0x80) * 64 + (z.toNat - 0x80)).isValidChar := by
    unfold Nat.isValidChar
    omega
  obtain ⟨c, hc⟩ := exists_char hvalid
  refine ⟨c, ?_⟩
  rw [String.utf8EncodeChar]
  simp only [hc]
  rw [if_neg (by omega), if_neg (by omega), if_pos (by omega), ofNat_eq (b := x) (by omega),
    ofNat_eq (b := y) (by omega), ofNat_eq (b := z) (by omega)]

theorem encode_four {x y z w : UInt8} (hx : 0xF0 ≤ x.toNat) (hx' : x.toNat ≤ 0xF4)
    (hy : Within tail y) (hlow : x.toNat = 0xF0 → 0x90 ≤ y.toNat)
    (hhigh : x.toNat = 0xF4 → y.toNat ≤ 0x8F) (hz : Within tail z) (hw : Within tail w) :
    ∃ c, String.utf8EncodeChar c = [x, y, z, w] := by
  simp only [Within, tail] at hy hz hw
  have hvalid : ((x.toNat - 0xF0) * 262144 + (y.toNat - 0x80) * 4096 + (z.toNat - 0x80) * 64 +
      (w.toNat - 0x80)).isValidChar := by
    unfold Nat.isValidChar
    omega
  obtain ⟨c, hc⟩ := exists_char hvalid
  refine ⟨c, ?_⟩
  rw [String.utf8EncodeChar]
  simp only [hc]
  rw [if_neg (by omega), if_neg (by omega), if_neg (by omega), ofNat_eq (b := x) (by omega),
    ofNat_eq (b := y) (by omega), ofNat_eq (b := z) (by omega), ofNat_eq (b := w) (by omega)]

theorem follows_one {b : UInt8} (h : b.toNat < 0x80) : follows b = some [] := by
  unfold follows
  exact if_pos h

theorem follows_two {b : UInt8} (h : 0xC2 ≤ b.toNat) (h' : b.toNat ≤ 0xDF) :
    follows b = some [tail] := by
  unfold follows
  simp only
  rw [if_neg (by omega), if_neg (by omega), if_pos h']

theorem follows_three {b : UInt8} (h : 0xE0 ≤ b.toNat) (h' : b.toNat ≤ 0xEF) :
    ∃ range, follows b = some [range, tail] ∧ ∀ y, Within range y ↔
      Within tail y ∧ (b.toNat = 0xE0 → 0xA0 ≤ y.toNat) ∧ (b.toNat = 0xED → y.toNat ≤ 0x9F) := by
  unfold follows
  simp only
  rw [if_neg (by omega), if_neg (by omega), if_neg (by omega)]
  by_cases hlow : b.toNat = 0xE0
  · exact ⟨_, if_pos hlow, fun y => by unfold Within tail; omega⟩
  · rw [if_neg hlow]
    by_cases hhigh : b.toNat = 0xED
    · exact ⟨_, if_pos hhigh, fun y => by unfold Within tail; omega⟩
    · rw [if_neg hhigh]
      exact ⟨_, if_pos h', fun y => by unfold Within tail; omega⟩

theorem follows_four {b : UInt8} (h : 0xF0 ≤ b.toNat) (h' : b.toNat ≤ 0xF4) :
    ∃ range, follows b = some [range, tail, tail] ∧ ∀ y, Within range y ↔
      Within tail y ∧ (b.toNat = 0xF0 → 0x90 ≤ y.toNat) ∧ (b.toNat = 0xF4 → y.toNat ≤ 0x8F) := by
  unfold follows
  simp only
  rw [if_neg (by omega), if_neg (by omega), if_neg (by omega), if_neg (by omega),
    if_neg (by omega), if_neg (by omega)]
  by_cases hlow : b.toNat = 0xF0
  · exact ⟨_, if_pos hlow, fun y => by unfold Within tail; omega⟩
  · rw [if_neg hlow]
    by_cases hhigh : b.toNat = 0xF4
    · rw [if_neg (by omega)]
      exact ⟨_, if_pos hhigh, fun y => by unfold Within tail; omega⟩
    · exact ⟨_, if_pos (by omega), fun y => by unfold Within tail; omega⟩

theorem follows_first {b : UInt8} {owed : Owed} (h : follows b = some owed) :
    b.toNat < 0x80 ∨ (0xC2 ≤ b.toNat ∧ b.toNat ≤ 0xDF) ∨ (0xE0 ≤ b.toNat ∧ b.toNat ≤ 0xEF) ∨
      (0xF0 ≤ b.toNat ∧ b.toNat ≤ 0xF4) := by
  unfold follows at h
  simp only at h
  split_ifs at h <;> omega

/-- A first byte with what it owes encodes a character. -/
theorem encode_of_follows {b : UInt8} {owed : Owed} {own : List UInt8} (h : follows b = some owed)
    (hown : List.Forall₂ Within owed own) : ∃ c, String.utf8EncodeChar c = b :: own := by
  rcases follows_first h with hb | ⟨hb, hb'⟩ | ⟨hb, hb'⟩ | ⟨hb, hb'⟩
  · rw [follows_one hb] at h
    cases h
    cases hown
    exact encode_one hb
  · rw [follows_two hb hb'] at h
    cases h
    obtain ⟨y, _, hy, hrest, rfl⟩ := List.forall₂_cons_left_iff.mp hown
    cases hrest
    exact encode_two hb hb' hy
  · obtain ⟨range, hfollows, hrange⟩ := follows_three hb hb'
    rw [hfollows] at h
    cases h
    obtain ⟨y, _, hy, hrest, rfl⟩ := List.forall₂_cons_left_iff.mp hown
    obtain ⟨z, _, hz, hrest₁, rfl⟩ := List.forall₂_cons_left_iff.mp hrest
    cases hrest₁
    obtain ⟨hy, hlow, hhigh⟩ := (hrange y).mp hy
    exact encode_three hb hb' hy hlow hhigh hz
  · obtain ⟨range, hfollows, hrange⟩ := follows_four hb hb'
    rw [hfollows] at h
    cases h
    obtain ⟨y, _, hy, hrest, rfl⟩ := List.forall₂_cons_left_iff.mp hown
    obtain ⟨z, _, hz, hrest₁, rfl⟩ := List.forall₂_cons_left_iff.mp hrest
    obtain ⟨w, _, hw, hrest₂, rfl⟩ := List.forall₂_cons_left_iff.mp hrest₁
    cases hrest₂
    obtain ⟨hy, hlow, hhigh⟩ := (hrange y).mp hy
    exact encode_four hb hb' hy hlow hhigh hz hw

theorem run_follows {b : UInt8} {owed : Owed} {own : List UInt8} (h : follows b = some owed)
    (hown : List.Forall₂ Within owed own) (rest : List UInt8) :
    run [] (b :: own ++ rest) = run [] rest := by
  rw [List.cons_append, run_cons, step, h, Option.bind_some]
  exact run_within hown rest

/-- A character's bytes owe nothing at their end. -/
theorem run_encode (c : Char) (rest : List UInt8) :
    run [] (String.utf8EncodeChar c ++ rest) = run [] rest := by
  have hvalid : c.val.toNat < 0xD800 ∨ 0xDFFF < c.val.toNat ∧ c.val.toNat < 0x110000 := c.valid
  have htail : ∀ n, Within tail (UInt8.ofNat (n % 0x40 + 0x80)) := fun n => by
    rw [Within, tail, UInt8.toNat_ofNat']
    omega
  rw [String.utf8EncodeChar]
  split
  · exact run_follows (follows_one (by rw [UInt8.toNat_ofNat']; omega)) .nil rest
  · split
    · exact run_follows (follows_two (by rw [UInt8.toNat_ofNat']; omega)
        (by rw [UInt8.toNat_ofNat']; omega)) (.cons (htail _) .nil) rest
    · split
      · obtain ⟨range, hfollows, hrange⟩ := follows_three
          (b := UInt8.ofNat (c.val.toNat / 4096 % 0x10 + 0xE0)) (by rw [UInt8.toNat_ofNat']; omega)
          (by rw [UInt8.toNat_ofNat']; omega)
        refine run_follows hfollows (.cons ((hrange _).mpr ⟨htail _, ?_, ?_⟩) (.cons (htail _) .nil))
          rest
        · rw [UInt8.toNat_ofNat', UInt8.toNat_ofNat']
          omega
        · rw [UInt8.toNat_ofNat', UInt8.toNat_ofNat']
          omega
      · obtain ⟨range, hfollows, hrange⟩ := follows_four
          (b := UInt8.ofNat (c.val.toNat / 262144 % 0x08 + 0xF0)) (by rw [UInt8.toNat_ofNat']; omega)
          (by rw [UInt8.toNat_ofNat']; omega)
        refine run_follows hfollows (.cons ((hrange _).mpr ⟨htail _, ?_, ?_⟩)
          (.cons (htail _) (.cons (htail _) .nil))) rest
        · rw [UInt8.toNat_ofNat', UInt8.toNat_ofNat']
          omega
        · rw [UInt8.toNat_ofNat', UInt8.toNat_ofNat']
          omega

/-! ## Texts -/

theorem run_texts : ∀ cs : List Char, run [] (cs.flatMap String.utf8EncodeChar) = some []
  | [] => rfl
  | c :: cs => by
    rw [List.flatMap_cons, run_encode]
    exact run_texts cs

theorem texts_of_run {bytes : List UInt8} (h : run [] bytes = some []) :
    ∃ cs : List Char, bytes = cs.flatMap String.utf8EncodeChar := by
  match hbytes : bytes with
  | [] => exact ⟨[], rfl⟩
  | b :: more =>
    rw [run_cons, step] at h
    obtain ⟨owed, hfollows, hrun⟩ := Option.bind_eq_some_iff.mp h
    obtain ⟨own, rest, rfl, hown, hrest⟩ := run_owed hrun
    obtain ⟨c, hc⟩ := encode_of_follows hfollows hown
    obtain ⟨cs, hcs⟩ := texts_of_run hrest
    refine ⟨c :: cs, ?_⟩
    rw [List.flatMap_cons, hc, ← hcs]
    rfl
termination_by bytes.length
decreasing_by
  rw [‹more = own ++ rest›, List.length_cons, List.length_append]
  omega

/-- **Bytes owe nothing at their end exactly when they are the encoding of a text.** -/
theorem run_iff {bytes : List UInt8} :
    run [] bytes = some [] ↔ bytes.toByteArray.IsValidUTF8 := by
  constructor
  · intro h
    obtain ⟨cs, rfl⟩ := texts_of_run h
    exact ⟨cs, rfl⟩
  · rintro ⟨cs, hcs⟩
    have hbytes : bytes = cs.flatMap String.utf8EncodeChar := by
      have := congrArg (fun b : ByteArray => b.data.toList) hcs
      simpa [List.utf8Encode] using this
    rw [hbytes]
    exact run_texts cs

/-! ## `str::from_utf8` -/

/-- How far bytes are valid, and the length of what is not. Bytes that end too early have none. -/
structure Utf8Error where
  validUpTo : Nat
  errorLen : Option Nat
  deriving DecidableEq, Repr

/-- From the start of a character, with the bytes read of it. -/
def checkFrom (start width : Nat) : Owed → List UInt8 → Except Utf8Error Unit
  | [], [] => .ok ()
  | _ :: _, [] => .error ⟨start, none⟩
  | [], b :: bytes =>
    match follows b with
    | none => .error ⟨start + width, some 1⟩
    | some owed => checkFrom (start + width) 1 owed bytes
  | range :: owed, b :: bytes =>
    if Within range b then checkFrom start (width + 1) owed bytes
    else .error ⟨start, some width⟩

def fromUtf8 (bytes : List UInt8) : Except Utf8Error Unit := checkFrom 0 0 [] bytes

theorem checkFrom_complete {start width : Nat} {owed : Owed} {bytes : List UInt8}
    (h : run owed bytes = some []) : checkFrom start width owed bytes = .ok () := by
  induction bytes generalizing start width owed with
  | nil =>
    cases h
    rfl
  | cons b bytes ih =>
    rw [run_cons] at h
    obtain ⟨owed', hstep, hrun⟩ := Option.bind_eq_some_iff.mp h
    cases owed with
    | nil =>
      rw [checkFrom, show follows b = some owed' from hstep]
      exact ih hrun
    | cons range owed =>
      rw [step] at hstep
      split at hstep
      · rename_i hwithin
        cases hstep
        rw [checkFrom, if_pos hwithin]
        exact ih hrun
      · cases hstep

theorem checkFrom_invalid {start width : Nat} {owed : Owed} {bytes : List UInt8}
    (h : run owed bytes = none) :
    ∃ upTo len, checkFrom start width owed bytes = .error ⟨upTo, some len⟩ := by
  induction bytes generalizing start width owed with
  | nil => cases h
  | cons b bytes ih =>
    rw [run_cons] at h
    cases owed with
    | nil =>
      rw [checkFrom]
      split
      · exact ⟨_, _, rfl⟩
      · rename_i owed' hfollows
        rw [step, hfollows] at h
        exact ih h
    | cons range owed =>
      rw [checkFrom]
      split
      · rename_i hwithin
        rw [step, if_pos hwithin] at h
        exact ih h
      · exact ⟨_, _, rfl⟩

/-- Bytes that end within a character: `own` are its bytes so far. -/
theorem checkFrom_unfinished (start : Nat) {owed left : Owed} {range : Nat × Nat}
    {own bytes : List UInt8} (hown : run [] own = some owed)
    (hfew : owed = [] ∨ own.length + owed.length ≤ 4) (h : run owed bytes = some (range :: left)) :
    ∃ n, n ≤ (own ++ bytes).length ∧
      checkFrom start own.length owed bytes = .error ⟨start + n, none⟩ ∧
      run [] ((own ++ bytes).take n) = some [] ∧
      run [] ((own ++ bytes).drop n) = some (range :: left) ∧
      ((own ++ bytes).drop n).length ≤ 3 := by
  induction bytes generalizing start owed own with
  | nil =>
    cases h
    refine ⟨0, Nat.zero_le _, rfl, rfl, ?_, ?_⟩
    · rw [List.append_nil]
      exact hown
    · rcases hfew with hnil | hfew
      · cases hnil
      · rw [List.append_nil, List.drop_zero]
        rw [List.length_cons] at hfew
        omega
  | cons b bytes ih =>
    rw [run_cons] at h
    obtain ⟨owed', hstep, hrun⟩ := Option.bind_eq_some_iff.mp h
    cases owed with
    | nil =>
      -- The character before is complete: the next one starts here.
      have hfollows : follows b = some owed' := hstep
      have hfirst : run [] [b] = some owed' := by
        rw [run_cons, step, hfollows]
        rfl
      have hlength := length_follows hfollows
      obtain ⟨n, hn, hcheck, hfront, hrest, hshort⟩ :=
        ih (start + own.length) hfirst (Or.inr (by simp; omega)) hrun
      rw [List.singleton_append] at hn hfront hrest hshort
      refine ⟨own.length + n, ?_, ?_, ?_, ?_, ?_⟩
      · rw [List.length_append]
        omega
      · rw [checkFrom, hfollows, ← Nat.add_assoc]
        exact hcheck
      · rw [List.take_length_add_append, run_append, hown]
        exact hfront
      · rw [List.drop_length_add_append]
        exact hrest
      · rw [List.drop_length_add_append]
        exact hshort
    | cons next owed =>
      rw [step] at hstep
      split at hstep
      · rename_i hwithin
        obtain rfl := Option.some.inj hstep
        have hmore : run [] (own ++ [b]) = some owed := by
          rw [run_append, hown, Option.bind_some, run_cons, step, if_pos hwithin]
          rfl
        have hfew' : (own ++ [b]).length + owed.length ≤ 4 := by
          rcases hfew with hnil | hfew
          · cases hnil
          · rw [List.length_append, List.length_singleton]
            rw [List.length_cons] at hfew
            omega
        obtain ⟨n, hn, hcheck, hrest⟩ := ih start hmore (Or.inr hfew') hrun
        rw [List.append_assoc, List.singleton_append] at hn hrest
        rw [List.length_append, List.length_singleton] at hcheck
        refine ⟨n, hn, ?_, hrest⟩
        rw [checkFrom, if_pos hwithin]
        exact hcheck
      · cases hstep

/-- Bytes that end within a character have a valid front and at most three bytes of it. -/
theorem fromUtf8_unfinished {bytes : List UInt8} {range : Nat × Nat} {left : Owed}
    (h : run [] bytes = some (range :: left)) :
    ∃ n, n ≤ bytes.length ∧ fromUtf8 bytes = .error ⟨n, none⟩ ∧ run [] (bytes.take n) = some [] ∧
      run [] (bytes.drop n) = some (range :: left) ∧ (bytes.drop n).length ≤ 3 := by
  have hempty : run [] [] = some [] := rfl
  obtain ⟨n, hn, hcheck, hrest⟩ := checkFrom_unfinished 0 hempty (Or.inl rfl) h
  rw [Nat.zero_add] at hcheck
  exact ⟨n, hn, hcheck, hrest⟩

theorem fromUtf8_complete {bytes : List UInt8} (h : run [] bytes = some []) :
    fromUtf8 bytes = .ok () := checkFrom_complete h

theorem fromUtf8_invalid {bytes : List UInt8} (h : run [] bytes = none) :
    ∃ upTo len, fromUtf8 bytes = .error ⟨upTo, some len⟩ := checkFrom_invalid h

end Utf8
