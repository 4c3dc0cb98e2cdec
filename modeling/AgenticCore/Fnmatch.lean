import AgenticCore.InstructionApplicability

/-!
# The declarative meaning of a path pattern

* `ClassMember`, `Bracket` : what a closed bracket class contains, and where it ends.
* `Fnmatch`                : the strings a pattern matches, by the pattern's own characters.
* `tokens_iff`             : the tokens of a pattern mean what the pattern does.
* `matches_iff_fnmatch`    : **`matches` decides `Fnmatch`**, and each of its rows marks the
                             prefixes the tokens read so far match.
-/

set_option autoImplicit false

namespace AgenticCore.InstructionApplicability

/-! ## Patterns -/

/-- The characters of a class body, read from the left: a range where a hyphen has a character on
    each side, else one character. -/
inductive ClassMember : List Char → Char → Prop where
  | within {a b x : Char} {rest : List Char} :
      a ≤ x → x ≤ b → ClassMember (a :: '-' :: b :: rest) x
  | afterRange {a b x : Char} {rest : List Char} :
      ClassMember rest x → ClassMember (a :: '-' :: b :: rest) x
  | here {a : Char} {rest : List Char} :
      (∀ b rest', rest ≠ '-' :: b :: rest') → ClassMember (a :: rest) a
  | after {a x : Char} {rest : List Char} :
      (∀ b rest', rest ≠ '-' :: b :: rest') → ClassMember rest x → ClassMember (a :: rest) x

/-- A class body has a first character, which may be `]`, and no `]` after it. -/
def ClassBody (body : List Char) : Prop := ∃ first rest, body = first :: rest ∧ ']' ∉ rest

/-- What follows a `[` is a class body, negated by a leading `!`, its `]`, and the rest. -/
inductive Bracket : List Char → Bool → List Char → List Char → Prop where
  | plain {body after : List Char} :
      ClassBody body → body.head? ≠ some '!' → Bracket (body ++ ']' :: after) false body after
  | negated {body after : List Char} :
      ClassBody body → Bracket ('!' :: (body ++ ']' :: after)) true body after

/-- The strings a pattern matches. -/
inductive Fnmatch : List Char → List Char → Prop where
  | nil : Fnmatch [] []
  | star {ps cs : List Char} (skipped : List Char) :
      Fnmatch ps cs → Fnmatch ('*' :: ps) (skipped ++ cs)
  | any {ps cs : List Char} {c : Char} : Fnmatch ps cs → Fnmatch ('?' :: ps) (c :: cs)
  | bracket {rest body after cs : List Char} {negated : Bool} {c : Char} :
      Bracket rest negated body after → (ClassMember body c ↔ negated = false) →
        Fnmatch after cs → Fnmatch ('[' :: rest) (c :: cs)
  | unclosed {rest cs : List Char} :
      (∀ negated body after, ¬Bracket rest negated body after) → Fnmatch rest cs →
        Fnmatch ('[' :: rest) ('[' :: cs)
  | literal {ps cs : List Char} {c : Char} :
      c ∉ ['*', '?', '['] → Fnmatch ps cs → Fnmatch (c :: ps) (c :: cs)

/-! ## Classes -/

theorem inRanges_cons {a b : Char} {rs : List (Char × Char)} {x : Char} :
    inRanges ((a, b) :: rs) x = true ↔ (a ≤ x ∧ x ≤ b) ∨ inRanges rs x = true := by
  simp [inRanges]

theorem classMember_iff (body : List Char) (x : Char) :
    ClassMember body x ↔ inRanges (ranges body) x = true := by
  induction body using ranges.induct with
  | case1 a b rest ih =>
    rw [ranges, inRanges_cons, ← ih]
    constructor
    · intro h
      cases h with
      | within ha hb => exact Or.inl ⟨ha, hb⟩
      | afterRange h => exact Or.inr h
      | here hne => exact absurd rfl (hne b rest)
      | after hne h => exact absurd rfl (hne b rest)
    · rintro (⟨ha, hb⟩ | h)
      · exact .within ha hb
      · exact .afterRange h
  | case2 a rest hne ih =>
    have hne' : ∀ b rest', rest ≠ '-' :: b :: rest' := fun b rest' h => hne b rest' h
    rw [ranges.eq_2 a rest hne, inRanges_cons, ← ih]
    constructor
    · intro h
      cases h with
      | within ha hb => exact absurd rfl (hne' _ _)
      | afterRange h => exact absurd rfl (hne' _ _)
      | here => exact Or.inl ⟨le_rfl, le_rfl⟩
      | after _ h => exact Or.inr h
    · rintro (⟨ha, hb⟩ | h)
      · rw [le_antisymm hb ha]
        exact .here hne'
      · exact .after hne' h
  | case3 =>
    rw [ranges]
    refine iff_of_false (fun h => ?_) (by simp [inRanges])
    cases h

/-! ## The closing bracket -/

/-- The length of the body that starts a list, as far as there is a `]` to end it. -/
def scan (rest : List Char) : Nat :=
  let start := if rest[0]? = some ']' then 1 else 0
  start + ((rest.drop start).takeWhile (· ≠ ']')).length

theorem bodyEnd_eq (rest : List Char) : bodyEnd rest =
    if rest[0]? = some '!' then 1 + scan (rest.drop 1) else scan rest := by
  unfold bodyEnd scan
  by_cases hbang : rest[0]? = some '!'
  · simp only [if_pos hbang, List.getElem?_drop, Nat.add_zero, List.drop_drop]
    by_cases hclose : rest[1]? = some ']'
    · simp only [if_pos hclose]
      omega
    · simp only [if_neg hclose, Nat.add_zero]
      omega
  · simp only [if_neg hbang, Nat.zero_add]

theorem takeWhile_body {rest : List Char} (h : ']' ∉ rest) (after : List Char) :
    (rest ++ ']' :: after).takeWhile (· ≠ ']') = rest := by
  rw [List.takeWhile_append_of_pos (by
    intro c hc
    rw [decide_eq_true_eq]
    rintro rfl
    exact h hc)]
  simp

theorem scan_body {body : List Char} (h : ClassBody body) (after : List Char) :
    scan (body ++ ']' :: after) = body.length := by
  obtain ⟨first, rest, rfl, hrest⟩ := h
  unfold scan
  by_cases hfirst : first = ']'
  · subst hfirst
    have htake := takeWhile_body hrest after
    simp only [List.cons_append, List.getElem?_cons_zero, if_true, List.drop_succ_cons,
      List.drop_zero, htake, List.length_cons]
    omega
  · have hnot : ']' ∉ first :: rest := by simp [Ne.symm hfirst, hrest]
    have htake := takeWhile_body hnot after
    simp only [List.cons_append, List.getElem?_cons_zero, Option.some.injEq, hfirst, if_false,
      List.drop_zero] at htake ⊢
    rw [htake, Nat.zero_add]

/-- Where the scan stops before the end, it stops at the `]` that closes a body. -/
theorem scan_ends {rest : List Char} (h : scan rest < rest.length) :
    ∃ body after, ClassBody body ∧ rest = body ++ ']' :: after := by
  have hstop : ∀ cs : List Char, (cs.takeWhile (· ≠ ']')).length < cs.length →
      ∃ tail after, ']' ∉ tail ∧ cs = tail ++ ']' :: after := by
    intro cs hlt
    obtain ⟨c, after, hdrop⟩ : ∃ c after, cs.dropWhile (· ≠ ']') = c :: after := by
      cases hdrop : cs.dropWhile (· ≠ ']') with
      | nil =>
        have hsplit := congrArg List.length (List.takeWhile_append_dropWhile (p := (· ≠ ']')) (l := cs))
        rw [hdrop, List.append_nil] at hsplit
        omega
      | cons c after => exact ⟨c, after, rfl⟩
    have hc : c = ']' := by
      have hhead := List.head?_dropWhile_not (p := (· ≠ ']')) (l := cs)
      rw [hdrop] at hhead
      simpa using hhead
    refine ⟨cs.takeWhile (· ≠ ']'), after, ?_, ?_⟩
    · intro hmem
      simpa using List.mem_takeWhile_imp hmem
    · rw [hc] at hdrop
      rw [← hdrop, List.takeWhile_append_dropWhile]
  cases rest with
  | nil => simp [scan] at h
  | cons c cs =>
    unfold scan at h
    by_cases hc : c = ']'
    · subst hc
      simp only [List.getElem?_cons_zero, if_true, List.drop_succ_cons, List.drop_zero,
        List.length_cons] at h
      obtain ⟨tail, after, htail, rfl⟩ := hstop cs (by omega)
      exact ⟨']' :: tail, after, ⟨']', tail, rfl, htail⟩, rfl⟩
    · simp only [List.getElem?_cons_zero, Option.some.injEq, hc, if_false, List.drop_zero,
        Nat.zero_add] at h
      obtain ⟨tail, after, htail, heq⟩ := hstop (c :: cs) h
      cases tail with
      | nil => exact absurd (List.cons.inj heq).1 hc
      | cons d tail =>
        exact ⟨d :: tail, after, ⟨d, tail, rfl, fun hmem => htail (List.mem_cons_of_mem _ hmem)⟩,
          heq⟩

theorem closeBracket_of_bracket {rest body after : List Char} {negated : Bool}
    (h : Bracket rest negated body after) :
    closeBracket rest = some (if negated then '!' :: body else body, after) := by
  unfold closeBracket
  cases h with
  | plain hbody hbang =>
    have hhead : (body ++ ']' :: after)[0]? ≠ some '!' := by
      obtain ⟨first, tail, rfl, -⟩ := hbody
      simpa using hbang
    have hend : bodyEnd (body ++ ']' :: after) = body.length := by
      rw [bodyEnd_eq, if_neg hhead, scan_body hbody]
    rw [hend, if_neg (by simp)]
    simp
  | negated hbody =>
    have hend : bodyEnd ('!' :: (body ++ ']' :: after)) = body.length + 1 := by
      rw [bodyEnd_eq, if_pos (by rfl), List.drop_succ_cons, List.drop_zero, scan_body hbody, add_comm]
    rw [hend, if_neg (by simp)]
    simp

theorem bracket_of_closeBracket {rest : List Char} (h : closeBracket rest ≠ none) :
    ∃ negated body after, Bracket rest negated body after := by
  have hlt : bodyEnd rest ≠ rest.length := by
    intro heq
    exact h (by rw [closeBracket, if_pos heq])
  have hscan : ∀ cs : List Char, scan cs ≤ cs.length := by
    intro cs
    unfold scan
    have htake := (List.takeWhile_sublist (· ≠ ']')
      (l := cs.drop (if cs[0]? = some ']' then 1 else 0))).length_le
    rw [List.length_drop] at htake
    by_cases hc : cs[0]? = some ']'
    · have hpos : 0 < cs.length := (List.getElem?_eq_some_iff.mp hc).1
      simp only [if_pos hc] at htake ⊢
      omega
    · simp only [if_neg hc] at htake ⊢
      omega
  rw [bodyEnd_eq] at hlt
  by_cases hbang : rest[0]? = some '!'
  · rw [if_pos hbang] at hlt
    obtain ⟨cs, rfl⟩ : ∃ cs, rest = '!' :: cs := by
      cases rest with
      | nil => cases hbang
      | cons c cs => exact ⟨cs, by rw [Option.some.inj hbang]⟩
    simp only [List.drop_succ_cons, List.drop_zero, List.length_cons] at hlt
    have hle := hscan cs
    obtain ⟨body, after, hbody, rfl⟩ := @scan_ends cs (by omega)
    exact ⟨true, body, after, .negated hbody⟩
  · rw [if_neg hbang] at hlt
    have hle := hscan rest
    obtain ⟨body, after, hbody, rfl⟩ := @scan_ends rest (by omega)
    refine ⟨false, body, after, .plain hbody fun hhead => hbang ?_⟩
    obtain ⟨first, tail, rfl, -⟩ := hbody
    simpa using hhead

/-! ## Tokens -/

theorem tokens_bracket {rest body after : List Char} {negated : Bool}
    (h : Bracket rest negated body after) :
    tokens ('[' :: rest) = .charClass negated (ranges body) :: tokens after := by
  have hclose := closeBracket_of_bracket h
  rw [tokens]
  split
  · rename_i hnone
    rw [hclose] at hnone
    cases hnone
  · rename_i full after' hsome
    rw [hclose, Option.some.injEq, Prod.mk.injEq] at hsome
    obtain ⟨rfl, rfl⟩ := hsome
    cases h with
    | plain hbody hbang => simp [hbang]
    | negated hbody => simp

theorem tokens_unclosed {rest : List Char}
    (h : ∀ negated body after, ¬Bracket rest negated body after) :
    tokens ('[' :: rest) = .literal '[' :: tokens rest := by
  have hnone : closeBracket rest = none := by
    by_contra hsome
    obtain ⟨negated, body, after, hbracket⟩ := bracket_of_closeBracket hsome
    exact h negated body after hbracket
  rw [tokens]
  split
  · rfl
  · rename_i hsome
    rw [hnone] at hsome
    cases hsome

theorem tokens_literal {c : Char} (h : c ∉ ['*', '?', '[']) (cs : List Char) :
    tokens (c :: cs) = .literal c :: tokens cs := by
  simp only [List.mem_cons, List.not_mem_nil, or_false, not_or] at h
  rw [tokens]
  · exact h.1
  · exact h.2.1
  · exact h.2.2

theorem lang_star_iff {ts : List Token} {cs : List Char} :
    Lang (.star :: ts) cs ↔ ∃ skipped rest, cs = skipped ++ rest ∧ Lang ts rest := by
  rw [← List.singleton_append, lang_append_iff]
  constructor
  · rintro ⟨a, b, heq, -, hb⟩
    exact ⟨a, b, heq, hb⟩
  · rintro ⟨a, b, heq, hb⟩
    exact ⟨a, b, heq, lang_star a, hb⟩

theorem lang_one_iff {t : Token} (ht : t.isStar = false) {ts : List Token} {cs : List Char} :
    Lang (t :: ts) cs ↔ ∃ c rest, cs = c :: rest ∧ accepts t c = true ∧ Lang ts rest := by
  constructor
  · intro h
    cases h with
    | one _ hc h => exact ⟨_, _, rfl, hc, h⟩
    | skip _ => cases ht
    | eat _ => cases ht
  · rintro ⟨c, rest, rfl, hc, h⟩
    exact .one ht hc h

theorem accepts_class {body : List Char} {negated : Bool} {c : Char} :
    accepts (.charClass negated (ranges body)) c = true ↔ (ClassMember body c ↔ negated = false) := by
  rw [accepts, classMember_iff]
  cases inRanges (ranges body) c <;> cases negated <;> simp

theorem lang_of_fnmatch {ps cs : List Char} (h : Fnmatch ps cs) : Lang (tokens ps) cs := by
  induction h with
  | nil =>
    rw [tokens]
    exact .nil
  | star skipped _ ih =>
    rw [tokens]
    exact lang_star_iff.mpr ⟨skipped, _, rfl, ih⟩
  | any _ ih =>
    rw [tokens]
    exact .one rfl rfl ih
  | bracket hbracket hmember _ ih =>
    rw [tokens_bracket hbracket]
    exact .one rfl (accepts_class.mpr hmember) ih
  | unclosed hunclosed _ ih =>
    rw [tokens_unclosed hunclosed]
    exact .one rfl (beq_self_eq_true _) ih
  | literal hc _ ih =>
    rw [tokens_literal hc]
    exact .one rfl (beq_self_eq_true _) ih

/-- The induction is on the length of the pattern, since a class is read as a whole. -/
theorem fnmatch_of_lang : ∀ (n : Nat) {ps cs : List Char}, ps.length ≤ n → Lang (tokens ps) cs →
    Fnmatch ps cs := by
  intro n
  induction n with
  | zero =>
    intro ps cs hn h
    obtain rfl := List.length_eq_zero_iff.mp (Nat.le_zero.mp hn)
    rw [tokens, lang_nil_iff] at h
    exact h ▸ .nil
  | succ n ih =>
    intro ps cs hn h
    cases ps with
    | nil =>
      rw [tokens, lang_nil_iff] at h
      exact h ▸ .nil
    | cons p ps =>
      rw [List.length_cons, Nat.add_le_add_iff_right] at hn
      by_cases hspecial : p ∈ ['*', '?', '[']
      · simp only [List.mem_cons, List.not_mem_nil, or_false] at hspecial
        rcases hspecial with rfl | rfl | rfl
        · rw [tokens, lang_star_iff] at h
          obtain ⟨skipped, rest, rfl, hrest⟩ := h
          exact .star skipped (ih hn hrest)
        · rw [tokens, lang_one_iff rfl] at h
          obtain ⟨c, rest, rfl, -, hrest⟩ := h
          exact .any (ih hn hrest)
        · by_cases hbracket : ∃ negated body after, Bracket ps negated body after
          · obtain ⟨negated, body, after, hbracket⟩ := hbracket
            rw [tokens_bracket hbracket, lang_one_iff rfl] at h
            obtain ⟨c, rest, rfl, hc, hrest⟩ := h
            have hlength : after.length < ps.length + 1 :=
              closeBracket_length (closeBracket_of_bracket hbracket)
            exact .bracket hbracket (accepts_class.mp hc) (ih (by omega) hrest)
          · push Not at hbracket
            rw [tokens_unclosed hbracket, lang_one_iff rfl] at h
            obtain ⟨c, rest, rfl, hc, hrest⟩ := h
            obtain rfl : '[' = c := eq_of_beq hc
            exact .unclosed hbracket (ih hn hrest)
      · rw [tokens_literal hspecial, lang_one_iff rfl] at h
        obtain ⟨c, rest, rfl, hc, hrest⟩ := h
        obtain rfl : p = c := eq_of_beq hc
        exact .literal hspecial (ih hn hrest)

theorem tokens_iff (ps cs : List Char) : Lang (tokens ps) cs ↔ Fnmatch ps cs :=
  ⟨fnmatch_of_lang ps.length le_rfl, lang_of_fnmatch⟩

/-! ## Rows -/

theorem cells_prefixes {ts : List Token} : ∀ {p path : List Char} {row : List Bool} {first : Bool},
    (first = true ↔ Lang ts p) → CellsOk ts p path row →
      List.Forall₂ (fun cell pre => cell = true ↔ Lang ts (p ++ pre)) (first :: row) path.inits
  | p, [], [], first, hf, _ => by
    exact .cons (by rw [List.append_nil]; exact hf) .nil
  | _, [], _ :: _, _, _, h => h.elim
  | _, _ :: _, [], _, _, h => h.elim
  | p, c :: path, cell :: row, first, hf, ⟨hcell, hrow⟩ => by
    rw [List.inits_cons]
    refine .cons (by rw [List.append_nil]; exact hf) ?_
    rw [List.forall₂_map_right_iff]
    refine (cells_prefixes hcell hrow).imp fun cell pre h => ?_
    rw [h, List.append_assoc, List.singleton_append]

/-- **`matches` decides the declarative semantics of patterns**: it answers true exactly when the
pattern matches the path, and its row after any number of tokens marks exactly the prefixes of the
path those tokens match. -/
theorem matches_iff_fnmatch (pattern path : String) :
    (matchesPattern pattern path = true ↔ Fnmatch pattern.toList path.toList) ∧
      ∀ k, List.Forall₂ (fun cell pre => cell = true ↔ Lang ((tokens pattern.toList).take k) pre)
        (finalRow ((tokens pattern.toList).take k) path.toList) path.toList.inits := by
  refine ⟨(matchesPattern_iff pattern path).trans (tokens_iff _ _), fun k => ?_⟩
  have h := finalRow_ok ((tokens pattern.toList).take k) path.toList
  cases hrow : finalRow ((tokens pattern.toList).take k) path.toList with
  | nil =>
    rw [hrow] at h
    exact h.elim
  | cons first row =>
    rw [hrow] at h
    exact cells_prefixes h.1 h.2

example : matchesPattern "[!]-a]x" "bx" = true := by decide +kernel

end AgenticCore.InstructionApplicability
