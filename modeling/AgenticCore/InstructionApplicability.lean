import AgenticCore.Worklist
import Mathlib

/-!
# Path patterns: matching and overlap (`instruction_applicability.rs`)

* `tokens` / `matches`  : the fnmatch tokeniser and the row-by-row matcher.
* `accepts` / `intersect` / `patternsOverlap` : the product walk over two token lists.

`Lang` is the meaning of a token list: the character strings it matches. `matches_iff` ties the
matcher to it, `intersect_iff` shows that testing the range boundaries decides whether two
tokens share a character, and `patternsOverlap_iff_matches` that the walk decides whether the
two languages share a string. Paths are taken as on a non-Windows host (no case folding, no
separator rewriting).
-/

set_option autoImplicit false

namespace AgenticCore.InstructionApplicability

inductive Token where
  | star
  | any
  | literal (c : Char)
  | charClass (negated : Bool) (ranges : List (Char × Char))
  deriving DecidableEq, Repr

def Token.isStar : Token → Bool
  | .star => true
  | _ => false

/-- The `while j < end` loop over a bracket body: `a-b` needs three characters before `]`. -/
def ranges : List Char → List (Char × Char)
  | a :: '-' :: b :: rest => (a, b) :: ranges rest
  | a :: rest => (a, a) :: ranges rest
  | [] => []

/-- The search for the closing bracket, on the characters after `[`: a leading `!` and then a
    leading `]` belong to the body. -/
def bodyEnd (rest : List Char) : Nat :=
  let bang := if rest[0]? = some '!' then 1 else 0
  let start := if rest[bang]? = some ']' then bang + 1 else bang
  start + ((rest.drop start).takeWhile (· ≠ ']')).length

/-- The bracket body and what follows it; `none` is an unclosed bracket. -/
def closeBracket (rest : List Char) : Option (List Char × List Char) :=
  if bodyEnd rest = rest.length then none
  else some (rest.take (bodyEnd rest), rest.drop (bodyEnd rest + 1))

theorem closeBracket_length {rest body after : List Char}
    (h : closeBracket rest = some (body, after)) : after.length < rest.length + 1 := by
  unfold closeBracket at h
  split at h
  · cases h
  · cases h
    simp only [List.length_drop]
    omega

/-- The tokeniser, on the characters of the pattern. -/
def tokens : List Char → List Token
  | [] => []
  | '*' :: cs => .star :: tokens cs
  | '?' :: cs => .any :: tokens cs
  | '[' :: cs =>
    match _h : closeBracket cs with
    | none => .literal '[' :: tokens cs
    | some (body, after) =>
      let negated := body.head? = some '!'
      .charClass negated (ranges (body.drop (if negated then 1 else 0))) :: tokens after
  | c :: cs => .literal c :: tokens cs
termination_by cs => cs.length
decreasing_by
  all_goals simp only [List.length_cons]
  all_goals first | omega | exact closeBracket_length _h

def inRanges (ranges : List (Char × Char)) (ch : Char) : Bool :=
  ranges.any fun (a, b) => a ≤ ch && ch ≤ b

/-- The new row past its first cell: `left` is the cell just computed, `above` the cell of the
    old row over it. -/
def nextCells (token : Token) : Bool → Bool → List Char → List Bool → List Bool
  | left, above, ch :: path, cell :: row =>
    let next := match token with
      | .star => left || cell
      | .any => above
      | .literal c => above && ch == c
      | .charClass negated ranges => above && (inRanges ranges ch != negated)
    next :: nextCells token next cell path row
  | _, _, _, _ => []

def nextRow (token : Token) (path : List Char) : List Bool → List Bool
  | [] => []
  | first :: row =>
    let next := token.isStar && first
    next :: nextCells token next first path row

/-- The rows of the matcher, one for each token read. -/
def finalRow (tokens : List Token) (path : List Char) : List Bool :=
  tokens.foldl (fun row token => nextRow token path row)
    (true :: List.replicate path.length false)

def matchesTokens (tokens : List Token) (path : List Char) : Bool :=
  (finalRow tokens path).getLastD false

def matchesPattern (pattern path : String) : Bool :=
  matchesTokens (tokens pattern.toList) path.toList

def accepts : Token → Char → Bool
  | .star, _ => true
  | .any, _ => true
  | .literal value, ch => value == ch
  | .charClass negated ranges, ch => inRanges ranges ch != negated

def tokenRanges : Token → List (Char × Char)
  | .literal c => [(c, c)]
  | .charClass _ ranges => ranges
  | _ => []

/-- The candidate code points at which membership of one range can change. -/
def rangeBoundaries : Char × Char → List Nat
  | (a, b) =>
    if a ≤ b then
      a.toNat :: (if b.toNat < 0x10ffff then [b.toNat + 1] else [])
    else []

def boundaries (left right : Token) : List Nat :=
  [0, 0xe000] ++ (tokenRanges left ++ tokenRanges right).flatMap rangeBoundaries

/-- `char::from_u32`. -/
def charFromU32 (n : Nat) : Option Char :=
  if h : n.isValidChar then some (Char.ofNatAux n h) else none

def intersect (left right : Token) : Bool :=
  ((boundaries left right).filterMap charFromU32).any fun ch => accepts left ch && accepts right ch

/-- The states pushed from `(a, b)`, in the order of the source. -/
def overlapNext (left right : List Token) : Nat × Nat → List (Nat × Nat)
  | (a, b) =>
    (if left[a]? = some .star then [(a + 1, b)] else []) ++
    (if right[b]? = some .star then [(a, b + 1)] else []) ++
    (match left[a]?, right[b]? with
      | some l, some r =>
        if intersect l r then
          [(a + if l.isStar then 0 else 1, b + if r.isStar then 0 else 1)]
        else []
      | _, _ => [])

/-- One iteration: leave the loop at the pair of ends, else push the next states. -/
def overlapVisit (left right : List Token) (state : Nat × Nat) (_ : Unit) :
    Except Unit (Unit × List (Nat × Nat)) :=
  if state = (left.length, right.length) then .error () else .ok ((), overlapNext left right state)

/-- The loop over the pairs of positions. -/
def overlapWalk (left right : List Token) : Option (Except Unit (Unit × List (Nat × Nat))) :=
  Worklist.walk (overlapVisit left right) ((left.length + 1) * (right.length + 1) + 1)
    [(0, 0)] [] ()

def overlapTokens (left right : List Token) : Bool :=
  match overlapWalk left right with
  | some (.error ()) => true
  | _ => false

def patternsOverlap (left right : String) : Bool :=
  overlapTokens (tokens left.toList) (tokens right.toList)

/-! ## The language of a token list -/

/-- The character strings a token list matches. -/
inductive Lang : List Token → List Char → Prop where
  | nil : Lang [] []
  | one {t : Token} {ts : List Token} {c : Char} {cs : List Char} :
      t.isStar = false → accepts t c = true → Lang ts cs → Lang (t :: ts) (c :: cs)
  | skip {ts : List Token} {cs : List Char} : Lang ts cs → Lang (.star :: ts) cs
  | eat {ts : List Token} {c : Char} {cs : List Char} :
      Lang (.star :: ts) cs → Lang (.star :: ts) (c :: cs)

theorem isStar_iff {t : Token} : t.isStar = true ↔ t = .star := by
  cases t <;> simp [Token.isStar]

theorem lang_nil_iff {cs : List Char} : Lang [] cs ↔ cs = [] :=
  ⟨fun h => by cases h; rfl, fun h => h ▸ .nil⟩

theorem lang_star (cs : List Char) : Lang [.star] cs := by
  induction cs with
  | nil => exact .skip .nil
  | cons c cs ih => exact .eat ih

theorem lang_single_iff {t : Token} (ht : t.isStar = false) {cs : List Char} :
    Lang [t] cs ↔ ∃ c, cs = [c] ∧ accepts t c = true := by
  constructor
  · intro h
    cases h with
    | one _ hc hnil => cases hnil; exact ⟨_, rfl, hc⟩
    | skip _ => cases ht
    | eat _ => cases ht
  · rintro ⟨c, rfl, hc⟩
    exact .one ht hc .nil

theorem lang_append_iff {ts us : List Token} {cs : List Char} :
    Lang (ts ++ us) cs ↔ ∃ a b, cs = a ++ b ∧ Lang ts a ∧ Lang us b := by
  constructor
  · intro h
    generalize hv : ts ++ us = vs at h
    induction h generalizing ts with
    | nil =>
      obtain ⟨rfl, rfl⟩ := List.append_eq_nil_iff.mp hv
      exact ⟨[], [], rfl, .nil, .nil⟩
    | @one t rest c cs ht hc hrest ih =>
      cases ts with
      | nil => exact ⟨[], _, rfl, .nil, by rw [List.nil_append] at hv; rw [hv]; exact .one ht hc hrest⟩
      | cons t' ts' =>
        obtain ⟨rfl, htail⟩ := List.cons.inj hv
        obtain ⟨a, b, rfl, ha, hb⟩ := ih htail
        exact ⟨c :: a, b, rfl, .one ht hc ha, hb⟩
    | @skip rest cs hrest ih =>
      cases ts with
      | nil => exact ⟨[], _, rfl, .nil, by rw [List.nil_append] at hv; rw [hv]; exact .skip hrest⟩
      | cons t' ts' =>
        obtain ⟨rfl, htail⟩ := List.cons.inj hv
        obtain ⟨a, b, rfl, ha, hb⟩ := ih htail
        exact ⟨a, b, rfl, .skip ha, hb⟩
    | @eat rest c cs hrest ih =>
      cases ts with
      | nil => exact ⟨[], _, rfl, .nil, by rw [List.nil_append] at hv; rw [hv]; exact .eat hrest⟩
      | cons t' ts' =>
        obtain ⟨a, b, rfl, ha, hb⟩ := ih hv
        obtain ⟨rfl, -⟩ := List.cons.inj hv
        exact ⟨c :: a, b, rfl, .eat ha, hb⟩
  · rintro ⟨a, b, rfl, ha, hb⟩
    induction ha with
    | nil => exact hb
    | one ht hc _ ih => exact .one ht hc ih
    | skip _ ih => exact .skip ih
    | eat _ ih => exact .eat ih

/-- The first cell of a new row. -/
theorem lang_concat_nil {ts : List Token} {t : Token} :
    Lang (ts ++ [t]) [] ↔ t.isStar = true ∧ Lang ts [] := by
  rw [lang_append_iff]
  constructor
  · rintro ⟨a, b, hab, ha, hb⟩
    obtain ⟨rfl, rfl⟩ := List.append_eq_nil_iff.mp hab.symm
    refine ⟨?_, ha⟩
    by_contra ht
    obtain ⟨c, hc, -⟩ := (lang_single_iff (by simpa using ht)).mp hb
    cases hc
  · rintro ⟨ht, hts⟩
    rw [isStar_iff.mp ht]
    exact ⟨[], [], rfl, hts, lang_star []⟩

/-- A later cell under a star: from the left, or from above. -/
theorem lang_concat_star {ts : List Token} {p : List Char} {c : Char} :
    Lang (ts ++ [.star]) (p ++ [c]) ↔ Lang (ts ++ [.star]) p ∨ Lang ts (p ++ [c]) := by
  simp only [lang_append_iff]
  constructor
  · rintro ⟨a, b, hab, ha, -⟩
    rcases List.eq_nil_or_concat b with rfl | ⟨b', d, rfl⟩
    · exact Or.inr (by rw [hab, List.append_nil]; exact ha)
    · rw [List.concat_eq_append, ← List.append_assoc] at hab
      exact Or.inl ⟨a, b', (List.append_inj' hab rfl).1, ha, lang_star b'⟩
  · rintro (⟨a, b, rfl, ha, -⟩ | h)
    · exact ⟨a, b ++ [c], by simp, ha, lang_star _⟩
    · exact ⟨p ++ [c], [], by simp, h, lang_star []⟩

/-- A later cell under any other token: along the diagonal. -/
theorem lang_concat_one {ts : List Token} {t : Token} (ht : t.isStar = false) {p : List Char}
    {c : Char} : Lang (ts ++ [t]) (p ++ [c]) ↔ Lang ts p ∧ accepts t c = true := by
  simp only [lang_append_iff, lang_single_iff ht]
  constructor
  · rintro ⟨a, b, hab, ha, d, rfl, hd⟩
    obtain ⟨rfl, hcd⟩ := List.append_inj' hab rfl
    cases hcd
    exact ⟨ha, hd⟩
  · rintro ⟨hp, hc⟩
    exact ⟨p, [c], rfl, hp, c, rfl, hc⟩

/-! ## The matcher computes the language -/

/-- The cells over `path` say which prefixes of the path past `p` the tokens match. -/
def CellsOk (ts : List Token) : List Char → List Char → List Bool → Prop
  | _, [], [] => True
  | p, c :: path, cell :: row => (cell = true ↔ Lang ts (p ++ [c])) ∧ CellsOk ts (p ++ [c]) path row
  | _, _, _ => False

/-- A whole row over the path. -/
def RowOk (ts : List Token) (path : List Char) : List Bool → Prop
  | [] => False
  | first :: row => (first = true ↔ Lang ts []) ∧ CellsOk ts [] path row

theorem nextCells_ok {ts : List Token} (t : Token) :
    ∀ {p path : List Char} {row : List Bool} {left above : Bool},
      (left = true ↔ Lang (ts ++ [t]) p) → (above = true ↔ Lang ts p) → CellsOk ts p path row →
        CellsOk (ts ++ [t]) p path (nextCells t left above path row)
  | _, [], [], _, _, _, _, _ => trivial
  | _, [], _ :: _, _, _, _, _, h => h.elim
  | _, _ :: _, [], _, _, _, _, h => h.elim
  | p, c :: path, cell :: row, left, above, hl, ha, ⟨hcell, hrow⟩ => by
    refine ⟨?_, nextCells_ok t ?_ hcell hrow⟩
    all_goals
      cases t with
      | star => rw [lang_concat_star, ← hl, ← hcell, Bool.or_eq_true]
      | any => simp [lang_concat_one (t := .any) rfl, ← ha, accepts]
      | literal d =>
        rw [lang_concat_one (t := .literal d) rfl, ← ha, accepts, Bool.and_eq_true, beq_iff_eq,
          beq_iff_eq, eq_comm (a := d)]
      | charClass negated rs => simp [lang_concat_one (t := .charClass negated rs) rfl, ← ha, accepts]

theorem nextRow_ok {ts : List Token} {path : List Char} {row : List Bool} (t : Token)
    (h : RowOk ts path row) : RowOk (ts ++ [t]) path (nextRow t path row) := by
  cases row with
  | nil => exact h.elim
  | cons first row =>
    have hfirst : (t.isStar && first) = true ↔ Lang (ts ++ [t]) [] := by
      rw [lang_concat_nil, Bool.and_eq_true, h.1]
    exact ⟨hfirst, nextCells_ok t hfirst h.1 h.2⟩

theorem firstRow_ok (path : List Char) : RowOk [] path (true :: List.replicate path.length false) := by
  have hcells : ∀ p cs, CellsOk [] p cs (List.replicate cs.length false) := by
    intro p cs
    induction cs generalizing p with
    | nil => exact trivial
    | cons c cs ih => exact ⟨by simp [lang_nil_iff], ih _⟩
  exact ⟨by simp [lang_nil_iff], hcells [] path⟩

/-- **The row invariant**: after the tokens read so far, the row marks the prefixes of the path
    they match. -/
theorem finalRow_ok (ts : List Token) (path : List Char) : RowOk ts path (finalRow ts path) := by
  induction ts using List.reverseRecOn with
  | nil => exact firstRow_ok path
  | append_singleton ts t ih =>
    rw [finalRow, List.foldl_append]
    exact nextRow_ok t ih

theorem cells_last {ts : List Token} : ∀ {p path : List Char} {row : List Bool} {first : Bool},
    (first = true ↔ Lang ts p) → CellsOk ts p path row →
      ((first :: row).getLastD false = true ↔ Lang ts (p ++ path))
  | p, [], [], first, hf, _ => by simpa using hf
  | _, [], _ :: _, _, _, h => h.elim
  | _, _ :: _, [], _, _, h => h.elim
  | p, c :: path, cell :: row, first, _, ⟨hcell, hrow⟩ => by
    have := cells_last hcell hrow
    simpa using this

theorem matchesTokens_iff (ts : List Token) (path : List Char) :
    matchesTokens ts path = true ↔ Lang ts path := by
  have h := finalRow_ok ts path
  unfold matchesTokens
  cases hr : finalRow ts path with
  | nil => rw [hr] at h; exact h.elim
  | cons first row =>
    rw [hr] at h
    exact cells_last h.1 h.2

/-- `matches` decides the language of the pattern's tokens. -/
theorem matchesPattern_iff (pattern path : String) :
    matchesPattern pattern path = true ↔ Lang (tokens pattern.toList) path.toList :=
  matchesTokens_iff _ _

/-! ## Range boundaries decide whether two tokens share a character -/

theorem charFromU32_some {n : Nat} {ch : Char} (h : charFromU32 n = some ch) : ch.toNat = n := by
  unfold charFromU32 at h
  split at h
  · cases h
    rfl
  · cases h

theorem charFromU32_of_valid {n : Nat} (h : n.isValidChar) : ∃ ch, charFromU32 n = some ch := by
  exact ⟨_, dif_pos h⟩

theorem char_le_iff {a b : Char} : a ≤ b ↔ a.toNat ≤ b.toNat := by
  rw [Char.le_def, UInt32.le_iff_toNat_le]
  rfl

/-- The code points that bound the ranges `rs`, with the two points that start a block of
    scalar values. -/
def cuts (rs : List (Char × Char)) : List Nat := [0, 0xe000] ++ rs.flatMap rangeBoundaries

theorem mem_rangeBoundaries {a b : Char} {n : Nat} :
    n ∈ rangeBoundaries (a, b) ↔
      a.toNat ≤ b.toNat ∧ (n = a.toNat ∨ n = b.toNat + 1 ∧ b.toNat < 0x10ffff) := by
  unfold rangeBoundaries
  by_cases hab : a ≤ b
  · by_cases hb : b.toNat < 0x10ffff
    · simp [hab, hb, char_le_iff.mp hab]
    · simp [hab, hb, char_le_iff.mp hab]
  · simp only [hab, if_false, List.not_mem_nil, false_iff]
    rw [char_le_iff] at hab
    tauto

/-- The greatest cut at or below a scalar value is itself a scalar value: the only cut that can
    be a surrogate is the one after U+D7FF, and U+E000 is a cut above it. -/
theorem greatest_cut {rs : List (Char × Char)} (ch : Char) :
    ∃ p ∈ cuts rs, p ≤ ch.toNat ∧ p.isValidChar ∧ ∀ q ∈ cuts rs, q ≤ ch.toNat → q ≤ p := by
  have hne : ((cuts rs).filter (· ≤ ch.toNat)).toFinset.Nonempty := ⟨0, by simp [cuts]⟩
  obtain ⟨p, hp, hmax⟩ := Finset.exists_max_image _ id hne
  simp only [List.mem_toFinset, List.mem_filter, decide_eq_true_eq, id_eq] at hp hmax
  refine ⟨p, hp.1, hp.2, ?_, fun q hq hqc => hmax q ⟨hq, hqc⟩⟩
  have hvalid : ch.toNat < 0xd800 ∨ 0xdfff < ch.toNat ∧ ch.toNat < 0x110000 := ch.valid
  show p < 0xd800 ∨ 0xdfff < p ∧ p < 0x110000
  rcases hvalid with hlow | ⟨hhigh, htop⟩
  · exact Or.inl (by omega)
  · have he : 0xe000 ≤ p := hmax 0xe000 ⟨by simp [cuts], by omega⟩
    exact Or.inr (by omega)

/-- Between a character and the greatest cut below it no range starts or ends. -/
theorem inRange_cut {rs : List (Char × Char)} {ch at_ : Char} (hle : at_.toNat ≤ ch.toNat)
    (hmax : ∀ q ∈ cuts rs, q ≤ ch.toNat → q ≤ at_.toNat) {a b : Char} (hr : (a, b) ∈ rs) :
    (a ≤ at_ ∧ at_ ≤ b) ↔ (a ≤ ch ∧ ch ≤ b) := by
  have hcut : ∀ n, n ∈ rangeBoundaries (a, b) → n ≤ ch.toNat → n ≤ at_.toNat := fun n hn =>
    hmax n (List.mem_append_right _ (List.mem_flatMap.mpr ⟨(a, b), hr, hn⟩))
  simp only [char_le_iff]
  constructor
  · rintro ⟨ha, hb⟩
    refine ⟨by omega, ?_⟩
    by_contra hlt
    have htop : ch.toNat < 0x110000 := by
      have hvalid : ch.toNat < 0xd800 ∨ 0xdfff < ch.toNat ∧ ch.toNat < 0x110000 := ch.valid
      omega
    have := hcut (b.toNat + 1) (mem_rangeBoundaries.mpr ⟨by omega, Or.inr ⟨rfl, by omega⟩⟩) (by omega)
    omega
  · rintro ⟨ha, hb⟩
    have := hcut a.toNat (mem_rangeBoundaries.mpr ⟨by omega, Or.inl rfl⟩) ha
    exact ⟨this, by omega⟩

theorem inRanges_cut {rs sub : List (Char × Char)} (hsub : ∀ r ∈ sub, r ∈ rs) {ch at_ : Char}
    (hle : at_.toNat ≤ ch.toNat) (hmax : ∀ q ∈ cuts rs, q ≤ ch.toNat → q ≤ at_.toNat) :
    inRanges sub at_ = inRanges sub ch := by
  unfold inRanges
  rw [Bool.eq_iff_iff, List.any_eq_true, List.any_eq_true]
  refine exists_congr fun r => and_congr_right fun hr => ?_
  obtain ⟨a, b⟩ := r
  simpa using inRange_cut hle hmax (hsub _ hr)

theorem accepts_cut {rs : List (Char × Char)} {t : Token} (hsub : ∀ r ∈ tokenRanges t, r ∈ rs)
    {ch at_ : Char} (hle : at_.toNat ≤ ch.toNat)
    (hmax : ∀ q ∈ cuts rs, q ≤ ch.toNat → q ≤ at_.toNat) : accepts t at_ = accepts t ch := by
  cases t with
  | star => rfl
  | any => rfl
  | charClass negated sub => rw [accepts, accepts, @inRanges_cut _ sub hsub _ _ hle hmax]
  | literal c =>
    have := inRange_cut hle hmax (hsub (c, c) (by simp [tokenRanges]))
    rw [accepts, accepts, Bool.eq_iff_iff, beq_iff_eq, beq_iff_eq]
    constructor
    · rintro rfl
      exact le_antisymm (this.mp ⟨le_rfl, le_rfl⟩).1 (this.mp ⟨le_rfl, le_rfl⟩).2
    · rintro rfl
      exact le_antisymm (this.mpr ⟨le_rfl, le_rfl⟩).1 (this.mpr ⟨le_rfl, le_rfl⟩).2

/-- **Testing the boundaries is enough.** -/
theorem intersect_iff (left right : Token) :
    intersect left right = true ↔ ∃ ch, accepts left ch = true ∧ accepts right ch = true := by
  unfold intersect
  rw [List.any_eq_true]
  constructor
  · rintro ⟨ch, -, h⟩
    exact ⟨ch, by simpa using h⟩
  · rintro ⟨ch, hl, hr⟩
    obtain ⟨p, hp, hpc, hvalid, hmax⟩ := @greatest_cut (tokenRanges left ++ tokenRanges right) ch
    obtain ⟨at_, hat⟩ := charFromU32_of_valid hvalid
    have hto := charFromU32_some hat
    rw [← hto] at hpc hmax
    refine ⟨at_, List.mem_filterMap.mpr ⟨p, hp, hat⟩, ?_⟩
    rw [accepts_cut (fun r hr => List.mem_append_left _ hr) hpc hmax,
      accepts_cut (fun r hr => List.mem_append_right _ hr) hpc hmax, hl, hr]
    rfl

/-! ## The product walk -/

theorem overlapVisit_follows (left right : List Token) :
    Worklist.Follows (overlapVisit left right) (overlapNext left right) := by
  intro x s s' next h
  unfold overlapVisit at h
  split at h
  · cases h
  · cases h
    rfl

theorem mem_overlapNext {left right : List Token} {a b : Nat} {y : Nat × Nat} :
    y ∈ overlapNext left right (a, b) ↔
      (left[a]? = some .star ∧ y = (a + 1, b)) ∨ (right[b]? = some .star ∧ y = (a, b + 1)) ∨
      ∃ l r, left[a]? = some l ∧ right[b]? = some r ∧ intersect l r = true ∧
        y = (a + if l.isStar then 0 else 1, b + if r.isStar then 0 else 1) := by
  unfold overlapNext
  rw [List.mem_append, List.mem_append, or_assoc]
  refine or_congr ?_ (or_congr ?_ ?_)
  · split <;> simp [*]
  · split <;> simp [*]
  · split
    · rename_i l r hl hr
      split <;> simp [*]
    · rename_i hnone
      simp only [List.not_mem_nil, false_iff]
      rintro ⟨l, r, hl, hr, -⟩
      exact hnone l r hl hr

/-- The positions of the two lists, ends included. -/
def positions (left right : List Token) : Finset (Nat × Nat) :=
  Finset.range (left.length + 1) ×ˢ Finset.range (right.length + 1)

theorem lt_of_getElem?_some {ts : List Token} {i : Nat} {t : Token} (h : ts[i]? = some t) :
    i < ts.length :=
  (List.getElem?_eq_some_iff.mp h).1

theorem positions_closed (left right : List Token) :
    ∀ x ∈ positions left right, ∀ y ∈ overlapNext left right x, y ∈ positions left right := by
  rintro ⟨a, b⟩ hx y hy
  simp only [positions, Finset.mem_product, Finset.mem_range] at hx ⊢
  rcases mem_overlapNext.mp hy with ⟨hl, rfl⟩ | ⟨hr, rfl⟩ | ⟨l, r, hl, hr, -, rfl⟩
  · have := lt_of_getElem?_some hl
    exact ⟨by simp only; omega, hx.2⟩
  · have := lt_of_getElem?_some hr
    exact ⟨hx.1, by simp only; omega⟩
  · have := lt_of_getElem?_some hl
    have := lt_of_getElem?_some hr
    constructor
    · simp only
      split <;> omega
    · simp only
      split <;> omega

/-- The walk ends on every two token lists: it never exhausts its fuel. -/
theorem overlapWalk_isSome (left right : List Token) : (overlapWalk left right).isSome := by
  refine Worklist.walk_isSome (overlapVisit_follows left right) (positions left right)
    (fun x hx y hy => Or.inl (positions_closed left right x hx y hy)) ?_ ?_
  · simp [positions]
  · simp [positions]

/-- The walk answers true exactly when the pair of ends is reachable from the pair of starts. -/
theorem overlapTokens_iff_reach (left right : List Token) :
    overlapTokens left right = true ↔
      Worklist.Reach (overlapNext left right) (0, 0) (left.length, right.length) := by
  unfold overlapTokens
  cases hw : overlapWalk left right with
  | none => exact absurd (overlapWalk_isSome left right) (by simp [hw])
  | some result =>
    cases result with
    | error u =>
      obtain ⟨x, s, ⟨p, hp, hreach⟩, hx⟩ := Worklist.walk_error (overlapVisit_follows left right) hw
      rw [List.mem_singleton.mp hp] at hreach
      unfold overlapVisit at hx
      split at hx
      · rename_i hend
        rw [hend] at hreach
        simp [hreach]
      · cases hx
    | ok r =>
      obtain ⟨order, -, V⟩ := Worklist.walk_ok (overlapVisit_follows left right) hw
      simp only [Bool.false_eq_true, false_iff]
      intro hreach
      have hend := (V.mem_iff _).mpr ⟨(0, 0), List.mem_singleton_self _, hreach⟩
      obtain ⟨s, r', hv⟩ := V.visit_ok _ hend
      simp [overlapVisit] at hv

theorem drop_of_getElem? {ts : List Token} {i : Nat} {t : Token} (h : ts[i]? = some t) :
    ts.drop i = t :: ts.drop (i + 1) := by
  obtain ⟨hi, rfl⟩ := List.getElem?_eq_some_iff.mp h
  exact List.drop_eq_getElem_cons hi

theorem getElem?_of_drop {ts rest : List Token} {i : Nat} {t : Token} (h : ts.drop i = t :: rest) :
    ts[i]? = some t ∧ ts.drop (i + 1) = rest := by
  constructor
  · have := congrArg (·[0]?) h
    simpa using this
  · have := congrArg List.tail h
    simpa using this

/-- One character taken on one side: from the rest of the tokens to all of them. -/
theorem lang_of_advance {ts : List Token} {i : Nat} {t : Token} {c : Char} {cs : List Char}
    (ht : ts[i]? = some t) (hc : accepts t c = true)
    (h : Lang (ts.drop (i + if t.isStar then 0 else 1)) cs) : Lang (ts.drop i) (c :: cs) := by
  rw [drop_of_getElem? ht]
  by_cases hstar : t.isStar = true
  · rw [if_pos hstar, Nat.add_zero, drop_of_getElem? ht, isStar_iff.mp hstar] at h
    rw [isStar_iff.mp hstar]
    exact .eat h
  · rw [if_neg hstar] at h
    exact .one (by simpa using hstar) hc h

/-- Soundness: a path to the pair of ends spells a common string. -/
theorem common_of_reach {left right : List Token} {x : Nat × Nat}
    (h : Worklist.Reach (overlapNext left right) x (left.length, right.length)) :
    ∃ s, Lang (left.drop x.1) s ∧ Lang (right.drop x.2) s := by
  induction h using Relation.ReflTransGen.head_induction_on with
  | refl => exact ⟨[], by simp [lang_nil_iff], by simp [lang_nil_iff]⟩
  | @head x y hstep _ ih =>
    obtain ⟨a, b⟩ := x
    obtain ⟨s, hl, hr⟩ := ih
    rcases mem_overlapNext.mp hstep with ⟨hstar, rfl⟩ | ⟨hstar, rfl⟩ | ⟨l, r, hla, hrb, hlr, rfl⟩
    · exact ⟨s, by rw [drop_of_getElem? hstar]; exact .skip hl, hr⟩
    · exact ⟨s, hl, by rw [drop_of_getElem? hstar]; exact .skip hr⟩
    · obtain ⟨c, hcl, hcr⟩ := (intersect_iff l r).mp hlr
      exact ⟨c :: s, lang_of_advance hla hcl hl, lang_of_advance hrb hcr hr⟩

/-- The token at `i` takes the first character, and the tokens after it the rest. -/
def Advance (ts : List Token) (i : Nat) (c : Char) (cs : List Char) : Prop :=
  ∃ t, ts[i]? = some t ∧ accepts t c = true ∧ Lang (ts.drop (i + if t.isStar then 0 else 1)) cs

theorem lang_drop_nil {ts : List Token} {i : Nat} (h : Lang (ts.drop i) []) :
    ts.length ≤ i ∨ (ts[i]? = some .star ∧ Lang (ts.drop (i + 1)) []) := by
  generalize hd : ts.drop i = rest at h
  cases h with
  | nil => exact Or.inl (List.drop_eq_nil_iff.mp hd)
  | skip h =>
    obtain ⟨hstar, hdrop⟩ := getElem?_of_drop hd
    exact Or.inr ⟨hstar, hdrop ▸ h⟩

theorem lang_drop_cons {ts : List Token} {i : Nat} {c : Char} {cs : List Char}
    (h : Lang (ts.drop i) (c :: cs)) :
    (ts[i]? = some .star ∧ Lang (ts.drop (i + 1)) (c :: cs)) ∨ Advance ts i c cs := by
  generalize hd : ts.drop i = rest at h
  cases h with
  | one ht hc h =>
    obtain ⟨hi, hdrop⟩ := getElem?_of_drop hd
    exact Or.inr ⟨_, hi, hc, by simpa [ht, hdrop] using h⟩
  | skip h =>
    obtain ⟨hstar, hdrop⟩ := getElem?_of_drop hd
    exact Or.inl ⟨hstar, hdrop ▸ h⟩
  | eat h =>
    obtain ⟨hstar, -⟩ := getElem?_of_drop hd
    exact Or.inr ⟨.star, hstar, rfl, by simpa [Token.isStar, hd] using h⟩

/-- Completeness: a common string is a path to the pair of ends. The induction is on the string
    and on the tokens left on both sides together, since a star may be skipped without taking a
    character. -/
theorem reach_of_common {left right : List Token} :
    ∀ (n a b : Nat) (s : List Char), a ≤ left.length → b ≤ right.length →
      s.length + (left.length - a) + (right.length - b) ≤ n →
      Lang (left.drop a) s → Lang (right.drop b) s →
        Worklist.Reach (overlapNext left right) (a, b) (left.length, right.length) := by
  intro n
  induction n with
  | zero =>
    intro a b s ha hb hn _ _
    obtain rfl : a = left.length := by omega
    obtain rfl : b = right.length := by omega
    exact .refl
  | succ n ih =>
    intro a b s ha hb hn hl hr
    have skipLeft : left[a]? = some .star → Lang (left.drop (a + 1)) s →
        Worklist.Reach (overlapNext left right) (a, b) (left.length, right.length) := by
      intro hstar hl'
      have := lt_of_getElem?_some hstar
      refine .head (mem_overlapNext.mpr (Or.inl ⟨hstar, rfl⟩)) ?_
      exact ih (a + 1) b s (by omega) hb (by omega) hl' hr
    have skipRight : right[b]? = some .star → Lang (right.drop (b + 1)) s →
        Worklist.Reach (overlapNext left right) (a, b) (left.length, right.length) := by
      intro hstar hr'
      have := lt_of_getElem?_some hstar
      refine .head (mem_overlapNext.mpr (Or.inr (Or.inl ⟨hstar, rfl⟩))) ?_
      exact ih a (b + 1) s ha (by omega) (by omega) hl hr'
    cases s with
    | nil =>
      rcases lang_drop_nil hl with hal | ⟨hstar, hl'⟩
      · rcases lang_drop_nil hr with hbr | ⟨hstar, hr'⟩
        · obtain rfl : a = left.length := by omega
          obtain rfl : b = right.length := by omega
          exact .refl
        · exact skipRight hstar hr'
      · exact skipLeft hstar hl'
    | cons c cs =>
      rcases lang_drop_cons hl with ⟨hstar, hl'⟩ | ⟨l, hla, hcl, hl'⟩
      · exact skipLeft hstar hl'
      rcases lang_drop_cons hr with ⟨hstar, hr'⟩ | ⟨r, hrb, hcr, hr'⟩
      · exact skipRight hstar hr'
      have := lt_of_getElem?_some hla
      have := lt_of_getElem?_some hrb
      simp only [List.length_cons] at hn
      refine .head (mem_overlapNext.mpr (Or.inr (Or.inr
        ⟨l, r, hla, hrb, (intersect_iff l r).mpr ⟨c, hcl, hcr⟩, rfl⟩))) ?_
      refine ih _ _ cs ?_ ?_ ?_ hl' hr'
      · split <;> omega
      · split <;> omega
      · split <;> split <;> omega

/-- **The walk decides whether two token lists share a string.** -/
theorem overlapTokens_iff (left right : List Token) :
    overlapTokens left right = true ↔ ∃ s, Lang left s ∧ Lang right s := by
  rw [overlapTokens_iff_reach]
  constructor
  · intro h
    simpa using common_of_reach h
  · rintro ⟨s, hl, hr⟩
    exact reach_of_common _ 0 0 s (Nat.zero_le _) (Nat.zero_le _) le_rfl (by simpa using hl)
      (by simpa using hr)

/-- **`patterns_overlap` decides language intersection**: it answers true exactly when some
    string matches both patterns; it is symmetric, and its loop ends on every two patterns. -/
theorem patternsOverlap_iff_matches (left right : String) :
    (patternsOverlap left right = true ↔
      ∃ s, matchesPattern left s = true ∧ matchesPattern right s = true) ∧
    patternsOverlap left right = patternsOverlap right left ∧
    (overlapWalk (tokens left.toList) (tokens right.toList)).isSome := by
  have overlap_iff : ∀ l r : String, patternsOverlap l r = true ↔
      ∃ s, matchesPattern l s = true ∧ matchesPattern r s = true := by
    intro l r
    simp only [patternsOverlap, overlapTokens_iff, matchesPattern_iff]
    constructor
    · rintro ⟨cs, hl, hr⟩
      exact ⟨String.ofList cs, by simpa using hl, by simpa using hr⟩
    · rintro ⟨s, hl, hr⟩
      exact ⟨s.toList, hl, hr⟩
  refine ⟨overlap_iff left right, ?_, overlapWalk_isSome _ _⟩
  rw [Bool.eq_iff_iff, overlap_iff, overlap_iff]
  exact exists_congr fun _ => and_comm

end AgenticCore.InstructionApplicability
