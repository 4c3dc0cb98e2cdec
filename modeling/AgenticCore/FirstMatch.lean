import Mathlib.Data.List.Infix
import Mathlib.Data.List.Basic

/-!
# The first occurrence of a pattern

* `splitFirst`            : a text before and after the first occurrence of a pattern.
* `splitFirst_eq_some`    : what precedes it has no earlier occurrence.
* `seam`                  : **a line that ends a text meets no line of the next**.
-/

set_option autoImplicit false

namespace FirstMatch

variable {α : Type*}

section
variable [DecidableEq α]

/-- `str::split_once`. -/
def splitFirst (pat : List α) : List α → Option (List α × List α)
  | [] => if pat = [] then some ([], []) else none
  | c :: cs =>
    if pat <+: c :: cs then some ([], (c :: cs).drop pat.length)
    else (splitFirst pat cs).map fun (a, b) => (c :: a, b)

theorem splitFirst_eq_some {pat cs a b : List α} (h : splitFirst pat cs = some (a, b)) :
    cs = a ++ (pat ++ b) ∧ ∀ a' b', cs = a' ++ (pat ++ b') → a.length ≤ a'.length := by
  induction cs generalizing a b with
  | nil =>
    rw [splitFirst] at h
    split at h
    · rename_i hpat
      cases h
      exact ⟨by rw [hpat]; rfl, fun _ _ _ => Nat.zero_le _⟩
    · cases h
  | cons c cs ih =>
    rw [splitFirst] at h
    split at h
    · rename_i hprefix
      obtain ⟨rest, hrest⟩ := hprefix
      cases h
      refine ⟨?_, fun _ _ _ => Nat.zero_le _⟩
      rw [← hrest, List.drop_left, List.nil_append]
    · rename_i hno
      obtain ⟨⟨a', b'⟩, hsplit, h⟩ := Option.map_eq_some_iff.mp h
      cases h
      obtain ⟨heq, hfirst⟩ := ih hsplit
      refine ⟨by rw [heq, List.cons_append], fun x y hxy => ?_⟩
      cases x with
      | nil => exact absurd ⟨y, hxy.symm⟩ hno
      | cons d x =>
        have := hfirst x y (List.cons.inj hxy).2
        simp only [List.length_cons]
        omega

theorem splitFirst_isSome (pat a b : List α) : (splitFirst pat (a ++ (pat ++ b))).isSome = true := by
  induction a with
  | nil =>
    cases hcs : pat ++ b with
    | nil =>
      rw [List.nil_append, splitFirst, if_pos (List.append_eq_nil_iff.mp hcs).1]
      rfl
    | cons c cs =>
      rw [List.nil_append, splitFirst, if_pos ⟨b, hcs⟩]
      rfl
  | cons c a ih =>
    rw [List.cons_append, splitFirst]
    split
    · rfl
    · rw [Option.isSome_map, ih]

/-- An occurrence before which there is no other is the one that is split at. -/
theorem splitFirst_of_first {pat a b : List α}
    (h : ∀ a' b', a ++ (pat ++ b) = a' ++ (pat ++ b') → a.length ≤ a'.length) :
    splitFirst pat (a ++ (pat ++ b)) = some (a, b) := by
  obtain ⟨⟨x, y⟩, hxy⟩ := Option.isSome_iff_exists.mp (splitFirst_isSome pat a b)
  obtain ⟨heq, hfirst⟩ := splitFirst_eq_some hxy
  have hle := hfirst a b rfl
  have hge := h x y heq
  obtain ⟨rfl, hrest⟩ := List.append_inj heq (by omega)
  rw [hxy, List.append_cancel_left hrest]

end

/-! ## Lines -/

variable {d : α} {body : List α}

/-- A line that ends in `d` and lies in two texts, the first of which ends in `d`, lies in one of
    them. -/
theorem seam (hd : d ∉ body) {a b p q : List α} (hp : p.getLast? = some d)
    (h : p ++ q = a ++ (body ++ d :: b)) :
    (∃ m, p = a ++ (body ++ d :: m) ∧ b = m ++ q) ∨ ∃ m, a = p ++ m ∧ q = m ++ (body ++ d :: b) := by
  -- no part of the line's body ends the first text
  have hnil : ∀ m, p = a ++ m → (∀ x ∈ m, x ∈ body) → m = [] := by
    intro m hpm hbody
    by_contra hne
    have hlast := List.getLast?_append_of_ne_nil a hne
    rw [← hpm, hp] at hlast
    exact hd (hbody d (List.mem_of_getLast? hlast.symm))
  rcases List.append_eq_append_iff.mp h with ⟨m, ha, hq⟩ | ⟨m, hpm, hm⟩
  · exact Or.inr ⟨m, ha, hq⟩
  rcases List.append_eq_append_iff.mp hm with ⟨n, hmn, hdb⟩ | ⟨n, hbody, hq⟩
  · cases n with
    | nil =>
      rw [List.append_nil] at hmn
      have hbody := hnil m hpm fun x hx => hmn ▸ hx
      refine Or.inr ⟨[], by rw [hpm, hbody, List.append_nil, List.append_nil], ?_⟩
      rw [← hmn, hbody]
      exact hdb.symm
    | cons e n =>
      obtain ⟨rfl, hb⟩ := List.cons.inj hdb
      exact Or.inl ⟨n, by rw [hpm, hmn], hb⟩
  · have hm := hnil m hpm fun x hx => hbody ▸ List.mem_append_left n hx
    refine Or.inr ⟨[], by rw [hpm, hm, List.append_nil, List.append_nil], ?_⟩
    rw [hbody, hm, hq]
    rfl

/-- A line is in two texts, the first of which ends in `d`, when it is in one of them. -/
theorem infix_append_iff (hd : d ∉ body) {p q : List α} (hp : p.getLast? = some d) :
    body ++ [d] <:+: p ++ q ↔ body ++ [d] <:+: p ∨ body ++ [d] <:+: q := by
  constructor
  · rintro ⟨a, b, h⟩
    rw [List.append_assoc, List.append_assoc] at h
    rcases seam hd hp h.symm with ⟨m, hp, -⟩ | ⟨m, -, hq⟩
    · exact Or.inl ⟨a, m, by rw [hp, List.append_assoc, List.append_assoc]; rfl⟩
    · exact Or.inr ⟨m, b, by rw [hq, List.append_assoc, List.append_assoc]; rfl⟩
  · rintro (h | h)
    · exact h.trans (List.prefix_append p q).isInfix
    · exact h.trans (List.suffix_append p q).isInfix

/-- In a text of one line, such a line is its end. -/
theorem suffix_of_infix_line {l : List α} (hl : d ∉ l) (h : body ++ [d] <:+: l ++ [d]) :
    body <:+ l := by
  obtain ⟨a, b, hab⟩ := h
  rcases List.eq_nil_or_concat b with rfl | ⟨b, x, rfl⟩
  · rw [List.append_nil, ← List.append_assoc] at hab
    exact ⟨a, List.append_cancel_right hab⟩
  · rw [List.concat_eq_append, ← List.append_assoc] at hab
    have hline := (List.append_inj' hab rfl).1
    refine absurd ?_ hl
    rw [← hline]
    simp

/-- The first line of its kind, behind a text without one. -/
theorem splitFirst_behind [DecidableEq α] (hd : d ∉ body) {p q : List α}
    (hp : p.getLast? = some d) (hno : ¬body ++ [d] <:+: p) :
    splitFirst (body ++ [d]) (p ++ (body ++ [d] ++ q)) = some (p, q) := by
  refine splitFirst_of_first fun a b h => ?_
  simp only [List.append_assoc, List.singleton_append] at h
  rcases seam hd hp h with ⟨m, hpm, -⟩ | ⟨m, ha, -⟩
  · refine absurd ⟨a, m, ?_⟩ hno
    rw [hpm, List.append_assoc, List.append_assoc]
    rfl
  · rw [ha, List.length_append]
    exact Nat.le_add_right _ _

/-- Where a text that ends in `d` has such a line, the first one ends within it. -/
theorem splitFirst_within [DecidableEq α] (hd : d ∉ body) {p q : List α}
    (hp : p.getLast? = some d) (hin : body ++ [d] <:+: p) :
    ∃ a m, p = a ++ (body ++ d :: m) ∧ splitFirst (body ++ [d]) (p ++ q) = some (a, m ++ q) := by
  obtain ⟨x, y, hxy⟩ := hin
  have hpq : p ++ q = x ++ (body ++ [d] ++ (y ++ q)) := by
    rw [← hxy]
    simp only [List.append_assoc]
  obtain ⟨⟨a, b⟩, hab⟩ := Option.isSome_iff_exists.mp
    (splitFirst_isSome (body ++ [d]) x (y ++ q))
  rw [← hpq] at hab
  obtain ⟨heq, hfirst⟩ := splitFirst_eq_some hab
  have hle := hfirst _ _ hpq
  rw [List.append_assoc, List.singleton_append] at heq
  rcases seam hd hp heq with ⟨m, hpm, hb⟩ | ⟨m, ha, -⟩
  · exact ⟨a, m, hpm, by rw [hab, hb]⟩
  · have hlength := congrArg List.length hxy
    rw [ha] at hle
    simp only [List.length_append, List.length_singleton] at hle hlength
    omega

end FirstMatch
