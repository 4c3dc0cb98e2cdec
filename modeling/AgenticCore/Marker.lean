import Mathlib.Data.List.Infix
import Mathlib.Data.List.Basic

/-!
# Markers in a text

A marker is a pattern whose first symbol does not occur in it again, so that occurrences of
markers with one first symbol never overlap and never arise across a seam that does not start
inside them.

* `occurrences`         : the number of places where a pattern occurs.
* `occurrences_append`  : no occurrence crosses a seam before a symbol the marker does not go on
                          with.
* `occurrences_marked`  : **a text around two markers has the occurrences of its parts.**
-/

set_option autoImplicit false

namespace Marker

variable {α : Type*} [DecidableEq α] {c : α} {body : List α}

/-- The number of places where the pattern occurs. -/
def occurrences (pat : List α) : List α → Nat
  | [] => 0
  | a :: cs => (if pat <+: a :: cs then 1 else 0) + occurrences pat cs

omit [DecidableEq α] in
/-- A match that starts before a seam ends before it. -/
theorem prefix_before_seam {x z : List α} (hx : x ≠ []) (hz : ∀ d ∈ z.head?, d ∉ body) :
    c :: body <+: x ++ z ↔ c :: body <+: x := by
  refine ⟨fun h => ?_, fun h => h.trans (List.prefix_append x z)⟩
  obtain ⟨a, x, rfl⟩ := List.exists_cons_of_ne_nil hx
  rw [List.cons_append, List.cons_prefix_cons] at h
  rw [List.cons_prefix_cons]
  refine ⟨h.1, ?_⟩
  obtain ⟨rest, hrest⟩ := h.2
  rcases List.append_eq_append_iff.mp hrest with ⟨middle, hx, -⟩ | ⟨middle, hbody, hz'⟩
  · exact ⟨middle, hx.symm⟩
  · cases middle with
    | nil =>
      rw [List.append_nil] at hbody
      rw [hbody]
    | cons d middle =>
      refine absurd ?_ (hz d (by rw [hz']; rfl))
      rw [hbody]
      exact List.mem_append_right x List.mem_cons_self

theorem occurrences_append {x z : List α} (hz : ∀ d ∈ z.head?, d ∉ body) :
    occurrences (c :: body) (x ++ z) = occurrences (c :: body) x + occurrences (c :: body) z := by
  induction x with
  | nil => simp [occurrences]
  | cons a x ih =>
    have hseam := prefix_before_seam (c := c) (List.cons_ne_nil a x) hz
    rw [List.cons_append] at hseam
    rw [List.cons_append, occurrences, occurrences, ih]
    simp only [hseam]
    omega

/-- A stretch without the first symbol has no occurrences. -/
theorem occurrences_skip (body : List α) {w : List α} (hw : c ∉ w) (y : List α) :
    occurrences (c :: body) (w ++ y) = occurrences (c :: body) y := by
  induction w with
  | nil => rfl
  | cons a w ih =>
    rw [List.mem_cons, not_or] at hw
    have hmiss : ¬c :: body <+: a :: (w ++ y) := by
      rw [List.cons_prefix_cons]
      exact fun h => hw.1 h.1
    rw [List.cons_append, occurrences, if_neg hmiss, Nat.zero_add]
    exact ih hw.2

theorem occurrences_self (hc : c ∉ body) (y : List α) :
    occurrences (c :: body) (c :: body ++ y) = 1 + occurrences (c :: body) y := by
  have hmatch : c :: body <+: c :: (body ++ y) := List.prefix_append (c :: body) y
  rw [List.cons_append, occurrences, if_pos hmatch, occurrences_skip _ hc]

theorem occurrences_other {other : List α} (hother : c ∉ other) {y : List α}
    (hmiss : ¬c :: body <+: c :: other ++ y) :
    occurrences (c :: body) (c :: other ++ y) = occurrences (c :: body) y := by
  rw [List.cons_append] at hmiss
  rw [List.cons_append, occurrences, if_neg hmiss, Nat.zero_add, occurrences_skip _ hother]

/-- Two markers with one first symbol, neither the start of the other. -/
structure Pair (c : α) (body other : List α) : Prop where
  unique : c ∉ body
  unique' : c ∉ other
  apart : ∀ y, ¬c :: body <+: c :: other ++ y
  apart' : ∀ y, ¬c :: other <+: c :: body ++ y

omit [DecidableEq α] in
theorem Pair.symm {other : List α} (h : Pair c body other) : Pair c other body :=
  ⟨h.unique', h.unique, h.apart', h.apart⟩

omit [DecidableEq α] in
/-- A marker starts with a symbol that markers do not go on with. -/
theorem head_not_mem {tail body y : List α} (hc : c ∉ body) :
    ∀ d ∈ (c :: tail ++ y).head?, d ∉ body := by
  intro d hd
  obtain rfl := Option.some.inj hd
  exact hc

/-- **A text around two markers has the occurrences of its parts**, and its own. -/
theorem occurrences_marked {other : List α} (h : Pair c body other) (x m z : List α) :
    occurrences (c :: body) (x ++ (c :: body ++ (m ++ (c :: other ++ z)))) =
      occurrences (c :: body) x +
        (1 + (occurrences (c :: body) m + occurrences (c :: body) z)) := by
  rw [occurrences_append (head_not_mem h.unique), occurrences_self h.unique,
    occurrences_append (head_not_mem h.unique), occurrences_other h.unique' (h.apart z)]

theorem occurrences_marked' {other : List α} (h : Pair c body other) (x m z : List α) :
    occurrences (c :: other) (x ++ (c :: body ++ (m ++ (c :: other ++ z)))) =
      occurrences (c :: other) x +
        (1 + (occurrences (c :: other) m + occurrences (c :: other) z)) := by
  rw [occurrences_append (head_not_mem h.unique'), occurrences_other h.unique (h.apart' _),
    occurrences_append (head_not_mem h.unique'), occurrences_self h.unique']
  omega

end Marker
