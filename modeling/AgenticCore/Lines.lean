import Mathlib

/-!
# Texts as sequences of lines

A text over any alphabet is cut after each separator, which stays with the line it ends.

* `splitInclusive`      : the lines of a text.
* `flatten_splitInclusive` : the lines put together are the text.
* `Whole`               : no line is empty, and each but the last has its separator.
* `splitInclusive_flatten_iff` : **lines can be read back from their text exactly when they are
                              whole.**
-/

set_option autoImplicit false

namespace Lines

variable {α : Type*} {sep : α}

/-- A line has its separator nowhere but at its end. -/
def IsLine (sep : α) (line : List α) : Prop := sep ∉ line.dropLast

structure Whole (sep : α) (lines : List (List α)) : Prop where
  nonempty : ∀ line ∈ lines, line ≠ []
  ended : ∀ line ∈ lines.dropLast, line.getLast? = some sep

theorem Whole.nil : Whole sep ([] : List (List α)) :=
  ⟨fun _ h => absurd h List.not_mem_nil, fun _ h => absurd h List.not_mem_nil⟩

theorem Whole.cons {line : List α} {lines : List (List α)} (hline : line ≠ [])
    (hended : lines ≠ [] → line.getLast? = some sep) (h : Whole sep lines) :
    Whole sep (line :: lines) := by
  constructor
  · intro l hl
    rcases List.mem_cons.mp hl with rfl | hl
    · exact hline
    · exact h.nonempty l hl
  · intro l hl
    cases lines with
    | nil => exact absurd hl List.not_mem_nil
    | cons next lines =>
      rw [List.dropLast_cons_of_ne_nil (List.cons_ne_nil _ _), List.mem_cons] at hl
      rcases hl with rfl | hl
      · exact hended (List.cons_ne_nil _ _)
      · exact h.ended l hl

theorem Whole.tail {line : List α} {lines : List (List α)} (h : Whole sep (line :: lines)) :
    Whole sep lines := by
  refine ⟨fun l hl => h.nonempty l (List.mem_cons_of_mem _ hl), fun l hl => h.ended l ?_⟩
  cases lines with
  | nil => exact absurd hl List.not_mem_nil
  | cons next lines =>
    rw [List.dropLast_cons_of_ne_nil (List.cons_ne_nil _ _)]
    exact List.mem_cons_of_mem _ hl

theorem Whole.head_ended {line next : List α} {lines : List (List α)}
    (h : Whole sep (line :: next :: lines)) : line.getLast? = some sep :=
  h.ended line (by simp)

/-- Lines that all have their separator are whole. -/
theorem Whole.of_ended {lines : List (List α)} (h : ∀ line ∈ lines, line.getLast? = some sep) :
    Whole sep lines := by
  refine ⟨fun line hline hnil => ?_, fun line hline => h line (List.dropLast_subset _ hline)⟩
  have hlast := h line hline
  rw [hnil] at hlast
  cases hlast

/-! ## The lines of a text -/

variable [DecidableEq α]

/-- `split_inclusive`: each separator ends a line; an unfinished last line counts if nonempty. -/
def splitInclusive (sep : α) : List α → List (List α)
  | [] => []
  | a :: rest =>
    if a = sep then [a] :: splitInclusive sep rest
    else match splitInclusive sep rest with
      | [] => [[a]]
      | line :: lines => (a :: line) :: lines

theorem splitInclusive_cons_ne {a : α} (h : a ≠ sep) (rest : List α) :
    splitInclusive sep (a :: rest) = (a :: (splitInclusive sep rest).headD []) ::
      (splitInclusive sep rest).tail := by
  rw [splitInclusive, if_neg h]
  cases splitInclusive sep rest <;> rfl

theorem splitInclusive_cons_sep (rest : List α) :
    splitInclusive sep (sep :: rest) = [sep] :: splitInclusive sep rest := by
  rw [splitInclusive, if_pos rfl]

@[simp] theorem splitInclusive_eq_nil {text : List α} : splitInclusive sep text = [] ↔ text = [] := by
  cases text with
  | nil => simp [splitInclusive]
  | cons a rest =>
    by_cases h : a = sep
    · simp [h, splitInclusive_cons_sep]
    · simp [splitInclusive_cons_ne h]

/-- **The lines put together are the text.** -/
theorem flatten_splitInclusive (text : List α) : (splitInclusive sep text).flatten = text := by
  induction text with
  | nil => rfl
  | cons a rest ih =>
    by_cases h : a = sep
    · rw [h, splitInclusive_cons_sep, List.flatten_cons, ih, List.singleton_append]
    · rw [splitInclusive_cons_ne h]
      cases hrest : splitInclusive sep rest with
      | nil => rw [splitInclusive_eq_nil.mp hrest]; rfl
      | cons line lines =>
        rw [hrest] at ih
        simpa using ih

theorem splitInclusive_whole (text : List α) : Whole sep (splitInclusive sep text) := by
  induction text with
  | nil => exact Whole.nil
  | cons a rest ih =>
    by_cases h : a = sep
    · rw [h, splitInclusive_cons_sep]
      exact ih.cons (List.cons_ne_nil _ _) fun _ => rfl
    · rw [splitInclusive_cons_ne h]
      cases hrest : splitInclusive sep rest with
      | nil => exact Whole.nil.cons (List.cons_ne_nil _ _) fun h => absurd rfl h
      | cons line lines =>
        rw [hrest] at ih
        refine ih.tail.cons (List.cons_ne_nil _ _) fun hlines => ?_
        obtain ⟨next, lines, rfl⟩ := List.exists_cons_of_ne_nil hlines
        rw [List.headD_cons, List.getLast?_cons, ih.head_ended]
        rfl

/-- A line with its separator is read first. -/
theorem splitInclusive_append {line : List α} (hline : IsLine sep line)
    (hended : line.getLast? = some sep) (rest : List α) :
    splitInclusive sep (line ++ rest) = line :: splitInclusive sep rest := by
  induction line with
  | nil => cases hended
  | cons a line ih =>
    cases line with
    | nil =>
      obtain rfl := Option.some.inj hended
      exact splitInclusive_cons_sep rest
    | cons b line =>
      rw [IsLine, List.dropLast_cons_of_ne_nil (List.cons_ne_nil _ _), List.mem_cons] at hline
      have ha : a ≠ sep := fun h => hline (Or.inl h.symm)
      rw [List.getLast?_cons_cons] at hended
      rw [List.cons_append, splitInclusive_cons_ne ha, ih (fun h => hline (Or.inr h)) hended]
      rfl

/-- A nonempty text with no separator before its end is one line. -/
theorem splitInclusive_line {line : List α} (hline : IsLine sep line) (hne : line ≠ []) :
    splitInclusive sep line = [line] := by
  induction line with
  | nil => exact absurd rfl hne
  | cons a line ih =>
    cases line with
    | nil =>
      by_cases h : a = sep
      · rw [h, splitInclusive_cons_sep]; rfl
      · rw [splitInclusive_cons_ne h]; rfl
    | cons b line =>
      rw [IsLine, List.dropLast_cons_of_ne_nil (List.cons_ne_nil _ _), List.mem_cons] at hline
      have ha : a ≠ sep := fun h => hline (Or.inl h.symm)
      rw [splitInclusive_cons_ne ha, ih (fun h => hline (Or.inr h)) (List.cons_ne_nil _ _)]
      rfl

/-- The lines of a text are lines. -/
theorem isLine_of_mem_splitInclusive {text line : List α} (h : line ∈ splitInclusive sep text) :
    IsLine sep line := by
  induction text generalizing line with
  | nil => exact absurd h List.not_mem_nil
  | cons a rest ih =>
    by_cases ha : a = sep
    · rw [ha, splitInclusive_cons_sep, List.mem_cons] at h
      rcases h with rfl | h
      · simp [IsLine]
      · exact ih h
    · rw [splitInclusive_cons_ne ha, List.mem_cons] at h
      rcases h with rfl | h
      · cases hrest : splitInclusive sep rest with
        | nil => simp [IsLine]
        | cons next lines =>
          have hnext : IsLine sep next := ih (hrest ▸ List.mem_cons_self)
          cases next with
          | nil => simp [IsLine]
          | cons b next =>
            rw [IsLine, List.headD_cons, List.dropLast_cons_of_ne_nil (List.cons_ne_nil _ _),
              List.mem_cons]
            rintro (h | h)
            · exact ha h.symm
            · exact hnext h
      · exact ih (List.mem_of_mem_tail h)

/-- **Lines can be read back from their text exactly when they are whole.** -/
theorem splitInclusive_flatten_iff {lines : List (List α)} (h : ∀ line ∈ lines, IsLine sep line) :
    splitInclusive sep lines.flatten = lines ↔ Whole sep lines := by
  constructor
  · intro heq
    rw [← heq]
    exact splitInclusive_whole _
  · intro hwhole
    induction lines with
    | nil => rfl
    | cons line lines ih =>
      have hline := h line List.mem_cons_self
      cases lines with
      | nil =>
        rw [List.flatten_singleton]
        exact splitInclusive_line hline (hwhole.nonempty line List.mem_cons_self)
      | cons next lines =>
        rw [List.flatten_cons, splitInclusive_append hline hwhole.head_ended,
          ih (fun l hl => h l (List.mem_cons_of_mem _ hl)) hwhole.tail]

end Lines
