import AgenticCore.CanonicalRecord
import AgenticCore.FirstMatch
import AgenticCore.InstructionSource
import AgenticCore.JsonPretty

/-!
# The typed record of a decision document (`decision_source.rs`)

* `typedRecord`         : the text between the first record marker and the first closing fence.
* `record`              : the record a document carries, normalised under its own source.
* `typedRecord_behind`  : **prose without a marker line leaves the record to be read**.
* `typedRecord_forged`  : **a marker line in the prose makes the document unreadable**.
-/

set_option autoImplicit false

namespace AgenticCore.DecisionSource

open Json Text FirstMatch
open InstructionSource (lineFeeds)
open Continuity (normalize)

def FENCE : List Char := ['`', '`', '`']

/-- The line that opens a record, up to its line feed. -/
def OPENING : List Char := FENCE ++ "aw-decision".toList

def marker : List Char := OPENING ++ ['\n']

/-- What stands between the first marker and the first fence behind it that starts a line. -/
def typedRecord (text : List Char) : Result (List Char) := do
  let (_, rest) ← okOr (splitFirst marker text) "decision source lacks typed record"
  let (body, tail) ← okOr (splitFirst ('\n' :: FENCE) rest) "unclosed decision record"
  check (¬marker <:+: tail) "multiple decision records in one source"
  pure body

/-- `hash` is the SHA-256 of bytes, written `sha256:<hex>`. -/
def record (digest : Value → String) (hash : ByteArray → String) (bytes : ByteArray)
    (path owner : String) : Result Value := do
  let text ← okOr (String.fromUTF8? bytes) MALFORMED
  let body ← typedRecord (lineFeeds text.toList)
  let value ← okOr (parse body) MALFORMED
  check (value.get? "source" = none ∧ value.get? "rationale_reference" = none)
    "source identity belongs to the repository adapter"
  let source : Continuity.Reference := ⟨owner, path, hash bytes⟩
  normalize digest
    ((value.insert "source" source.toValue).insert "rationale_reference" (.string path))

/-! ## Prose around a record -/

theorem opening_line : '\n' ∉ OPENING := by decide

theorem fence_line : '\n' ∉ FENCE := by decide

/-- What the writer puts between the caller's prose and the record: it starts with a line that no
    JSON text has, and ends the last line. -/
structure Rail (t : List Char) : Prop where
  starts : ∃ c t', t = '\n' :: c :: (t' ++ ['\n']) ∧ lineStart c = false
  unmarked : ¬marker <:+: t

/-- A body in which no line starts with a fence. -/
def Unfenced (body : List Char) : Prop := ∀ a b, body ≠ a ++ '\n' :: '`' :: b

/-- A JSON text is one. -/
theorem unfenced_of_parse {body : List Char} {v : Value} (h : parse body = some v) :
    Unfenced body := by
  rintro a b rfl
  exact absurd (parse_line h) (by decide)

/-- The document of a body behind some prose. -/
def document (prose body : List Char) : List Char :=
  prose ++ (marker ++ (body ++ ('\n' :: FENCE ++ ['\n'])))

/-- **Prose without a marker line leaves the record to be read.** -/
theorem typedRecord_behind {prose body : List Char} (hprose : prose.getLast? = some '\n')
    (hunmarked : ¬marker <:+: prose) (hbody : Unfenced body) :
    typedRecord (document prose body) = .ok body := by
  have hfirst : splitFirst marker (document prose body) =
      some (prose, body ++ ('\n' :: FENCE ++ ['\n'])) := splitFirst_behind opening_line hprose hunmarked
  have hclose : splitFirst ('\n' :: FENCE) (body ++ ('\n' :: FENCE ++ ['\n'])) = some (body, ['\n']) := by
    refine splitFirst_of_first fun a b h => ?_
    by_contra hlt
    rcases List.append_eq_append_iff.mp h with ⟨m, ha, -⟩ | ⟨m, hm, hrest⟩
    · rw [ha, List.length_append] at hlt
      omega
    · cases m with
      | nil =>
        rw [List.append_nil] at hm
        rw [hm] at hlt
        omega
      | cons c m =>
        cases m with
        | nil => exact absurd (List.cons.inj (List.cons.inj hrest).2).1 (by decide)
        | cons d m =>
          have hc : c = '\n' := (List.cons.inj hrest).1.symm
          have hd : d = '`' := (List.cons.inj (List.cons.inj hrest).2).1.symm
          exact hbody a m (by rw [hm, hc, hd])
  have hmarker : ¬marker <:+: ['\n'] := by decide
  simp only [typedRecord, Except.bind_eq_ok_iff, okOr_eq_ok, check_eq_ok, Except.pure_eq_ok_iff]
  exact ⟨_, hfirst, _, hclose, (), hmarker, rfl⟩

/-- A text whose first closing fence is before the opening one of `rest` leaves a marker behind. -/
theorem marker_behind {read tail before rest : List Char}
    (h : read ++ ('\n' :: FENCE ++ tail) = before ++ ('\n' :: (marker ++ rest)))
    (hno : ¬marker <:+: tail) : ∃ k, read = before ++ k := by
  rcases List.append_eq_append_iff.mp h with ⟨k, hbefore, hrest⟩ | ⟨k, hread, -⟩
  · cases k with
    | nil => exact ⟨[], by rw [hbefore, List.append_nil, List.append_nil]⟩
    | cons e k =>
      have hrest : FENCE ++ tail = k ++ '\n' :: (marker ++ rest) := (List.cons.inj hrest).2
      rcases List.append_eq_append_iff.mp hrest with ⟨n, hk, htail⟩ | ⟨n, hfence, htail⟩
      · refine absurd ⟨n ++ ['\n'], rest, ?_⟩ hno
        rw [htail, List.append_assoc, List.append_assoc]
        rfl
      · cases n with
        | nil => exact absurd ⟨['\n'], rest, by rw [List.append_assoc]; exact htail⟩ hno
        | cons x n =>
          have hx : x = '\n' := (List.cons.inj htail).1.symm
          exact absurd (hfence ▸ List.mem_append_right k (hx ▸ List.mem_cons_self)) fence_line
  · exact ⟨k, hread⟩

/-- **A marker line in the prose makes the document unreadable**: what is read instead of the
record is no JSON text. -/
theorem typedRecord_forged {prose rail body read : List Char} (hprose : prose.getLast? = some '\n')
    (hrail : Rail rail) (hmarked : marker <:+: prose)
    (h : typedRecord (document (prose ++ rail) body) = .ok read) : parse read = none := by
  simp only [typedRecord, Except.bind_eq_ok_iff, okOr_eq_ok, check_eq_ok,
    Except.pure_eq_ok_iff] at h
  obtain ⟨⟨_, rest⟩, hfirst, ⟨read, tail⟩, hclose, _, hno, rfl⟩ := h
  obtain ⟨c, t, rfl, hc⟩ := hrail.starts
  obtain ⟨a, m, -, hsplit⟩ := splitFirst_within opening_line (q := ('\n' :: c :: (t ++ ['\n'])) ++
    (marker ++ (body ++ ('\n' :: FENCE ++ ['\n'])))) hprose hmarked
  rw [document, List.append_assoc] at hfirst
  obtain ⟨-, rfl⟩ := Prod.mk.inj (Option.some.inj (hfirst.symm.trans hsplit))
  obtain ⟨heq, -⟩ := splitFirst_eq_some hclose
  have hbefore : m ++ ('\n' :: c :: (t ++ ['\n']) ++ (marker ++ (body ++ ('\n' :: FENCE ++ ['\n'])))) =
      (m ++ '\n' :: c :: t) ++ ('\n' :: (marker ++ (body ++ ('\n' :: FENCE ++ ['\n'])))) := by
    simp only [List.append_assoc, List.cons_append, List.nil_append]
  rw [hbefore] at heq
  obtain ⟨k, rfl⟩ := marker_behind heq.symm hno
  cases hparse : parse (m ++ '\n' :: c :: t ++ k) with
  | none => rfl
  | some v =>
    rw [List.append_assoc, List.cons_append, List.cons_append] at hparse
    rw [parse_line hparse] at hc
    cases hc

end AgenticCore.DecisionSource
