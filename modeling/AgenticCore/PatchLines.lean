import AgenticCore.Lines
import AgenticCore.NativePatch

/-!
# Positional application of a parsed patch (`native_patch.rs`)

* `Hunk.Parsed`          : what the parser of the patch text guarantees of a hunk.
* `applyExact`           : the hunks on the captured text, each at its stated position.
* `splice`               : the lines of the base with each hunk's old range replaced.
* `applyExact_text`      : the result is the text of these lines.
* `applyExact_lines_iff` : **its lines are these lines exactly when they are whole.**
-/

set_option autoImplicit false

namespace AgenticCore.NativePatch

open Lines

/-! ## Parsed patches -/

/-- A line of a hunk, with its newline. -/
inductive Line where
  | context (text : String)
  | delete (text : String)
  | insert (text : String)
  deriving DecidableEq

structure HunkRange where
  start : Nat
  len : Nat
  deriving DecidableEq

structure Hunk where
  oldRange : HunkRange
  newRange : HunkRange
  lines : List Line
  deriving DecidableEq

def Line.text : Line → String
  | .context text | .delete text | .insert text => text

/-- The text of a line the hunk finds in the base. -/
def Line.old : Line → Option String
  | .context text | .delete text => some text
  | .insert _ => none

/-- The text of a line the hunk leaves. -/
def Line.new : Line → Option String
  | .context text | .insert text => some text
  | .delete _ => none

def Line.inserted : Line → Option String
  | .insert text => some text
  | _ => none

/-- Ranges agree with the lines. A newline ends its line, and only the last inserted line and the
    last one of the base may lack it. -/
structure Hunk.Parsed (h : Hunk) : Prop where
  oldRange : h.oldRange.len = (h.lines.filterMap Line.old).length
  newRange : h.newRange.len = (h.lines.filterMap Line.new).length
  isLine : ∀ line ∈ h.lines, IsLine '\n' line.text.toList
  oldEnded : ∀ text ∈ (h.lines.filterMap Line.old).dropLast, text.toList.getLast? = some '\n'
  insertedEnded :
    ∀ text ∈ (h.lines.filterMap Line.inserted).dropLast, text.toList.getLast? = some '\n'

/-! ## Application -/

/-- `split_inclusive('\n')`. -/
def linesOf (text : String) : List String := (splitInclusive '\n' text.toList).map String.ofList

/-- The index of the first line of a range; an empty range names the line before it. -/
def HunkRange.first (range : HunkRange) (message : String) : Result Nat :=
  if range.len = 0 then .ok range.start
  else do
    check (range.start ≠ 0) message
    pure (range.start - 1)

/-- The next line of the base to be read, and the text so far. -/
structure Applied where
  position : Nat
  output : String

/-- A line found at the position. -/
def Applied.expect (lines : List String) (s : Applied) (text : String) : Result Unit :=
  check (lines[s.position]? = some text) "patch hunk differs from the exact captured baseline"

def applyLine (lines : List String) (s : Applied) : Line → Result Applied
  | .context text => do
    s.expect lines text
    pure ⟨s.position + 1, s.output ++ text⟩
  | .delete text => do
    s.expect lines text
    pure ⟨s.position + 1, s.output⟩
  | .insert text => pure ⟨s.position, s.output ++ text⟩

def applyHunk (lines : List String) (s : Applied) (h : Hunk) : Result Applied := do
  let start ← h.oldRange.first "invalid patch line zero"
  check (s.position ≤ start ∧ start ≤ lines.length)
    "patch hunks overlap or exceed the captured baseline"
  let output := s.output ++ String.join ((lines.drop s.position).take (start - s.position))
  let expectedNew ← h.newRange.first "invalid new patch line zero"
  check ((linesOf output).length = expectedNew)
    "patch new hunk position differs from its exact delta"
  let applied ← h.lines.foldlM (applyLine lines) ⟨start, output⟩
  check (applied.output.utf8ByteSize ≤ MAX_BYTES) "patch postimage exceeds the text bound"
  pure applied

def applyExact (base : String) (hunks : List Hunk) : Result String := do
  let lines := linesOf base
  let applied ← hunks.foldlM (applyHunk lines) ⟨0, ""⟩
  let output := applied.output ++ String.join (lines.drop applied.position)
  check (output.utf8ByteSize ≤ MAX_BYTES) "patch postimage exceeds the text bound"
  pure output

/-! ## What a patch describes -/

/-- The line a range stands before or starts with. -/
def HunkRange.index (range : HunkRange) : Nat :=
  if range.len = 0 then range.start else range.start - 1

/-- The lines from a position on, with the old range of each hunk replaced by its context and
    inserted lines. -/
def splice (lines : List String) (position : Nat) : List Hunk → List String
  | [] => lines.drop position
  | h :: hunks =>
    (lines.drop position).take (h.oldRange.index - position) ++ h.lines.filterMap Line.new ++
      splice lines (h.oldRange.index + h.oldRange.len) hunks

theorem HunkRange.first_eq_ok {range : HunkRange} {message : String} {i : Nat}
    (h : range.first message = .ok i) : i = range.index := by
  unfold HunkRange.first at h
  unfold HunkRange.index
  split at h
  · rename_i hlen
    rw [if_pos hlen]
    exact (Except.ok.inj h).symm
  · rename_i hlen
    rw [if_neg hlen]
    simp only [Except.bind_eq_ok_iff, check_eq_ok, Except.pure_eq_ok_iff] at h
    obtain ⟨-, -, h⟩ := h
    exact h.symm

/-- A line moves past what it finds and adds what it leaves. -/
theorem applyLine_eq_ok {lines : List String} {s s' : Applied} {line : Line}
    (h : applyLine lines s line = .ok s') :
    s'.position = s.position + line.old.toList.length ∧
      s'.output = s.output ++ String.join line.new.toList := by
  cases line with
  | context text =>
    simp only [applyLine, Except.bind_eq_ok_iff, Except.pure_eq_ok_iff] at h
    obtain ⟨-, -, rfl⟩ := h
    simp [Line.old, Line.new]
  | delete text =>
    simp only [applyLine, Except.bind_eq_ok_iff, Except.pure_eq_ok_iff] at h
    obtain ⟨-, -, rfl⟩ := h
    simp [Line.old, Line.new]
  | insert text =>
    simp only [applyLine, Except.pure_eq_ok_iff] at h
    obtain rfl := h
    simp [Line.old, Line.new]

theorem filterMap_cons_toList {α β : Type} (f : α → Option β) (a : α) (l : List α) :
    (a :: l).filterMap f = (f a).toList ++ l.filterMap f := by
  rw [List.filterMap_cons]
  cases f a <;> rfl

theorem applyLines_eq_ok {lines : List String} {body : List Line} {s s' : Applied}
    (h : body.foldlM (applyLine lines) s = .ok s') :
    s'.position = s.position + (body.filterMap Line.old).length ∧
      s'.output = s.output ++ String.join (body.filterMap Line.new) := by
  induction body generalizing s with
  | nil =>
    obtain rfl := Except.ok.inj h
    simp
  | cons line body ih =>
    obtain ⟨next, hline, hbody⟩ := foldlM_cons_eq_ok.mp h
    obtain ⟨hposition, houtput⟩ := applyLine_eq_ok hline
    obtain ⟨hposition', houtput'⟩ := ih hbody
    rw [filterMap_cons_toList, filterMap_cons_toList, List.length_append, String.join_append,
      hposition', houtput', hposition, houtput, String.append_assoc, Nat.add_assoc]
    exact ⟨rfl, rfl⟩

/-- A hunk adds the base up to its range and what its lines leave. -/
theorem applyHunk_eq_ok {lines : List String} {s s' : Applied} {h : Hunk} (hparsed : h.Parsed)
    (happly : applyHunk lines s h = .ok s') :
    s'.position = h.oldRange.index + h.oldRange.len ∧
      s'.output = s.output ++ String.join ((lines.drop s.position).take
        (h.oldRange.index - s.position) ++ h.lines.filterMap Line.new) := by
  simp only [applyHunk, Except.bind_eq_ok_iff, check_eq_ok, Except.pure_eq_ok_iff] at happly
  obtain ⟨start, hstart, -, -, new, -, -, -, applied, hbody, -, -, rfl⟩ := happly
  obtain rfl := HunkRange.first_eq_ok hstart
  obtain ⟨hposition, houtput⟩ := applyLines_eq_ok hbody
  rw [hposition, houtput, hparsed.oldRange, String.join_append, String.append_assoc]
  exact ⟨rfl, rfl⟩

theorem applyHunks_eq_ok {lines : List String} {hunks : List Hunk} {s s' : Applied}
    (hparsed : ∀ h ∈ hunks, h.Parsed) (happly : hunks.foldlM (applyHunk lines) s = .ok s') :
    s'.output ++ String.join (lines.drop s'.position) =
      s.output ++ String.join (splice lines s.position hunks) := by
  induction hunks generalizing s with
  | nil =>
    obtain rfl := Except.ok.inj happly
    rfl
  | cons h hunks ih =>
    obtain ⟨next, hhunk, hrest⟩ := foldlM_cons_eq_ok.mp happly
    obtain ⟨hposition, houtput⟩ := applyHunk_eq_ok (hparsed h List.mem_cons_self) hhunk
    have hnext := ih (fun h hh => hparsed h (List.mem_cons_of_mem _ hh)) hrest
    rw [hposition, houtput] at hnext
    rw [hnext, splice, String.append_assoc, ← String.join_append]

/-- **The result is the text of the spliced lines.** -/
theorem applyExact_text {base out : String} {hunks : List Hunk} (hparsed : ∀ h ∈ hunks, h.Parsed)
    (h : applyExact base hunks = .ok out) : out = String.join (splice (linesOf base) 0 hunks) := by
  simp only [applyExact, Except.bind_eq_ok_iff, check_eq_ok, Except.pure_eq_ok_iff] at h
  obtain ⟨applied, happly, -, -, rfl⟩ := h
  rw [applyHunks_eq_ok hparsed happly, String.empty_append]

/-! ## Its lines -/

theorem isLine_linesOf {base text : String} (h : text ∈ linesOf base) :
    IsLine '\n' text.toList := by
  obtain ⟨line, hline, rfl⟩ := List.mem_map.mp h
  rw [String.toList_ofList]
  exact isLine_of_mem_splitInclusive hline

theorem mem_splice {lines : List String} {hunks : List Hunk} {position : Nat} {text : String}
    (h : text ∈ splice lines position hunks) :
    text ∈ lines ∨ ∃ k ∈ hunks, ∃ line ∈ k.lines, line.new = some text := by
  induction hunks generalizing position with
  | nil => exact Or.inl (List.mem_of_mem_drop h)
  | cons k hunks ih =>
    rw [splice, List.mem_append, List.mem_append] at h
    rcases h with (h | h) | h
    · exact Or.inl (List.mem_of_mem_drop (List.mem_of_mem_take h))
    · obtain ⟨line, hline, hnew⟩ := List.mem_filterMap.mp h
      exact Or.inr ⟨k, List.mem_cons_self, line, hline, hnew⟩
    · rcases ih h with h | ⟨k', hk', hline⟩
      · exact Or.inl h
      · exact Or.inr ⟨k', List.mem_cons_of_mem _ hk', hline⟩

theorem Line.text_of_new {line : Line} {text : String} (h : line.new = some text) :
    line.text = text := by
  cases line with
  | delete _ => cases h
  | context _ => exact Option.some.inj h
  | insert _ => exact Option.some.inj h

theorem isLine_splice {base text : String} {hunks : List Hunk} (hparsed : ∀ h ∈ hunks, h.Parsed)
    (h : text ∈ splice (linesOf base) 0 hunks) : IsLine '\n' text.toList := by
  rcases mem_splice h with h | ⟨k, hk, line, hline, hnew⟩
  · exact isLine_linesOf h
  · rw [← Line.text_of_new hnew]
    exact (hparsed k hk).isLine line hline

theorem linesOf_eq_iff {text : String} {lines : List String} :
    linesOf text = lines ↔ splitInclusive '\n' text.toList = lines.map String.toList := by
  unfold linesOf
  constructor
  · rintro rfl
    simp [Function.comp_def]
  · intro h
    rw [h, List.map_map]
    simp [Function.comp_def]

/-- **The lines of the result are the spliced lines exactly when these are whole.** -/
theorem applyExact_lines_iff {base out : String} {hunks : List Hunk}
    (hparsed : ∀ h ∈ hunks, h.Parsed) (h : applyExact base hunks = .ok out) :
    linesOf out = splice (linesOf base) 0 hunks ↔
      Whole '\n' ((splice (linesOf base) 0 hunks).map String.toList) := by
  have htext : out.toList = ((splice (linesOf base) 0 hunks).map String.toList).flatten := by
    rw [applyExact_text hparsed h, String.toList_join, List.flatMap_def]
  rw [linesOf_eq_iff, htext]
  apply splitInclusive_flatten_iff
  intro line hline
  obtain ⟨text, htext, rfl⟩ := List.mem_map.mp hline
  exact isLine_splice hparsed htext

/-- A patch of finished lines on a finished text is applied line by line. -/
theorem applyExact_lines_of_ended {base out : String} {hunks : List Hunk}
    (hparsed : ∀ h ∈ hunks, h.Parsed) (h : applyExact base hunks = .ok out)
    (hbase : ∀ line ∈ linesOf base, line.toList.getLast? = some '\n')
    (hhunks : ∀ k ∈ hunks, ∀ line ∈ k.lines, line.text.toList.getLast? = some '\n') :
    linesOf out = splice (linesOf base) 0 hunks := by
  apply (applyExact_lines_iff hparsed h).mpr
  apply Whole.of_ended
  intro line hline
  obtain ⟨text, htext, rfl⟩ := List.mem_map.mp hline
  rcases mem_splice htext with htext | ⟨k, hk, line, hline, hnew⟩
  · exact hbase text htext
  · rw [← Line.text_of_new hnew]
    exact hhunks k hk line hline

/-! ### An unfinished line before another -/

/-- The first line replaced by another, with its newline or without. -/
def replaceFirst (text : String) : Hunk :=
  { oldRange := ⟨1, 1⟩, newRange := ⟨1, 1⟩, lines := [.delete "a\n", .insert text] }

theorem replaceFirst_parsed {text : String} (h : IsLine '\n' text.toList) :
    ∀ k ∈ [replaceFirst text], k.Parsed := by
  intro k hk
  obtain rfl := List.mem_singleton.mp hk
  refine ⟨rfl, rfl, fun line hline => ?_, fun _ h => absurd h List.not_mem_nil,
    fun _ h => absurd h List.not_mem_nil⟩
  rcases List.mem_pair.mp hline with rfl | rfl
  · show '\n' ∉ ['a']
    simp
  · exact h

theorem applyExact_lines_iff_replaceFirst :
    applyExact "a\na\n" [replaceFirst "b\n"] = .ok "b\na\n" ∧
      (linesOf "b\na\n" = splice (linesOf "a\na\n") 0 [replaceFirst "b\n"] ↔
        Whole '\n' ((splice (linesOf "a\na\n") 0 [replaceFirst "b\n"]).map String.toList)) :=
  ⟨rfl, applyExact_lines_iff (replaceFirst_parsed (show '\n' ∉ ['b'] by simp)) rfl⟩

/-- The first line loses its newline and takes the second one in. -/
theorem applyExact_joins : (∀ k ∈ [replaceFirst "x"], k.Parsed) ∧
    applyExact "a\nb\n" [replaceFirst "x"] = .ok "xb\n" ∧
      linesOf "xb\n" ≠ splice (linesOf "a\nb\n") 0 [replaceFirst "x"] :=
  ⟨replaceFirst_parsed List.not_mem_nil, rfl, by decide⟩

end AgenticCore.NativePatch
