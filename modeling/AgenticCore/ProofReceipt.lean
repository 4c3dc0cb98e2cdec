import AgenticCore.Pattern
import AgenticCore.JsonText

/-!
# Admission of proof receipts (`proof_receipt.rs`)

* `unresolved`        : whether a text still has a placeholder, by splitting it at the delimiters.
* `admitReceipt`      : the admission of a receipt.
* `Placeholder`       : a delimited body somewhere in the text.
* `ClearPlaceholder`  : one that is not written in braces behind an odd run of opening braces.
* `unresolved_iff`    : **the splits find the clear placeholders**,
* `detection_iff`     : **and so every placeholder exactly in a text that has a clear one if any.**
-/

set_option autoImplicit false

namespace AgenticCore

namespace ProofReceipt

open Json Text Pattern

/-! ## Placeholders in a text -/

def delimiters : List (String × String) := [("<", ">"), ("\x7b\x7b", "\x7d\x7d"), ("$\x7b", "\x7d")]

/-- A body that is not empty and has no line break and none of its delimiters' characters. -/
def PlaceholderBody (d : String × String) (body : List Char) : Prop :=
  body ≠ [] ∧ ∀ c ∈ body, c ≠ '\r' ∧ c ≠ '\n' ∧ c ∉ d.1.toList ∧ c ∉ d.2.toList

instance (d : String × String) (body : List Char) : Decidable (PlaceholderBody d body) :=
  @instDecidableAnd _ _ _ (List.decidableBAll _ _)

/-- `unresolved`. -/
def unresolved (command : String) : Bool :=
  delimiters.any fun d =>
    (splitPattern d.1.toList command.toList).tail.any fun tail =>
      (splitOncePattern d.2.toList tail).any fun split => decide (PlaceholderBody d split.1)

/-! ## Admission -/

/-- A float that is zero, of either sign. -/
def floatZero (f : FloatText) : Bool :=
  (f.chars.takeWhile (· ∉ ['e', 'E'])).all (· ∈ ['-', '0', '.'])

/-- `text`. -/
def textOf : Value → String
  | .null => ""
  | .string s => s
  | .bool false => ""
  | .bool true => "True"
  | .number (.int 0) => ""
  | .number (.float f) => if floatZero f then "" else Json.text (.number (.float f))
  | v => Json.text v

/-- `command`. -/
def command (value : Value) : Value :=
  let value := textOf value
  let (reason, recovery) :=
    if trim value = "" then
      ("missing-command",
        "Supply the exact command that was executed with --receipt-command.")
    else if unresolved (trim value) = true then
      ("unresolved-command-template",
        "Substitute every placeholder, execute the concrete command, then record that exact " ++
          "command.")
    else ("admissible", "none")
  .object [
    ("admitted", .bool (reason = "admissible")),
    ("reason", .string reason),
    ("safe_recovery", .string recovery)]

/-- A reason for rejection, the field it is about and what to do. -/
structure Rejection where
  reason : String
  field : String
  recovery : String
  deriving DecidableEq, Repr

def Rejection.toValue (r : Rejection) : Value :=
  .object [
    ("field", .string r.field),
    ("reason", .string r.reason),
    ("recovery", .string r.recovery)]

/-- The rejection, where the condition for it holds. -/
def rejectIf (cond : Prop) [Decidable cond] (reason field recovery : String) : List Rejection :=
  if cond then [{ reason, field, recovery }] else []

def receiptKind : String := "agentic-workspace/proof-receipt/v1"

def obligationKind : String := "agentic-workspace/assignment-task-proof-obligation/v1"

section Admit

-- `to_lowercase`, with the tables of the Unicode version in use
variable (toLowercase : String → String)

def resultClass (observed : String) : String :=
  if observed ∈ ["passed", "pass", "success", "succeeded"] then "passed"
  else if observed ∈ ["failed", "fail", "failure", "error"] then "failed"
  else if observed ∈ ["skipped", "skip"] then "skipped"
  else if observed ∈ ["waived", "waive"] then "waived"
  else ""

/-- `result`. -/
def result (value : Value) : Value :=
  let observed := toLowercase (trim (textOf value))
  let cls := resultClass observed
  .object [
    ("admitted", .bool (cls ≠ "")),
    ("observed_result", .string observed),
    ("proof_sufficient", .bool (cls = "passed")),
    ("result_class", .string cls)]

def commandRejections (receipt : Value) : List Rejection :=
  let checked := command (receipt.field "command")
  rejectIf (checked.field "admitted" ≠ .bool true)
    (((checked.field "reason").asStr).getD "") "command"
    (((checked.field "safe_recovery").asStr).getD "")

def resultRejections (checked : Value) : List Rejection :=
  if checked.field "observed_result" = .string "" then
    [{ reason := "missing-result", field := "result",
       recovery := "Supply the observed result in the receipt result field." }]
  else
    rejectIf (checked.field "admitted" ≠ .bool true) "unsupported-result" "result"
      "Use an admitted result class: passed, failed, skipped, or waived."

/-- A path that is empty or has a placeholder. -/
def templatedPath (path : Value) : Bool :=
  trim (textOf path) = "" ∨ unresolved (trim (textOf path)) = true

def changedPathRejections (receipt : Value) : List Rejection :=
  match (receipt.field "changed_paths").asArray with
  | some (path :: paths) =>
    rejectIf ((path :: paths).any templatedPath = true) "invalid-changed-path-scope"
      "changed_paths"
      "Replace empty or templated --changed values with concrete repo-relative paths."
  | _ =>
    [{ reason := "missing-changed-path-scope", field := "changed_paths",
       recovery := "Pass one or more concrete --changed paths matching the proof scope." }]

def obligationRejections (receipt : Value) (assignmentBinding : Option String) : List Rejection :=
  if receipt.field "assignment_proof_obligation" = .null then []
  else
    rejectIf ((receipt.field "assignment_proof_obligation").field "kind" ≠ .string obligationKind)
      "invalid-assignment-proof-obligation" "assignment_proof_obligation"
      ("Record assignment proof through the AW proof producer while the exact run is " ++
        "integrated.") ++
    rejectIf (receipt.field "producer_class" ≠ .string "aw-proof" ∨
        receipt.field "authority" ≠ .string "aw-proof")
      "assignment-proof-not-aw-owned" "producer_class|authority"
      "Record assignment proof through the AW proof producer." ++
    rejectIf (assignmentBinding = none ∨
        (receipt.field "assignment_proof_binding").asStr ≠ assignmentBinding)
      "assignment-proof-binding-mismatch" "assignment_proof_binding"
      "Record the proof again against the current integrated assignment."

/-- What is wrong with a receipt, in the order it is looked for. -/
def rejections (receipt : Value) (timestampValid : Bool) (assignmentBinding : Option String) :
    List Rejection :=
  rejectIf (receipt.field "kind" ≠ .string receiptKind) "unsupported-receipt-kind" "kind"
    ("Supply a receipt of kind agentic-workspace/proof-receipt/v1 through the current " ++
      "Verification owner request; resolve current requests with `agentic-workspace start " ++
      "--target . --format json`.") ++
  commandRejections receipt ++
  resultRejections (result toLowercase (receipt.field "result")) ++
  rejectIf (timestampValid = false) "invalid-recorded-at" "recorded_at"
    "Record the receipt again so AW supplies an ISO-8601 timestamp with timezone." ++
  changedPathRejections receipt ++
  obligationRejections receipt assignmentBinding

/-- `admit`. -/
def admitReceipt (receipt : Value) (timestampValid : Bool) (assignmentBinding : Option String) : Value :=
  let failures := rejections toLowercase receipt timestampValid assignmentBinding
  let checked := result toLowercase (receipt.field "result")
  let admitted : Bool := failures = []
  .object [
    ("admitted", .bool admitted),
    ("failures", .array (failures.map Rejection.toValue)),
    ("kind", .string "agentic-workspace/proof-receipt-admission/v1"),
    ("proof_sufficient",
      .bool (admitted && decide (checked.field "proof_sufficient" = .bool true))),
    ("reason", .string ((failures.head?.map (·.reason)).getD "admissible")),
    ("result_class", checked.field "result_class"),
    ("rule", .string ("Only admitted receipts may be persisted, selected, or counted as " ++
      "trusted proof state.")),
    ("safe_recovery", .string ((failures.head?.map (·.recovery)).getD "none")),
    ("status", .string (if admitted then "admitted" else "rejected"))]

end Admit

/-! ## The placeholders the splits find -/

/-- A placeholder between these delimiters, and the text before it. -/
def PlaceholderAt (d : String × String) (s : String) (before : List Char) : Prop :=
  ∃ body after, PlaceholderBody d body ∧
    s.toList = before ++ d.1.toList ++ (body ++ d.2.toList ++ after)

/-- A placeholder occurs in the text. -/
def Placeholder (s : String) : Prop := ∃ d ∈ delimiters, ∃ before, PlaceholderAt d s before

/-- A placeholder occurs that, if it is in double braces, has an even run of opening braces before
    it. -/
def ClearPlaceholder (s : String) : Prop :=
  ∃ d ∈ delimiters, ∃ before, PlaceholderAt d s before ∧
    (d.1 = "\x7b\x7b" → Even (run '{' before))

theorem ClearPlaceholder.placeholder {s : String} (h : ClearPlaceholder s) : Placeholder s := by
  obtain ⟨d, hd, before, hat, -⟩ := h
  exact ⟨d, hd, before, hat⟩

/-- The opener and the closer are written, and share no character. -/
def Delimits (d : String × String) : Prop :=
  d.1.toList ≠ [] ∧ d.2.toList ≠ [] ∧ ∀ c ∈ d.2.toList, c ∉ d.1.toList

theorem delimits_of_mem {d : String × String} (h : d ∈ delimiters) : Delimits d := by
  simp only [delimiters, List.mem_cons, List.not_mem_nil, or_false] at h
  rcases h with rfl | rfl | rfl
  all_goals simp [Delimits]

/-- A piece behind an opener is read as a body when a body and a closer follow the opener. -/
theorem body_firstPiece {d : String × String} (hd : Delimits d) (rest : List Char) :
    (splitOncePattern d.2.toList (firstPiece d.1.toList rest)).any
        (fun split => decide (PlaceholderBody d split.1)) = true ↔
      ∃ body after, PlaceholderBody d body ∧ rest = body ++ d.2.toList ++ after := by
  obtain ⟨hopen, hclose, hshared⟩ := hd
  rw [Option.any_eq_true]
  constructor
  · rintro ⟨⟨body, after⟩, hsplit, hbody⟩
    have hpiece := splitOncePattern_eq_some hsplit
    obtain ⟨rest', hrest⟩ := firstPiece_prefix hopen rest
    refine ⟨body, after ++ rest', of_decide_eq_true hbody, ?_⟩
    rw [← hrest, hpiece, List.append_assoc]
  · rintro ⟨body, after, hbody, rfl⟩
    have hfree : ∀ c ∈ body ++ d.2.toList, c ∉ d.1.toList := by
      intro c hc
      rcases List.mem_append.mp hc with hc | hc
      · exact (hbody.2 c hc).2.2.1
      · exact hshared c hc
    refine ⟨(body, firstPiece d.1.toList after), ?_, decide_eq_true hbody⟩
    rw [firstPiece_append hopen hfree]
    exact splitOncePattern_append hclose _ fun c hc => (hbody.2 c hc).2.2.2

theorem tail_any_iff {d : String × String} (hd : Delimits d) (s : String) :
    ((splitPattern d.1.toList s.toList).tail.any fun tail =>
        (splitOncePattern d.2.toList tail).any fun split => decide (PlaceholderBody d split.1)) =
        true ↔
      ∃ body after, PlaceholderBody d body ∧
        Cut d.1.toList s.toList (body ++ d.2.toList ++ after) := by
  rw [List.any_eq_true]
  constructor
  · rintro ⟨tail, htail, hany⟩
    obtain ⟨rest, hcut, rfl⟩ := (mem_tail_splitPattern hd.1).mp htail
    obtain ⟨body, after, hbody, rfl⟩ := (body_firstPiece hd rest).mp hany
    exact ⟨body, after, hbody, hcut⟩
  · rintro ⟨body, after, hbody, hcut⟩
    exact ⟨_, (mem_tail_splitPattern hd.1).mpr ⟨_, hcut, rfl⟩,
      (body_firstPiece hd _).mpr ⟨body, after, hbody, rfl⟩⟩

theorem unbordered_angle : Unbordered "<".toList := by
  intro k hpos hlt
  have : "<".toList.length = 1 := by decide
  omega

theorem unbordered_dollar : Unbordered "$\x7b".toList := by
  intro k hpos hlt
  have hlength : "$\x7b".toList.length = 2 := by decide
  obtain rfl : k = 1 := by omega
  decide

/-- Where the scan for an opener matches. -/
theorem cut_delimiter {d : String × String} (h : d ∈ delimiters) (cs rest : List Char) :
    Cut d.1.toList cs rest ↔ ∃ before, cs = before ++ d.1.toList ++ rest ∧
      (d.1 = "\x7b\x7b" → Even (run '{' before)) := by
  simp only [delimiters, List.mem_cons, List.not_mem_nil, or_false] at h
  rcases h with rfl | rfl | rfl
  · rw [cut_iff (by decide) unbordered_angle]
    simp
  · rw [show "\x7b\x7b".toList = ['{', '{'] from rfl, cut_pair_iff]
    simp
  · rw [cut_iff (by decide) unbordered_dollar]
    simp

/-- **The splits find the clear placeholders.** -/
theorem unresolved_iff (s : String) : unresolved s = true ↔ ClearPlaceholder s := by
  unfold unresolved ClearPlaceholder PlaceholderAt
  rw [List.any_eq_true]
  constructor
  · rintro ⟨d, hd, hany⟩
    obtain ⟨body, after, hbody, hcut⟩ := (tail_any_iff (delimits_of_mem hd) s).mp hany
    obtain ⟨before, hs, heven⟩ := (cut_delimiter hd _ _).mp hcut
    exact ⟨d, hd, before, ⟨body, after, hbody, hs⟩, heven⟩
  · rintro ⟨d, hd, before, ⟨body, after, hbody, hs⟩, heven⟩
    exact ⟨d, hd, (tail_any_iff (delimits_of_mem hd) s).mpr
      ⟨body, after, hbody, (cut_delimiter hd _ _).mpr ⟨before, hs, heven⟩⟩⟩

/-! ## Trimming keeps placeholders -/

theorem trim_split (s : String) : ∃ front back, s.toList = front ++ (trim s).toList ++ back ∧
    (∀ c ∈ front, isWhitespace c = true) ∧ ∀ c ∈ back, isWhitespace c = true := by
  refine ⟨s.toList.takeWhile isWhitespace,
    ((trimStart s.toList).reverse.takeWhile isWhitespace).reverse, ?_, ?_, ?_⟩
  · rw [trim, String.toList_ofList, List.append_assoc, ← List.reverse_append, trimStart, trimStart,
      List.takeWhile_append_dropWhile, List.reverse_reverse, List.takeWhile_append_dropWhile]
  · exact fun c hc => List.mem_takeWhile_imp hc
  · exact fun c hc => List.mem_takeWhile_imp (List.mem_reverse.mp hc)

/-- Where a text is what is left of another without the white space around it, a part that starts
    with no white space is in it, behind the same text but for white space. -/
theorem append_of_front {front kept before part : List Char}
    (hfront : ∀ c ∈ front, isWhitespace c = true)
    (hhead : ∀ c ∈ part.head?, isWhitespace c = false) (h : front ++ kept = before ++ part) :
    ∃ middle, before = front ++ middle ∧ kept = middle ++ part := by
  rcases List.append_eq_append_iff.mp h with ⟨middle, hbefore, hkept⟩ | ⟨middle, hfront', hpart'⟩
  · exact ⟨middle, hbefore, hkept⟩
  · cases middle with
    | nil => exact ⟨[], by simpa using hfront'.symm, by simpa using hpart'.symm⟩
    | cons c middle =>
      have hspace := hfront c (by simp [hfront'])
      rw [hhead c (by simp [hpart'])] at hspace
      cases hspace

theorem append_of_back {back kept after part : List Char}
    (hback : ∀ c ∈ back, isWhitespace c = true)
    (hlast : ∀ c ∈ part.getLast?, isWhitespace c = false) (h : kept ++ back = part ++ after) :
    ∃ middle, after = middle ++ back ∧ kept = part ++ middle := by
  have hreverse := congrArg List.reverse h
  rw [List.reverse_append, List.reverse_append] at hreverse
  obtain ⟨middle, hafter, hkept⟩ := append_of_front
    (fun c hc => hback c (List.mem_reverse.mp hc)) (by rwa [List.head?_reverse]) hreverse
  refine ⟨middle.reverse, ?_, ?_⟩
  · rw [← List.reverse_reverse after, hafter, List.reverse_append, List.reverse_reverse]
  · rw [← List.reverse_reverse kept, hkept, List.reverse_append, List.reverse_reverse]

/-- White space before a text changes no run of braces. -/
theorem run_front {front : List Char} (hfront : ∀ c ∈ front, isWhitespace c = true)
    (cs : List Char) : run '{' (front ++ cs) = run '{' cs := by
  induction front with
  | nil => rfl
  | cons c front ih =>
    have hc : c ≠ '{' := by
      rintro rfl
      exact absurd (hfront '{' List.mem_cons_self) (by decide)
    rw [List.cons_append, run_cons_ne hc]
    exact ih fun d hd => hfront d (List.mem_cons_of_mem c hd)

theorem delimiter_ends {d : String × String} (h : d ∈ delimiters) :
    (∀ c ∈ d.1.toList.head?, isWhitespace c = false) ∧
      ∀ c ∈ d.2.toList.getLast?, isWhitespace c = false := by
  simp only [delimiters, List.mem_cons, List.not_mem_nil, or_false] at h
  rcases h with rfl | rfl | rfl
  all_goals simp [isWhitespace]

theorem ClearPlaceholder.trim {s : String} (h : ClearPlaceholder s) :
    ClearPlaceholder (Text.trim s) := by
  obtain ⟨d, hd, before, ⟨body, after, hbody, hs⟩, heven⟩ := h
  obtain ⟨front, back, hsplit, hfront, hback⟩ := trim_split s
  obtain ⟨hopen, hclose, -⟩ := delimits_of_mem hd
  obtain ⟨hfirst, hlast⟩ := delimiter_ends hd
  rw [hsplit, List.append_assoc, List.append_assoc before] at hs
  obtain ⟨before', hbefore', hkept⟩ := append_of_front hfront
    (by rwa [List.head?_append_of_ne_nil _ hopen]) hs
  have hassoc : before' ++ (d.1.toList ++ (body ++ d.2.toList ++ after)) =
      (before' ++ d.1.toList ++ (body ++ d.2.toList)) ++ after := by simp
  rw [hassoc] at hkept
  obtain ⟨after', hafter', hkept'⟩ := append_of_back hback
    (by
      rw [List.getLast?_append_of_ne_nil _ (by simp [hclose]),
        List.getLast?_append_of_ne_nil _ hclose]
      exact hlast) hkept
  refine ⟨d, hd, before', ⟨body, after', hbody, ?_⟩, ?_⟩
  · rw [hkept']
    simp
  · intro hbraces
    rw [← run_front hfront, ← hbefore']
    exact heven hbraces

/-! ## What is not admitted -/

theorem mem_rejectIf {cond : Prop} [Decidable cond] {reason field recovery : String} (h : cond) :
    rejectIf cond reason field recovery ≠ [] := by
  rw [rejectIf, if_pos h]
  exact List.cons_ne_nil _ _

/-- A text with a clear placeholder is a command that is not admissible. -/
theorem ClearPlaceholder.command_not_admitted {value : Value} (h : ClearPlaceholder (textOf value)) :
    (command value).field "admitted" ≠ .bool true := by
  have hfound : unresolved (Text.trim (textOf value)) = true := (unresolved_iff _).mpr h.trim
  unfold command
  by_cases hempty : Text.trim (textOf value) = ""
  · simp [hempty, Value.field, Value.get?]
  · simp [hempty, hfound, Value.field, Value.get?]

theorem admitted_iff {toLowercase : String → String} {receipt : Value} {timestampValid : Bool}
    {assignmentBinding : Option String} :
    (admitReceipt toLowercase receipt timestampValid assignmentBinding).field "admitted" = .bool true ↔
      rejections toLowercase receipt timestampValid assignmentBinding = [] := by
  simp [admitReceipt, Value.field, Value.get?]

/-- The text is the command of the receipt, or one of its changed paths. -/
def Names (receipt : Value) (s : String) : Prop :=
  textOf (receipt.field "command") = s ∨
    ∃ paths, (receipt.field "changed_paths").asArray = some paths ∧ ∃ p ∈ paths, textOf p = s

theorem ClearPlaceholder.not_admitted {s : String} (h : ClearPlaceholder s)
    (toLowercase : String → String) {receipt : Value} (hnames : Names receipt s)
    (timestampValid : Bool) (assignmentBinding : Option String) :
    (admitReceipt toLowercase receipt timestampValid assignmentBinding).field "admitted" ≠ .bool true := by
  rw [Ne, admitted_iff, rejections]
  intro hnil
  simp only [List.append_eq_nil_iff] at hnil
  obtain ⟨⟨⟨⟨⟨-, hcommand⟩, -⟩, -⟩, hpaths⟩, -⟩ := hnil
  rcases hnames with rfl | ⟨paths, harray, p, hp, rfl⟩
  · exact mem_rejectIf h.command_not_admitted hcommand
  · rw [changedPathRejections, harray] at hpaths
    obtain ⟨first, rest, rfl⟩ := List.exists_cons_of_ne_nil (List.ne_nil_of_mem hp)
    refine mem_rejectIf (List.any_eq_true.mpr ⟨p, hp, ?_⟩) hpaths
    exact decide_eq_true (Or.inr ((unresolved_iff _).mpr h.trim))

/-! ## Detection -/

/-- **A text's placeholders are detected, and keep every receipt that names it from admission,
    exactly when one of them is clear if there is any.** -/
theorem detection_iff (toLowercase : String → String) (s : String) :
    ((unresolved s = true ↔ Placeholder s) ∧
      (Placeholder s → ∀ receipt timestampValid assignmentBinding, Names receipt s →
        (admitReceipt toLowercase receipt timestampValid assignmentBinding).field "admitted" ≠
          .bool true)) ↔
      (Placeholder s → ClearPlaceholder s) := by
  rw [unresolved_iff]
  constructor
  · rintro ⟨hexact, -⟩ hplaceholder
    exact hexact.mpr hplaceholder
  · intro hclear
    refine ⟨⟨ClearPlaceholder.placeholder, hclear⟩, ?_⟩
    intro hplaceholder receipt timestampValid assignmentBinding hnames
    exact (hclear hplaceholder).not_admitted toLowercase hnames timestampValid assignmentBinding

/-- A receipt for a command with a placeholder in three braces. -/
def tripleBraceReceipt : Value :=
  .object [
    ("changed_paths", .array [.string "a.txt"]),
    ("command", .string "run \x7b\x7b\x7btarget\x7d\x7d\x7d"),
    ("kind", .string receiptKind),
    ("result", .string "passed")]

/-- The placeholder in three braces is not detected, and the receipt is admitted. -/
theorem tripleBrace_admitted :
    Placeholder "run \x7b\x7b\x7btarget\x7d\x7d\x7d" ∧ unresolved "run \x7b\x7b\x7btarget\x7d\x7d\x7d" = false ∧
      (admitReceipt id tripleBraceReceipt true none).field "admitted" = .bool true := by
  refine ⟨⟨("\x7b\x7b", "\x7d\x7d"), by simp [delimiters], "run \x7b".toList, "target".toList, "\x7d".toList,
    ⟨by simp, by simp⟩, by decide⟩, by decide, by decide⟩

end ProofReceipt

end AgenticCore
