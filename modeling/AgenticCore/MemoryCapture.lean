import AgenticCore.DecisionDocument
import AgenticCore.JsonPath

/-!
# The document that publishes an answered decision (`native_memory_capture.rs`)

* `materialBytes`       : the document of a material under its binding.
* `prose_document`      : the document as prose and record, once its line ends are read.
* `published_decision`  : **a published document reads back as the decision that was answered, and
                          only prose that opens a record stands in its way.**
-/

set_option autoImplicit false

namespace AgenticCore.MemoryCapture

open Json Text FirstMatch
open InstructionSource (lineFeeds)
open DecisionSource (OPENING FENCE marker document typedRecord record Rail)
open Continuity (Record Reference Actor Supersedes normalize normalized listOf)
open Repository (check_pos)

inductive Destination where
  | memory
  | advisory
  | repository
  deriving DecidableEq, Repr

def Destination.recordOwner : Destination → String
  | .memory | .advisory => "memory"
  | .repository => "repository"

def Destination.fromBinding (binding : Value) : Result Destination :=
  match (binding.field "durable_owner").asStr with
  | none | some "memory" => .ok .memory
  | some "repository" => .ok .repository
  | some "advisory" => .ok .advisory
  | _ => fail "unknown durable decision owner"

/-- What `unwrap` stops with. -/
def UNWRAP : String := "called unwrap on a none value"

def prettyText (v : Value) : String := String.ofList (pretty escape 0 v)

/-! ## The parts of the document -/

def historicalHuman (binding : Value) : Bool :=
  (binding.field "semantics").asStr ∈
    [some "memory-bounded-human-decision-v1", some "repository-bounded-human-decision-v1"]

def agent (binding : Value) : Bool := (binding.get? "decision_authority").isSome

def provenance (agent human : Bool) : String :=
  if agent then "Deciding provenance is an exact current repository-policy delegation for this owner-computed material subject. The acting agent is not identified or authenticated. Publication alone does not admit this consequence."
  else if human then "Deciding provenance is an exact bounded human answer, not cryptographically authenticated identity. Publication alone does not admit this consequence."
  else "Deciding provenance is an exact bounded domain answer under the current task and owner contract. The acting agent is not authenticated. Publication alone does not admit this consequence."

def repositoryProvenance (agent human : Bool) : String :=
  if agent || !human then provenance agent human
  else "The deciding basis is the exact bounded human answer to the owner-issued proposal, not authenticated human identity. Publication is separate from deciding authority."

def FALLBACK_HEADING : String :=
  "# Fallback decision\n\nMaterial supplied through an AW owner request. "

def ALTERNATIVES_HEADING : String := "\n\nRejected alternatives / trade-offs:\n"

def DECISION_HEADING : String := "# Repository decision\n\n## Decision\n\n"

def CONSEQUENCE_HEADING : String := "\n\n## Consequence\n\n"

def RATIONALE_HEADING : String := "\n\n## Rationale and alternatives\n\n"

def PROVENANCE_HEADING : String := "\n\n## Provenance\n\nMaterial authorship is unattributed. "

def BLANK_LINE : String := "\n\n"

def RECORD_OPENING : String := "\n\n```aw-decision\n"

def RECORD_CLOSING : String := "\n```\n"

/-- What precedes the free text of a fallback decision. -/
def memoryHead (agent human : Bool) : String :=
  FALLBACK_HEADING ++ provenance agent human ++ BLANK_LINE

def memoryProse (agent human : Bool) (rationale : String) (alternatives : Value) : String :=
  memoryHead agent human ++ rationale ++ ALTERNATIVES_HEADING ++ text alternatives

def repositoryProse (agent human : Bool) (decision consequence rationale : String)
    (alternatives : Value) : String :=
  DECISION_HEADING ++ decision ++ CONSEQUENCE_HEADING ++ consequence ++ RATIONALE_HEADING ++
    rationale ++ BLANK_LINE ++ text alternatives ++ PROVENANCE_HEADING ++
    repositoryProvenance agent human

def documentText (prose : String) (body : Value) : String :=
  prose ++ RECORD_OPENING ++ prettyText body ++ RECORD_CLOSING

variable (digest : Value → String)

/-- The deciding basis of a material under its binding. -/
def basis (material binding : Value) : String :=
  digest (.array [binding.field "semantics", material, binding])

def basisReference (material binding : Value) : Reference where
  owner :=
    if agent binding then "policy-delegated-decision"
    else if historicalHuman binding then "bounded-human-answer"
    else "bounded-domain-answer"
  reference := basis digest material binding
  revision := basis digest material binding

def decider (material binding : Value) : Actor where
  kind := if historicalHuman binding && !agent binding then .human else .agent
  id :=
    if agent binding then "policy-delegation:" ++ basis digest material binding
    else "bounded-answer:" ++ basis digest material binding

def author (material : Value) : Actor := ⟨.unattributed, "request-material:" ++ digest material⟩

def dependencyValue (dependency : String × Value) : Value :=
  .object [("owner", .string "repository"), ("reference", .string dependency.1),
    ("revision", dependency.2)]

/-- The machine record of the document. -/
def recordValue (material binding : Value) (dependencies : List (String × Value)) : Value :=
  .object [("authority", .object [("actor", (decider digest material binding).toValue),
      ("basis", .array [(basisReference digest material binding).toValue])]),
    ("authors", .array [(author digest material).toValue]),
    ("consequence", material.field "consequence"), ("context", .array []),
    ("contributors", .array []), ("decision", material.field "decision"),
    ("dependencies", .array (dependencies.map dependencyValue)), ("id", material.field "id"),
    ("scope", binding.field "scope"), ("supersedes", material.field "supersedes")]

def proseOf (destination : Destination) (material binding : Value) : Result String := do
  let rationale ← okOr (material.field "rationale").asStr UNWRAP
  let alternatives := material.field "alternatives"
  match destination with
  | .repository => do
    let decision ← okOr (material.field "decision").asStr UNWRAP
    let consequence ← okOr (material.field "consequence").asStr UNWRAP
    pure (repositoryProse (agent binding) (historicalHuman binding) decision consequence rationale
      alternatives)
  | _ => pure (memoryProse (agent binding) (historicalHuman binding) rationale alternatives)

/-- The evidence a note of advisory knowledge is said to come from. -/
def originText (material : Value) : String :=
  match (material.get? "origins").or (material.get? "origin") with
  | none => ""
  | some origin => "\n\nEvidence origin (caller-asserted, not authenticated): `" ++ text origin ++
      "`. Historical source identity does not establish current runtime availability.\n"

def advisoryBytes (material : Value) : Result ByteArray := do
  let lesson ← okOr (material.field "lesson").asStr "advisory lesson missing"
  let rationale ← okOr (material.field "rationale").asStr UNWRAP
  check (¬OPENING <:+: lesson.toList ∧ ¬OPENING <:+: rationale.toList)
    "advisory capture cannot introduce a decision record"
  pure ("# Advisory knowledge\n\n" ++ lesson ++ "\n\n## Future value\n\n" ++ rationale ++
    originText material ++ "\n\nMaterial authorship is unattributed. Retention was admitted through the current owner request; this note grants no decision, policy, proof or completion authority.\n").toByteArray

def BOUND : Nat := 262144

/-- The text of a material's document. -/
def documentOf (destination : Destination) (material binding : Value) : Result String := do
  let dependencies ← okOr (binding.field "dependencies").asObject UNWRAP
  let prose ← proseOf destination material binding
  pure (documentText prose (recordValue digest material binding dependencies))

/-- `material_bytes`. The document is read back before it is returned. -/
def materialBytes (hash : ByteArray → String) (material binding : Value) : Result ByteArray := do
  let destination ← Destination.fromBinding binding
  if destination = .advisory then advisoryBytes material
  else do
    let text ← documentOf digest destination material binding
    check (text.utf8ByteSize ≤ BOUND) "Decision exceeds bounded source size"
    let source ← okOr (binding.field "source").asStr UNWRAP
    let _ ← record digest hash text.toByteArray source destination.recordOwner
    pure text.toByteArray

/-! ## The document as it is read -/

/-- A line of the text ends as the opening of a record does. -/
def OpensFence (text : String) : Prop := marker <:+: lineFeeds (text.toList ++ ['\n'])

/-- The caller's texts that stand in the document as they are. -/
def freeTexts (destination : Destination) (material : Value) : List String :=
  (match destination with
  | .repository => ["decision", "consequence", "rationale"]
  | _ => ["rationale"]).filterMap fun key => (material.field key).asStr

theorem lineFeeds_keep {p : List Char} (hp : '\r' ∉ p) (q : List Char) :
    lineFeeds (p ++ q) = p ++ lineFeeds q := by
  induction p with
  | nil => rfl
  | cons c p ih =>
    rw [List.mem_cons, not_or] at hp
    rw [List.cons_append, InstructionSource.lineFeeds_cons fun hc => absurd hc.symm hp.1, ih hp.2,
      List.cons_append]

/-- A free text up to its line feed, and the fixed text behind it. -/
theorem lineFeeds_free {p : List Char} (hp : '\r' ∉ p) (t q : List Char) :
    lineFeeds (p ++ (t ++ '\n' :: q)) = p ++ (lineFeeds (t ++ ['\n']) ++ lineFeeds q) := by
  rw [lineFeeds_keep hp, InstructionSource.lineFeeds_append]

theorem alternatives_unmarked (v : Value) : ¬marker <:+: print escape v ++ ['\n'] := by
  intro h
  have hfeed := print_not_mem (unprinted_escape (by decide : '\n'.toNat < 0x20)) v
  obtain ⟨a, ha⟩ := suffix_of_infix_line hfeed h
  obtain ⟨c, hlast, hc⟩ := print_getLast? escape v
  rw [← ha, List.getLast?_append_of_ne_nil _ (by decide)] at hlast
  obtain rfl : 'n' = c := Option.some.inj hlast
  exact absurd hc (by decide)

theorem line_ends (p : List Char) : (p ++ ['\n']).getLast? = some '\n' := by
  rw [List.getLast?_append_of_ne_nil _ (by simp)]
  rfl

/-- A marker stands in one of two texts, the first of which ends a line. -/
theorem marker_append {p q : List Char} (hp : p.getLast? = some '\n') :
    marker <:+: p ++ q ↔ marker <:+: p ∨ marker <:+: q :=
  infix_append_iff DecisionSource.opening_line hp

/-- A text in one line that ends in a full stop. -/
def Sentence (cs : List Char) : Prop := '\n' ∉ cs ∧ '\r' ∉ cs ∧ cs.getLast? = some '.'

instance (cs : List Char) : Decidable (Sentence cs) := inferInstanceAs (Decidable (_ ∧ _ ∧ _))

-- A literal is turned into its characters by `String.toList_ofList`; deciding anything about
-- `String.toList` itself would decode its bytes.
set_option maxRecDepth 4000 in
theorem provenance_sentence (agent human : Bool) : Sentence (provenance agent human).toList := by
  cases agent with
  | true =>
    have h : (provenance true human).toList = _ := String.toList_ofList
    rw [h]
    decide
  | false =>
    cases human with
    | true =>
      have h : (provenance false true).toList = _ := String.toList_ofList
      rw [h]
      decide
    | false =>
      have h : (provenance false false).toList = _ := String.toList_ofList
      rw [h]
      decide

set_option maxRecDepth 4000 in
theorem repositoryProvenance_sentence (agent human : Bool) :
    Sentence (repositoryProvenance agent human).toList := by
  rw [repositoryProvenance]
  split
  · exact provenance_sentence agent human
  · have h : "The deciding basis is the exact bounded human answer to the owner-issued proposal, not authenticated human identity. Publication is separate from deciding authority.".toList = _ :=
      String.toList_ofList
    rw [h]
    decide

/-- A sentence closes no marker. -/
theorem sentence_unmarked {lead s : List Char} (hlead : '\n' ∉ lead) (hs : Sentence s) :
    ¬marker <:+: lead ++ s ++ ['\n'] := by
  intro h
  have hline : '\n' ∉ lead ++ s := by
    rw [List.mem_append, not_or]
    exact ⟨hlead, hs.1⟩
  obtain ⟨a, ha⟩ := suffix_of_infix_line hline h
  have hlast : (lead ++ s).getLast? = some '.' := by
    rw [List.getLast?_append, hs.2.2, Option.some_or]
  rw [← ha, List.getLast?_append_of_ne_nil _ (by decide)] at hlast
  exact absurd hlast (by decide)

/-- The heading of the alternatives, but for its first character. -/
def ALTERNATIVES : List Char := "ejected alternatives / trade-offs:\n".toList

def PROVENANCE : List Char := "# Provenance\n\n".toList

def AUTHORSHIP : List Char := "Material authorship is unattributed. ".toList

def memoryRail (alternatives : Value) : List Char :=
  '\n' :: 'R' :: (ALTERNATIVES ++ (print escape alternatives ++ ['\n']) ++ ['\n'])

theorem memoryRail_rail (alternatives : Value) : Rail (memoryRail alternatives) where
  starts := ⟨'R', _, rfl, by decide⟩
  unmarked := by
    have hletters : ALTERNATIVES = _ := String.toList_ofList
    have hheading : ('\n' :: 'R' :: ALTERNATIVES).getLast? = some '\n' := by
      rw [hletters]
      decide
    have hunmarked : ¬marker <:+: '\n' :: 'R' :: ALTERNATIVES := by
      rw [hletters]
      decide
    have hrail : memoryRail alternatives =
        ('\n' :: 'R' :: ALTERNATIVES) ++ ((print escape alternatives ++ ['\n']) ++ ['\n']) := by
      rw [memoryRail, List.append_assoc]
      rfl
    rw [hrail, marker_append hheading, marker_append (line_ends _)]
    rintro (h | h | h)
    · exact hunmarked h
    · exact alternatives_unmarked alternatives h
    · exact absurd h (by decide)

def repositoryRail (agent human : Bool) : List Char :=
  '\n' :: '#' :: (PROVENANCE ++ (AUTHORSHIP ++ (repositoryProvenance agent human).toList ++ ['\n']) ++
    ['\n'])

theorem repositoryRail_rail (agent human : Bool) : Rail (repositoryRail agent human) where
  starts := ⟨'#', _, rfl, by decide⟩
  unmarked := by
    have hletters : PROVENANCE = _ := String.toList_ofList
    have hauthorship : AUTHORSHIP = _ := String.toList_ofList
    have hheading : ('\n' :: '#' :: PROVENANCE).getLast? = some '\n' := by
      rw [hletters]
      decide
    have hunmarked : ¬marker <:+: '\n' :: '#' :: PROVENANCE := by
      rw [hletters]
      decide
    have hlead : '\n' ∉ AUTHORSHIP := by
      rw [hauthorship]
      decide
    have hrail : repositoryRail agent human = ('\n' :: '#' :: PROVENANCE) ++
        ((AUTHORSHIP ++ (repositoryProvenance agent human).toList ++ ['\n']) ++ ['\n']) := by
      rw [repositoryRail, List.append_assoc PROVENANCE]
      rfl
    rw [hrail, marker_append hheading, marker_append (line_ends _)]
    rintro (h | h | h)
    · exact hunmarked h
    · exact sentence_unmarked hlead (repositoryProvenance_sentence agent human) h
    · exact absurd h (by decide)

/-! ## The prose and the record -/

/-- The document from its marker on. -/
def recordLines (body : Value) : List Char :=
  marker ++ (pretty escape 0 body ++ ('\n' :: FENCE ++ ['\n']))

theorem documentText_toList (prose : String) (body : Value) :
    (documentText prose body).toList = prose.toList ++ '\n' :: '\n' :: recordLines body := by
  have hopening : RECORD_OPENING.toList = '\n' :: '\n' :: marker := by
    have hletters : "aw-decision".toList = _ := String.toList_ofList
    rw [marker, OPENING, hletters]
    exact String.toList_ofList
  have hclosing : RECORD_CLOSING.toList = '\n' :: FENCE ++ ['\n'] := String.toList_ofList
  rw [documentText, String.toList_append, String.toList_append, String.toList_append, hopening,
    hclosing, prettyText, String.toList_ofList, recordLines]
  simp only [List.append_assoc, List.cons_append]

theorem return_unprinted : Unprinted escape '\r' := unprinted_escape (by decide)

theorem recordLines_return (body : Value) : '\r' ∉ recordLines body := by
  have hpretty := pretty_not_mem return_unprinted (by decide) (by decide) 0 body
  have hmarker : '\r' ∉ marker := by decide
  have hclose : '\r' ∉ '\n' :: FENCE ++ ['\n'] := by decide
  simp only [recordLines, List.mem_append, not_or]
  exact ⟨hmarker, hpretty, by simpa only [List.mem_append, not_or] using hclose⟩

/-- A fixed heading ends its line, and has neither a marker nor a return. -/
structure Heading (h : List Char) : Prop where
  line : h.getLast? = some '\n'
  unmarked : ¬marker <:+: h
  unreturned : '\r' ∉ h

def FALLBACK : List Char := "# Fallback decision\n\n".toList

def REQUEST : List Char := "Material supplied through an AW owner request. ".toList

set_option maxRecDepth 4000 in
theorem memoryHead_toList (agent human : Bool) : (memoryHead agent human).toList =
    FALLBACK ++ ((REQUEST ++ (provenance agent human).toList ++ ['\n']) ++ ['\n']) := by
  have hhead : FALLBACK_HEADING.toList = _ := String.toList_ofList
  have hfallback : FALLBACK = _ := String.toList_ofList
  have hrequest : REQUEST = _ := String.toList_ofList
  have hblank : BLANK_LINE.toList = _ := String.toList_ofList
  simp only [memoryHead, String.toList_append, hhead, hblank, hfallback, hrequest,
    List.append_assoc, List.cons_append, List.nil_append]

/-- What precedes the free text ends its line, and has neither a marker nor a return. -/
theorem memoryHead_heading (agent human : Bool) : Heading (memoryHead agent human).toList := by
  have hfallback : FALLBACK = _ := String.toList_ofList
  have hrequest : REQUEST = _ := String.toList_ofList
  have hline : FALLBACK.getLast? = some '\n' := by
    rw [hfallback]
    decide
  have hunmarked : ¬marker <:+: FALLBACK := by
    rw [hfallback]
    decide
  have hreturn : '\r' ∉ FALLBACK ∧ '\r' ∉ REQUEST ∧ '\n' ∉ REQUEST := by
    rw [hfallback, hrequest]
    decide
  have hsentence := provenance_sentence agent human
  rw [memoryHead_toList]
  refine ⟨?_, ?_, ?_⟩
  · rw [List.getLast?_append_of_ne_nil _ (by simp), line_ends]
  · rw [marker_append hline, marker_append (line_ends _)]
    rintro (h | h | h)
    · exact hunmarked h
    · exact sentence_unmarked hreturn.2.2 hsentence h
    · exact absurd h (by decide)
  · simp only [List.mem_append, not_or]
    exact ⟨hreturn.1, ⟨⟨hreturn.2.1, hsentence.2.1⟩, by decide⟩, by decide⟩

/-- A heading with the lines of a free text. -/
def freeLines (heading : List Char) (text : String) : List Char :=
  heading ++ lineFeeds (text.toList ++ ['\n'])

theorem freeLines_getLast? (heading : List Char) (text : String) :
    (freeLines heading text).getLast? = some '\n' := by
  have hline := InstructionSource.lineFeeds_getLast? text.toList
  rw [freeLines, List.getLast?_append_of_ne_nil, hline]
  intro hnil
  rw [hnil] at hline
  cases hline

theorem freeLines_marked {heading : List Char} (h : Heading heading) (text : String) :
    marker <:+: freeLines heading text ↔ OpensFence text := by
  rw [freeLines, marker_append h.line]
  exact ⟨fun hmarked => hmarked.resolve_left h.unmarked, Or.inr⟩

/-- A prose is read as the lines with the caller's texts, and the rail in front of the record. -/
structure Framed (prose : String) (texts : List String) (lines rail : List Char) : Prop where
  document : ∀ body, lineFeeds (documentText prose body).toList =
    document (lines ++ rail) (pretty escape 0 body)
  line : lines.getLast? = some '\n'
  rail : Rail rail
  marked : marker <:+: lines ↔ ∃ text ∈ texts, OpensFence text

theorem memoryProse_framed (agent human : Bool) (rationale : String) (alternatives : Value) :
    Framed (memoryProse agent human rationale alternatives) [rationale]
      (freeLines (memoryHead agent human).toList rationale) (memoryRail alternatives) := by
  have hhead := memoryHead_heading agent human
  refine ⟨fun body => ?_, freeLines_getLast? _ _, memoryRail_rail alternatives, ?_⟩
  · have hletters : ALTERNATIVES = _ := String.toList_ofList
    have hheading : ALTERNATIVES_HEADING.toList =
        '\n' :: '\n' :: 'R' :: ALTERNATIVES := by
      rw [hletters]
      exact String.toList_ofList
    have htext : (documentText (memoryProse agent human rationale alternatives) body).toList =
        (memoryHead agent human).toList ++ (rationale.toList ++
          '\n' :: (memoryRail alternatives ++ recordLines body)) := by
      simp only [documentText_toList, memoryProse, String.toList_append, hheading, Json.text,
        String.toList_ofList, memoryRail, List.append_assoc, List.cons_append, List.nil_append]
    have hreturn : '\r' ∉ memoryRail alternatives ++ recordLines body := by
      have hheading : '\r' ∉ ALTERNATIVES := by
        rw [hletters]
        decide
      have halternatives := print_not_mem return_unprinted alternatives
      have hlines := recordLines_return body
      simp only [memoryRail, List.mem_append, List.mem_cons, List.not_mem_nil, or_false, not_or]
      exact ⟨⟨by decide, by decide, ⟨hheading, halternatives, by decide⟩, by decide⟩, hlines⟩
    rw [htext, lineFeeds_free hhead.unreturned, InstructionSource.lineFeeds_of_not_mem hreturn,
      DecisionSource.document, recordLines]
    simp only [freeLines, List.append_assoc]
  · rw [freeLines_marked hhead]
    simp only [List.mem_singleton, exists_eq_left]

def DECISION : List Char := DECISION_HEADING.toList

def CONSEQUENCE : List Char := "\n## Consequence\n\n".toList

def RATIONALE : List Char := "\n## Rationale and alternatives\n\n".toList

theorem decision_heading : Heading DECISION := by
  have h : DECISION = _ := String.toList_ofList
  rw [h]
  exact ⟨by decide, by decide, by decide⟩

theorem consequence_heading : Heading CONSEQUENCE := by
  have h : CONSEQUENCE = _ := String.toList_ofList
  rw [h]
  exact ⟨by decide, by decide, by decide⟩

theorem rationale_heading : Heading RATIONALE := by
  have h : RATIONALE = _ := String.toList_ofList
  rw [h]
  exact ⟨by decide, by decide, by decide⟩

def alternativeLines (alternatives : Value) : List Char := '\n' :: (print escape alternatives ++ ['\n'])

theorem alternativeLines_unmarked (alternatives : Value) : ¬marker <:+: alternativeLines alternatives := by
  have hline : ['\n'].getLast? = some '\n' := rfl
  intro h
  rcases (marker_append (q := print escape alternatives ++ ['\n']) hline).mp h with h | h
  · exact absurd h (by decide)
  · exact alternatives_unmarked alternatives h

theorem repositoryProse_framed (agent human : Bool) (decision consequence rationale : String)
    (alternatives : Value) :
    Framed (repositoryProse agent human decision consequence rationale alternatives)
      [decision, consequence, rationale]
      (freeLines DECISION decision ++ (freeLines CONSEQUENCE consequence ++
        (freeLines RATIONALE rationale ++ alternativeLines alternatives)))
      (repositoryRail agent human) := by
  have hends : (alternativeLines alternatives).getLast? = some '\n' := by
    rw [alternativeLines, ← List.cons_append]
    exact line_ends _
  refine ⟨fun body => ?_, ?_, repositoryRail_rail agent human, ?_⟩
  · have hconsequence : CONSEQUENCE_HEADING.toList = '\n' :: CONSEQUENCE := by
      have h : CONSEQUENCE = _ := String.toList_ofList
      rw [h]
      exact String.toList_ofList
    have hrationale : RATIONALE_HEADING.toList = '\n' :: RATIONALE := by
      have h : RATIONALE = _ := String.toList_ofList
      rw [h]
      exact String.toList_ofList
    have hblank : BLANK_LINE.toList = ['\n', '\n'] := String.toList_ofList
    have hletters : PROVENANCE = _ := String.toList_ofList
    have hauthorship : AUTHORSHIP = _ := String.toList_ofList
    have hprovenance : PROVENANCE_HEADING.toList =
        '\n' :: '\n' :: '#' :: (PROVENANCE ++ AUTHORSHIP) := by
      rw [hletters, hauthorship]
      exact String.toList_ofList
    have htext : (documentText (repositoryProse agent human decision consequence rationale
        alternatives) body).toList = DECISION ++ (decision.toList ++ '\n' :: (CONSEQUENCE ++
          (consequence.toList ++ '\n' :: (RATIONALE ++ (rationale.toList ++ '\n' ::
            (alternativeLines alternatives ++ (repositoryRail agent human ++ recordLines body))))))) := by
      simp only [documentText_toList, repositoryProse, String.toList_append, hconsequence, hrationale,
        hblank, hprovenance, Json.text, String.toList_ofList, repositoryRail, alternativeLines,
        DECISION, List.append_assoc, List.cons_append, List.nil_append]
    have hreturn : '\r' ∉ alternativeLines alternatives ++ (repositoryRail agent human ++
        recordLines body) := by
      have hheading : '\r' ∉ PROVENANCE ∧ '\r' ∉ AUTHORSHIP := by
        rw [hletters, hauthorship]
        decide
      have halternatives := print_not_mem return_unprinted alternatives
      have hprovenance := (repositoryProvenance_sentence agent human).2.1
      have hlines := recordLines_return body
      simp only [alternativeLines, repositoryRail, List.mem_append, List.mem_cons,
        List.not_mem_nil, or_false, not_or]
      exact ⟨⟨by decide, halternatives, by decide⟩, ⟨by decide, by decide,
        ⟨hheading.1, ⟨hheading.2, hprovenance⟩, by decide⟩, by decide⟩, hlines⟩
    rw [htext, lineFeeds_free decision_heading.unreturned, lineFeeds_free
      consequence_heading.unreturned, lineFeeds_free rationale_heading.unreturned,
      InstructionSource.lineFeeds_of_not_mem hreturn, DecisionSource.document, recordLines]
    simp only [freeLines, List.append_assoc]
  · rw [List.getLast?_append_of_ne_nil, List.getLast?_append_of_ne_nil,
      List.getLast?_append_of_ne_nil, hends]
    all_goals simp [alternativeLines]
  · rw [marker_append (freeLines_getLast? _ _), marker_append (freeLines_getLast? _ _),
      marker_append (freeLines_getLast? _ _), freeLines_marked decision_heading,
      freeLines_marked consequence_heading, freeLines_marked rationale_heading]
    have halternatives := alternativeLines_unmarked alternatives
    simp only [List.mem_cons, List.not_mem_nil, or_false, exists_eq_or_imp, exists_eq_left]
    tauto

/-! ## Reading a published document -/

/-- The record of a document under the source it is read from. -/
def sourced (hash : ByteArray → String) (body : Value) (bytes : ByteArray) (path owner : String) :
    Value :=
  (body.insert "source" (Reference.toValue ⟨owner, path, hash bytes⟩)).insert "rationale_reference"
    (.string path)

variable {digest} {hash : ByteArray → String}

theorem fromUTF8_toByteArray (s : String) : String.fromUTF8? s.toByteArray = some s := by
  have hvalid : s.toByteArray.IsValidUTF8 := String.isValidUTF8 s
  rw [String.fromUTF8?, dif_pos hvalid]
  rfl

/-- Prose that opens no record leaves the document's own record to be read. -/
theorem record_framed {prose : String} {texts : List String} {lines rail : List Char}
    (F : Framed prose texts lines rail) {body : Value} (path owner : String)
    (hsource : body.get? "source" = none) (hrationale : body.get? "rationale_reference" = none)
    (hopen : ¬∃ text ∈ texts, OpensFence text) :
    record digest hash (documentText prose body).toByteArray path owner =
      normalize digest (sourced hash body (documentText prose body).toByteArray path owner) := by
  have hlines : (lines ++ rail).getLast? = some '\n' := by
    obtain ⟨c, t, rfl, -⟩ := F.rail.starts
    rw [List.getLast?_append_of_ne_nil _ (by simp), ← List.cons_append, ← List.cons_append,
      line_ends]
  have hunmarked : ¬marker <:+: lines ++ rail := by
    rw [marker_append F.line, F.marked]
    rintro (h | h)
    · exact hopen h
    · exact F.rail.unmarked h
  have hbody := DecisionSource.unfenced_of_parse (parse_pretty escape_escapes body)
  have htyped := DecisionSource.typedRecord_behind hlines hunmarked hbody
  simp only [record, fromUTF8_toByteArray, okOr, F.document, htyped, parse_pretty escape_escapes,
    bind, Except.bind, check_pos (And.intro hsource hrationale)]
  rfl

/-- Prose that opens a record makes the document unreadable. -/
theorem record_opened {prose : String} {texts : List String} {lines rail : List Char}
    (F : Framed prose texts lines rail) {body v : Value} {path owner : String}
    (hopen : ∃ text ∈ texts, OpensFence text) :
    record digest hash (documentText prose body).toByteArray path owner ≠ .ok v := by
  intro h
  simp only [record, Except.bind_eq_ok_iff, okOr_eq_ok] at h
  obtain ⟨text, htext, read, hread, value, hvalue, -⟩ := h
  rw [fromUTF8_toByteArray] at htext
  obtain rfl := Option.some.inj htext
  rw [F.document] at hread
  rw [DecisionSource.typedRecord_forged F.line F.rail (F.marked.mpr hopen) hread] at hvalue
  cases hvalue

/-! ## Publication -/

/-- What the owner's requests promise of a material and its binding. -/
structure Capturable (destination : Destination) (material binding : Value) (source : String) :
    Prop where
  owned : Destination.fromBinding binding = .ok destination
  decides : destination ≠ .advisory
  texts : ∀ key ∈ ["decision", "consequence", "rationale"], ∃ t, material.field key = .string t
  dependencies : ∃ members, binding.field "dependencies" = .object members
  published : binding.field "source" = .string source

def dependenciesOf (binding : Value) : List (String × Value) :=
  (binding.field "dependencies").asObject.getD []

/-- The record that a material under its binding is about. -/
structure Decides (digest : Value → String) (hash : ByteArray → String) (destination : Destination)
    (material binding : Value) (source : String) (bytes : ByteArray) (r : Record) : Prop where
  id : material.field "id" = .string r.id
  decision : material.field "decision" = .string r.decision
  consequence : material.field "consequence" = .string r.consequence
  authors : r.authors = [author digest material]
  contributors : r.contributors = []
  authority : r.authority = ⟨decider digest material binding, [basisReference digest material binding]⟩
  scope : stringItems (binding.field "scope") = some r.scope
  dependencies : dependenciesOf binding =
      r.dependencies.map (fun d => (d.reference, Value.string d.revision)) ∧
    ∀ d ∈ r.dependencies, d.owner = "repository"
  context : r.context = []
  supersedes : listOf Supersedes.ofValue (material.field "supersedes") = some r.supersedes
  rationale : r.rationaleReference = source
  admitted : r.source = ⟨destination.recordOwner, source, hash bytes⟩

theorem asStr_bind {o : Option Value} {t : String} (h : o.bind Value.asStr = some t) :
    o = some (.string t) := by
  obtain ⟨v, rfl, hv⟩ := Option.bind_eq_some_iff.mp h
  cases v with
  | string s =>
    obtain rfl := Option.some.inj hv
    rfl
  | null | bool | number | array | object => cases hv

theorem structFields_get? {members : List (String × Value)} {fields : List String}
    {field : String → Option Value} (h : (Value.object members).structFields fields = some field)
    (name : String) : field name = (Value.object members).get? name := by
  rw [Value.structFields] at h
  split at h
  · obtain rfl := Option.some.inj h
    rfl
  · cases h

theorem dependency_read {dependency : String × Value} {d : Reference}
    (h : Reference.ofValue (dependencyValue dependency) = some d) :
    dependency = (d.reference, .string d.revision) ∧ d.owner = "repository" := by
  simp only [Continuity.Reference.ofValue, Option.bind_eq_bind, Option.bind_eq_some_iff,
    Option.pure_def, Option.some.injEq] at h
  obtain ⟨field, hfield, owner, howner, reference, hreference, revision, hrevision, rfl⟩ := h
  simp only [← Option.bind_eq_some_iff] at howner hreference hrevision
  have hget := structFields_get? hfield
  rw [hget] at howner hreference hrevision
  have howner := Value.string.inj (Option.some.inj (asStr_bind howner))
  have hreference := Value.string.inj (Option.some.inj (asStr_bind hreference))
  have hrevision : dependency.2 = .string revision := Option.some.inj (asStr_bind hrevision)
  exact ⟨Prod.ext hreference hrevision, howner.symm⟩

theorem dependencies_read {dependencies : List (String × Value)} {refs : List Reference}
    (h : (dependencies.map dependencyValue).mapM Reference.ofValue = some refs) :
    dependencies = refs.map (fun d => (d.reference, Value.string d.revision)) ∧
      ∀ d ∈ refs, d.owner = "repository" := by
  induction dependencies generalizing refs with
  | nil =>
    cases h
    exact ⟨rfl, by simp⟩
  | cons dependency dependencies ih =>
    rw [List.map_cons, List.mapM_cons] at h
    simp only [Option.bind_eq_bind, Option.bind_eq_some_iff, Option.pure_def, Option.some.injEq] at h
    obtain ⟨d, hd, rest, hrest, rfl⟩ := h
    obtain ⟨hdependency, howner⟩ := dependency_read hd
    obtain ⟨hdependencies, howners⟩ := ih hrest
    exact ⟨by rw [List.map_cons, ← hdependency, ← hdependencies],
      List.forall_mem_cons.mpr ⟨howner, howners⟩⟩

/-- The members of a record under its source. -/
theorem sourced_get? {material binding : Value} {dependencies : List (String × Value)}
    {bytes : ByteArray} {path owner key : String} (hsource : key ≠ "source")
    (hrationale : key ≠ "rationale_reference") :
    (sourced hash (recordValue digest material binding dependencies) bytes path owner).get? key =
      (recordValue digest material binding dependencies).get? key := by
  rw [sourced, Value.get?_insert_of_ne hrationale, Value.get?_insert_of_ne hsource]

theorem sourced_source (members : List (String × Value)) (bytes : ByteArray) (path owner : String) :
    (sourced hash (.object members) bytes path owner).get? "source" =
      some (Reference.toValue ⟨owner, path, hash bytes⟩) := by
  rw [sourced, Value.get?_insert_of_ne (by decide)]
  exact insertMember_lookup_self _ _ _

theorem sourced_rationale (members : List (String × Value)) (bytes : ByteArray)
    (path owner : String) : (sourced hash (.object members) bytes path owner).get?
      "rationale_reference" = some (.string path) := insertMember_lookup_self _ _ _

/-- The fields that a record is read from. -/
theorem record_read {v : Value} {r : Record} (h : Record.ofValue v = some r) :
    ∃ field, v.structFields Continuity.RECORD_FIELDS = some field ∧
      (field "id").bind Value.asStr = some r.id ∧
      (field "source").bind Reference.ofValue = some r.source ∧
      (field "decision").bind Value.asStr = some r.decision ∧
      (field "consequence").bind Value.asStr = some r.consequence ∧
      (field "rationale_reference").bind Value.asStr = some r.rationaleReference ∧
      (field "authors").bind (listOf Actor.ofValue) = some r.authors ∧
      Continuity.listOrEmpty Actor.ofValue (field "contributors") = some r.contributors ∧
      (field "authority").bind Continuity.Authority.ofValue = some r.authority ∧
      (field "scope").bind stringItems = some r.scope ∧
      Continuity.listOrEmpty Reference.ofValue (field "dependencies") = some r.dependencies ∧
      Continuity.listOrEmpty Reference.ofValue (field "context") = some r.context ∧
      Continuity.listOrEmpty Supersedes.ofValue (field "supersedes") = some r.supersedes := by
  obtain ⟨field, hfield, h⟩ := Option.bind_eq_some_iff.mp h
  obtain ⟨_, -, h⟩ := Option.bind_eq_some_iff.mp h
  obtain ⟨_, hid, h⟩ := Option.bind_eq_some_iff.mp h
  obtain ⟨_, hsource, h⟩ := Option.bind_eq_some_iff.mp h
  obtain ⟨_, hdecision, h⟩ := Option.bind_eq_some_iff.mp h
  obtain ⟨_, hconsequence, h⟩ := Option.bind_eq_some_iff.mp h
  obtain ⟨_, hrationale, h⟩ := Option.bind_eq_some_iff.mp h
  obtain ⟨_, hauthors, h⟩ := Option.bind_eq_some_iff.mp h
  obtain ⟨_, hcontributors, h⟩ := Option.bind_eq_some_iff.mp h
  obtain ⟨_, hauthority, h⟩ := Option.bind_eq_some_iff.mp h
  obtain ⟨_, hscope, h⟩ := Option.bind_eq_some_iff.mp h
  obtain ⟨_, -, h⟩ := Option.bind_eq_some_iff.mp h
  obtain ⟨_, hdependencies, h⟩ := Option.bind_eq_some_iff.mp h
  obtain ⟨_, hcontext, h⟩ := Option.bind_eq_some_iff.mp h
  obtain ⟨_, hsupersedes, h⟩ := Option.bind_eq_some_iff.mp h
  obtain ⟨_, -, h⟩ := Option.bind_eq_some_iff.mp h
  obtain rfl := Option.some.inj h
  exact ⟨field, hfield, hid, hsource, hdecision, hconsequence, hrationale, hauthors, hcontributors,
    hauthority, hscope, hdependencies, hcontext, hsupersedes⟩

/-- What the record of a document is read as. -/
theorem decides_of_read {destination : Destination} {material binding : Value} {source : String}
    {bytes : ByteArray} {r : Record}
    (h : Record.ofValue (sourced hash (recordValue digest material binding (dependenciesOf binding))
      bytes source destination.recordOwner) = some r) :
    Decides digest hash destination material binding source bytes r := by
  obtain ⟨field, hfield, hid, hsource, hdecision, hconsequence, hrationale, hauthors, hcontributors,
    hauthority, hscope, hdependencies, hcontext, hsupersedes⟩ := record_read h
  have hget := structFields_get? hfield
  have hown : ∀ key, key ≠ "source" → key ≠ "rationale_reference" → field key =
      (recordValue digest material binding (dependenciesOf binding)).get? key :=
    fun key hsource hrationale => (hget key).trans (sourced_get? hsource hrationale)
  have hstring : ∀ {key t : String} {v : Value}, key ≠ "source" → key ≠ "rationale_reference" →
      (recordValue digest material binding (dependenciesOf binding)).get? key = some v →
      (field key).bind Value.asStr = some t → v = .string t := by
    intro key t v hsource hrationale hv ht
    rw [hown key hsource hrationale] at ht
    exact Option.some.inj (hv.symm.trans (asStr_bind ht))
  rw [hown "authors" (by decide) (by decide)] at hauthors
  rw [hown "contributors" (by decide) (by decide)] at hcontributors
  rw [hown "authority" (by decide) (by decide)] at hauthority
  rw [hown "scope" (by decide) (by decide)] at hscope
  rw [hown "dependencies" (by decide) (by decide)] at hdependencies
  rw [hown "context" (by decide) (by decide)] at hcontext
  rw [hown "supersedes" (by decide) (by decide)] at hsupersedes
  refine ⟨hstring (by decide) (by decide) rfl hid, hstring (by decide) (by decide) rfl hdecision,
    hstring (by decide) (by decide) rfl hconsequence, ?_, ?_, ?_, hscope,
    dependencies_read hdependencies, ?_, hsupersedes, ?_, ?_⟩
  · have hauthor : listOf Actor.ofValue (.array [(author digest material).toValue]) =
        some [author digest material] := by
      simp [listOf, Value.asArray, Continuity.Actor.ofValue_toValue]
    exact (Option.some.inj (hauthor.symm.trans hauthors)).symm
  · exact (Option.some.inj hcontributors).symm
  · have hread := Continuity.Authority.ofValue_toValue
      ⟨decider digest material binding, [basisReference digest material binding]⟩
    exact (Option.some.inj (hread.symm.trans hauthority)).symm
  · exact (Option.some.inj hcontext).symm
  · have hvalue : field "rationale_reference" = some (.string source) :=
      (hget _).trans (sourced_rationale _ _ _ _)
    rw [hvalue] at hrationale
    exact (Option.some.inj hrationale).symm
  · have hvalue := (hget "source").trans (sourced_source _ _ _ _)
    rw [hvalue, Option.bind_some, Continuity.Reference.ofValue_toValue] at hsource
    exact (Option.some.inj hsource).symm

/-- The prose of a decision, with its lines. -/
theorem prose_framed {destination : Destination} {material binding : Value} {source : String}
    (C : Capturable destination material binding source) :
    ∃ prose lines rail, proseOf destination material binding = .ok prose ∧
      Framed prose (freeTexts destination material) lines rail := by
  obtain ⟨decision, hdecision⟩ := C.texts "decision" (by simp)
  obtain ⟨consequence, hconsequence⟩ := C.texts "consequence" (by simp)
  obtain ⟨rationale, hrationale⟩ := C.texts "rationale" (by simp)
  cases destination with
  | advisory => exact absurd rfl C.decides
  | memory =>
    have htexts : freeTexts .memory material = [rationale] := by
      simp [freeTexts, hrationale, Value.asStr]
    refine ⟨_, _, _, ?_, htexts ▸ memoryProse_framed (agent binding) (historicalHuman binding)
      rationale (material.field "alternatives")⟩
    rw [proseOf, hrationale]
    rfl
  | repository =>
    have htexts : freeTexts .repository material = [decision, consequence, rationale] := by
      simp [freeTexts, hdecision, hconsequence, hrationale, Value.asStr]
    refine ⟨_, _, _, ?_, htexts ▸ repositoryProse_framed (agent binding) (historicalHuman binding)
      decision consequence rationale (material.field "alternatives")⟩
    rw [proseOf, hrationale, hdecision, hconsequence]
    rfl

/-- A capture that is not advisory writes its document down and reads it back. -/
theorem materialBytes_eq {destination : Destination} {material binding : Value} {source : String}
    (C : Capturable destination material binding source) {document : String}
    (h : documentOf digest destination material binding = .ok document) :
    materialBytes digest hash material binding = (do
      check (document.utf8ByteSize ≤ BOUND) "Decision exceeds bounded source size"
      let _ ← record digest hash document.toByteArray source destination.recordOwner
      pure document.toByteArray) := by
  have hsource : (binding.field "source").asStr = some source := by rw [C.published]; rfl
  simp only [materialBytes, C.owned, h, hsource, okOr, if_neg C.decides, bind, Except.bind]

/-- **A published decision reads back as the decision that was answered**, whatever its texts
contain; and a capture fails only when the document is too long, when the record itself is not
accepted, or when a free text opens a record. -/
theorem published_decision {destination : Destination} {material binding : Value} {source : String}
    (C : Capturable destination material binding source) :
    ∃ document, documentOf digest destination material binding = .ok document ∧
      (∀ bytes, materialBytes digest hash material binding = .ok bytes →
        bytes = document.toByteArray ∧ ∃ r normal,
          Decides digest hash destination material binding source bytes r ∧
          normalized digest r = .ok normal ∧
          record digest hash bytes source destination.recordOwner = .ok normal.toValue) ∧
      (∀ e, materialBytes digest hash material binding = .error e →
        BOUND < document.utf8ByteSize ∨
        (∃ e, normalize digest (sourced hash
          (recordValue digest material binding (dependenciesOf binding)) document.toByteArray source
          destination.recordOwner) = .error e) ∨
        ∃ t ∈ freeTexts destination material, OpensFence t) := by
  obtain ⟨prose, lines, rail, hprose, F⟩ := prose_framed C
  obtain ⟨members, hmembers⟩ := C.dependencies
  have hdependencies : (binding.field "dependencies").asObject = some (dependenciesOf binding) := by
    rw [dependenciesOf, hmembers]
    rfl
  have hdocument : documentOf digest destination material binding = .ok (documentText prose
      (recordValue digest material binding (dependenciesOf binding))) := by
    rw [documentOf, hdependencies, hprose]
    rfl
  refine ⟨_, hdocument, fun bytes h => ?_, fun e h => ?_⟩
  · rw [materialBytes_eq C hdocument] at h
    simp only [Except.bind_eq_ok_iff, check_eq_ok, Except.pure_eq_ok_iff] at h
    obtain ⟨_, -, v, hrecord, rfl⟩ := h
    have hopen : ¬∃ t ∈ freeTexts destination material, OpensFence t := fun hopen =>
      record_opened F hopen hrecord
    refine ⟨rfl, ?_⟩
    have hnormal := hrecord
    rw [record_framed F source destination.recordOwner rfl rfl hopen] at hnormal
    simp only [Continuity.normalize, Except.bind_eq_ok_iff, okOr_eq_ok, Except.pure_eq_ok_iff] at hnormal
    obtain ⟨r, hr, normal, hnormal, rfl⟩ := hnormal
    exact ⟨r, normal, decides_of_read hr, hnormal, hrecord⟩
  · by_cases hbound : BOUND < (documentText prose
        (recordValue digest material binding (dependenciesOf binding))).utf8ByteSize
    · exact Or.inl hbound
    by_cases hopen : ∃ t ∈ freeTexts destination material, OpensFence t
    · exact Or.inr (Or.inr hopen)
    refine Or.inr (Or.inl ?_)
    rw [materialBytes_eq C hdocument, record_framed F source destination.recordOwner rfl rfl hopen,
      check_pos (not_lt.mp hbound)] at h
    cases hnormal : normalize digest (sourced hash (recordValue digest material binding
        (dependenciesOf binding)) (documentText prose (recordValue digest material binding
          (dependenciesOf binding))).toByteArray source destination.recordOwner) with
    | error e => exact ⟨e, rfl⟩
    | ok v =>
      rw [hnormal] at h
      cases h

/-! ## A forged record -/

def quotingRationale : String := "quoted:\n```\n\x7b\"id\": \"forged\"\x7d\n```"

def sampleMaterial : Value := .object [("alternatives", .array []), ("consequence", .string "use it"),
  ("decision", .string "adopt"), ("id", .string "d1"),
  ("rationale", .string quotingRationale), ("supersedes", .array [])]

def sampleBinding : Value := .object [("dependencies", .object [("a.md", .string "r")]),
  ("durable_owner", .string "repository"), ("scope", .strings ["path:a.md"]),
  ("source", .string "decisions/d1.md")]

theorem sample_capturable :
    Capturable .repository sampleMaterial sampleBinding "decisions/d1.md" where
  owned := rfl
  decides := by decide
  texts := by simp [sampleMaterial, Value.field, Value.get?, List.lookup]
  dependencies := ⟨_, rfl⟩
  published := rfl

def sampleDigest : Value → String := fun _ => "sha256:00"

def sampleHash : ByteArray → String := fun _ => "sha256:11"

/-- A rationale that quotes a fence and another record is not what is read. -/
theorem published_decision_sample :
    (¬∃ t ∈ freeTexts .repository sampleMaterial, OpensFence t) ∧
    ∃ document, documentOf sampleDigest .repository sampleMaterial sampleBinding = .ok document ∧
      (BOUND < document.utf8ByteSize ∨
        ∃ normal, record sampleDigest sampleHash document.toByteArray "decisions/d1.md" "repository" =
          .ok (Record.toValue normal) ∧ normal.id = "d1" ∧ normal.decision = "adopt") := by
  have hclosed : ¬∃ t ∈ freeTexts .repository sampleMaterial,
      marker <:+: lineFeeds (t.toList ++ ['\n']) := by decide
  obtain ⟨document, hdocument, hreads, hfails⟩ :=
    @published_decision sampleDigest sampleHash _ _ _ _ sample_capturable
  refine ⟨hclosed, document, hdocument, ?_⟩
  cases hbytes : materialBytes sampleDigest sampleHash sampleMaterial sampleBinding with
  | error e =>
    have hnormal : (normalize sampleDigest (sourced sampleHash (recordValue sampleDigest
        sampleMaterial sampleBinding (dependenciesOf sampleBinding)) ByteArray.empty
        "decisions/d1.md" "repository")).isOk = true := by decide
    rcases hfails e hbytes with hlong | ⟨e, hno⟩ | hopen
    · exact Or.inl hlong
    · have hok : (Except.error e : Result Value).isOk = true := hno ▸ hnormal
      cases hok
    · exact absurd hopen hclosed
  | ok bytes =>
    obtain ⟨rfl, r, normal, hr, hnormal, hrecord⟩ := hreads bytes hbytes
    obtain ⟨-, -, -, rfl⟩ := Continuity.normalized_eq_ok.mp hnormal
    exact Or.inr ⟨_, hrecord, (Value.string.inj hr.id).symm, (Value.string.inj hr.decision).symm⟩

end AgenticCore.MemoryCapture
