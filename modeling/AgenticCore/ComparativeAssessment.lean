import AgenticCore.CapabilityContract

/-!
# The comparative assessment of execution targets (`assignment.rs`)

* `Host.comparativeAssessment` : the target that standing policy or a current judgment assigns.
* `settle`         : the choice that standing policy makes among the candidates.
* `dominates`      : the preferences a candidate is settled by.
* `Permuted`       : inputs that list the same candidate rows in another order.
* `assigns_feasible` : **what an assigned status says**,
* `preferred_unique` : **why a target settled by preferences is the only one**, and
* `permuted_selected` : **that the order of the rows does not matter.**
-/

set_option autoImplicit false

namespace AgenticCore

namespace Assignment

open Json Text

/-! ## Alternatives -/

/-- An eligible configuration with the preferences it matches, or a target that is not resolved. -/
structure Alternative where
  id : Value
  target : Value
  matchedPreferences : Option (List Value)
  deriving DecidableEq

def Alternative.toValue (a : Alternative) : Value :=
  match a.matchedPreferences with
  | some preferences => .object [
      ("id", a.id),
      ("matched_preferences", .array preferences),
      ("status", .string "eligible-configuration"),
      ("target", a.target)]
  | none => .object [
      ("gap", .string "current-execution-or-handoff-owner-required"),
      ("id", a.id),
      ("status", .string "unresolved-target"),
      ("target", a.target)]

/-- `as_array().unwrap()` on the matched preferences. -/
def Alternative.preferences (a : Alternative) : List Value := a.matchedPreferences.getD []

/-- The rows of an array; anything else has none. -/
def rowsOf (v : Value) : List Value := v.asArray.getD []

section Input

variable (input : Value)

def execution : Value := input.field "execution"

def configurations : Value := (execution input).field "configurations"

def candidateRows : List Value := rowsOf ((configurations input).field "candidates")

/-- The configuration the execution owner has already chosen. -/
def prior : Value := (configurations input).field "selected"

def configurationId (row : Value) : Value := (row.field "configuration").field "id"

def eligible (row : Value) : Bool := row.field "eligible" = .bool true

/-- The preferred guarantees that the row's configuration gives. -/
def matchedPreferences (row : Value) : List Value :=
  (rowsOf (((input.field "requirements").field "execution_posture").field
    "preferred_execution_guarantees")).filter
      (· ∈ rowsOf ((row.field "configuration").field "execution_guarantees"))

def alternativeOf (row : Value) : Alternative where
  id := configurationId row
  target := (row.field "configuration").field "target"
  matchedPreferences := some (matchedPreferences input row)

def eligibleAlternatives : List Alternative :=
  ((candidateRows input).filter eligible).map (alternativeOf input)

/-- A target that may come to be assigned, and that no eligible configuration stands for. -/
def manualUnresolved (alternatives : List Alternative) (manual : Value) : Bool :=
  manual.field "source_policy_eligible" = .bool true ∧
    manual.field "required_result_classes_supported" ≠ .bool false ∧
    alternatives.any (·.target = manual.field "target") = false

def unresolvedAlternatives (alternatives : List Alternative) : List Value :=
  rowsOf ((execution input).field "unavailable_adapters") ++
    (rowsOf ((execution input).field "manual_targets")).filter (manualUnresolved alternatives)

def unresolvedId (item : Value) : Value :=
  .string ("unresolved-target:" ++ ((item.field "target").asStr).getD "unknown")

def addUnresolved (alternatives : List Alternative) (item : Value) : List Alternative :=
  if alternatives.any (·.id = unresolvedId item) then alternatives
  else alternatives ++ [⟨unresolvedId item, item.field "target", none⟩]

def allAlternatives : List Alternative :=
  (unresolvedAlternatives input (eligibleAlternatives input)).foldl addUnresolved
    (eligibleAlternatives input)

/-! ## Standing policy -/

def ready : Bool :=
  (input.field "requirements").field "status" = .string "resolved" ∧
    (input.field "policy").field "enforceable" = .bool true ∧
    ((execution input).field "gaps").asArray = some [] ∧
    unresolvedAlternatives input (eligibleAlternatives input) = []

/-- The name of the profile in use. -/
def currentProfile : Value :=
  ((input.field "policy").field "current_profile").field "name"

/-- The alternatives that the assignment policy leaves. -/
def candidates : List Alternative :=
  (allAlternatives input).filter fun a =>
    decide ((input.field "policy").field "assignment_policy" ≠ .string "local-preferred" ∨
      a.target = currentProfile input)

def sameTarget : List Alternative → Bool
  | [] => false
  | first :: rest => (first :: rest).all (·.target = first.target)

/-- The candidate matches some preference, and everything any other matches and more. -/
def dominates (candidates : List Alternative) (a : Alternative) : Bool :=
  a.preferences ≠ [] ∧ ∀ other ∈ candidates, other.id = a.id ∨
    other.preferences.length < a.preferences.length ∧
      ∀ tag ∈ other.preferences, tag ∈ a.preferences

def REQUIRED : String := "comparative-judgment-required"

def SOLE : String := "sole-eligible-configuration"

def SAME_EXECUTOR : String := "sole-eligible-executor-selected-transport"

def PREFERENCES : String := "standing-execution-preferences"

def COMPARISON : String := "acting-orchestrator-comparison"

/-- The choice that standing policy makes among the candidates, and what determines it. -/
def settle (chosen : Value) (candidates : List Alternative) : Option Alternative × String :=
  match candidates with
  | [only] => (some only, SOLE)
  | _ =>
    if sameTarget candidates then
      (candidates.find? (·.id = chosen.field "id"), SAME_EXECUTOR)
    else
      match candidates.find? (dominates candidates) with
      | some a => (some a, PREFERENCES)
      | none => (none, REQUIRED)

end Input

/-! ## The assessment -/

section Assess

variable (host : Host)

-- `source_schema()`
variable (schema input : Value)

def Host.assessmentRevision : String :=
  host.digest (.object [
    ("execution", execution input),
    ("policy", input.field "policy"),
    ("requirements", input.field "requirements"),
    ("work", input.field "work")])

def judgment : Value := input.field "judgment"

def judgmentSchema : Value :=
  ((schema.field "$defs").field "assignment_comparative_judgment").insert "$schema"
    (schema.field "$schema")

def Host.validateJudgment (judgment : Value) : Result Unit :=
  if judgment = .null then pure ()
  else do
    let accepts ← host.schemaValidator (judgmentSchema schema) "assignment comparative judgment"
    check (accepts judgment = true) MALFORMED

/-- The alternative that a judgment on the current comparison chooses. -/
def judgedAlternative (revision : String) : Result Alternative := do
  check ((judgment input).field "revision" = .string revision)
    ("assignment comparative judgment stale; current work, policy, requirements or candidates " ++
      "changed")
  let selected ← okOr ((allAlternatives input).find? (·.id = (judgment input).field "alternative"))
    "assignment comparative alternative is not currently admitted"
  check (prior input = .null ∨ (prior input).field "id" = selected.id)
    "assignment comparison conflicts with current execution configuration choice"
  check (∃ s ∈ ((judgment input).field "reason").asStr, trim s ≠ "")
    "assignment comparative reason required"
  pure selected

/-- The choice, and what determines it. -/
def chosen (revision : String) : Result (Option Alternative × String) :=
  if judgment input = .null then
    pure (if ready input then settle (prior input) (candidates input) else (none, REQUIRED))
  else do
    let selected ← judgedAlternative input revision
    pure (some selected, COMPARISON)

/-- The choice with the configuration of its row. -/
def withConfiguration (selected : Value) : Value :=
  match (candidateRows input).find? fun row =>
      configurationId row = selected.field "id" ∧ eligible row = true with
  | some row => selected.insert "configuration" (row.field "configuration")
  | none => selected

/-- An internal transport of the profile in use. -/
def localTarget (selected : Value) : Bool :=
  (selected.field "configuration").field "transport" = .string "internal" ∧
    selected.field "target" = currentProfile input

def assessmentStatus (selected : Value) : String :=
  if selected = .null then "assessment-required"
  else if ready input = false ∨ selected.field "status" = .string "unresolved-target" then
    "unresolved-assessment"
  else if localTarget input selected then "assigned-current-target"
  else "assigned-nonlocal-handoff-required"

def Assigned (status : String) : Prop :=
  status = "assigned-current-target" ∨ status = "assigned-nonlocal-handoff-required"

instance (status : String) : Decidable (Assigned status) := inferInstanceAs (Decidable (_ ∨ _))

def Host.assignmentIdentity (revision : String) (selected : Value) : Value :=
  .object [
    ("assignment_decision_revision", .string (host.digest (.object [
      ("assessment_revision", .string revision),
      ("judgment", judgment input),
      ("selected", selected)]))),
    ("configuration_revision", (configurations input).field "revision"),
    ("policy_revision", (input.field "policy").field "revision"),
    ("requirements_revision", (input.field "requirements").field "revision"),
    ("selected", selected),
    ("work", input.field "work")]

/-- What an assessment comes to. -/
structure Assessment where
  revision : String
  status : String
  alternatives : List Alternative
  unresolvedAlternatives : List Value
  selected : Value
  judgment : Value
  determination : String
  binding : Bool
  localAssignmentSatisfied : Bool
  assignmentIdentity : Value

def Assessment.toValue (a : Assessment) : Value :=
  .object [
    ("alternatives", .array (a.alternatives.map Alternative.toValue)),
    ("assignment_identity", a.assignmentIdentity),
    ("binding", .bool a.binding),
    ("claim_boundary", .string ("Current comparative judgment only; no dispatch, sealed " ++
      "handoff, evidence, completion or override authority.")),
    ("determination", .string a.determination),
    ("judgment", a.judgment),
    ("kind", .string "agentic-workspace/assignment-decision/v1"),
    ("local_assignment_satisfied", .bool a.localAssignmentSatisfied),
    ("revision", .string a.revision),
    ("selected", a.selected),
    ("status", .string a.status),
    ("unresolved_alternatives", .array a.unresolvedAlternatives)]

/-- `comparative_assessment`, before it is written as a value. -/
def Host.comparativeAssessment : Result Assessment := do
  let revision := Host.assessmentRevision host input
  let _ ← Host.validateJudgment host schema (judgment input)
  let (choice, determination) ← chosen input revision
  let selected := withConfiguration input ((choice.map Alternative.toValue).getD .null)
  check (selected = .null ∨ prior input = .null ∨ (prior input).field "id" = selected.field "id")
    ("standing policy conflicts with current execution configuration choice; resolve the " ++
      "bounded comparison")
  let status := assessmentStatus input selected
  pure {
    revision, status, selected, determination
    alternatives := allAlternatives input
    unresolvedAlternatives := unresolvedAlternatives input (eligibleAlternatives input)
    judgment := judgment input
    binding := (input.field "policy").field "binding" = .bool true
    localAssignmentSatisfied := decide (Assigned status) && localTarget input selected
    assignmentIdentity :=
      if Assigned status then Host.assignmentIdentity host input revision selected else .null }

end Assess

/-! ## What an assessment rests on -/

section Rests

variable {host : Host} {schema input : Value} {a : Assessment}

/-- The parts of a successful assessment. -/
theorem comparativeAssessment_eq_ok
    (h : Host.comparativeAssessment host schema input = .ok a) :
    ∃ choice, chosen input (Host.assessmentRevision host input) = .ok (choice, a.determination) ∧
      a.selected = withConfiguration input ((choice.map Alternative.toValue).getD .null) ∧
      a.status = assessmentStatus input a.selected ∧
      a.unresolvedAlternatives = unresolvedAlternatives input (eligibleAlternatives input) := by
  simp only [Host.comparativeAssessment, Except.bind_eq_ok_iff, check_eq_ok,
    Except.pure_eq_ok_iff] at h
  obtain ⟨_, -, ⟨choice, determination⟩, hchosen, _, -, rfl⟩ := h
  exact ⟨choice, hchosen, rfl, rfl, rfl⟩

/-- An assessment succeeds with a choice that does not conflict with the prior one. -/
theorem comparativeAssessment_of_chosen {choice : Option Alternative} {determination : String}
    (hvalid : Host.validateJudgment host schema (judgment input) = .ok ())
    (hchosen : chosen input (Host.assessmentRevision host input) = .ok (choice, determination))
    (hprior : withConfiguration input ((choice.map Alternative.toValue).getD .null) = .null ∨
      prior input = .null ∨ (prior input).field "id" =
        (withConfiguration input ((choice.map Alternative.toValue).getD .null)).field "id") :
    ∃ a, Host.comparativeAssessment host schema input = .ok a ∧
      a.selected = withConfiguration input ((choice.map Alternative.toValue).getD .null) ∧
      a.status = assessmentStatus input a.selected := by
  have hok : ∃ a, Host.comparativeAssessment host schema input = .ok a := by
    simp only [Host.comparativeAssessment, Except.bind_eq_ok_iff, check_eq_ok,
      Except.pure_eq_ok_iff]
    exact ⟨_, (), hvalid, (choice, determination), hchosen, (), hprior, rfl⟩
  obtain ⟨a, ha⟩ := hok
  obtain ⟨choice', hchosen', hselected, hstatus, -⟩ := comparativeAssessment_eq_ok ha
  obtain ⟨rfl, -⟩ := Prod.mk.inj (Except.ok.inj (hchosen.symm.trans hchosen'))
  exact ⟨a, ha, hselected, hstatus⟩

theorem settle_mem {prior : Value} {cands : List Alternative} {c : Alternative}
    {determination : String} (h : settle prior cands = (some c, determination)) : c ∈ cands := by
  unfold settle at h
  split at h
  · obtain ⟨hc, -⟩ := Prod.mk.inj h
    rw [Option.some.inj hc]
    exact List.mem_singleton_self c
  split at h
  · exact List.mem_of_find?_eq_some (Prod.mk.inj h).1
  split at h
  · rename_i hfind
    obtain ⟨hc, -⟩ := Prod.mk.inj h
    rw [← Option.some.inj hc]
    exact List.mem_of_find?_eq_some hfind
  · cases (Prod.mk.inj h).1

/-- A choice is one of the alternatives. -/
theorem chosen_mem {revision determination : String} {c : Alternative}
    (h : chosen input revision = .ok (some c, determination)) : c ∈ allAlternatives input := by
  unfold chosen at h
  split at h
  · rw [Except.pure_eq_ok_iff] at h
    split at h
    · exact (List.mem_filter.mp (settle_mem h)).1
    · cases (Prod.mk.inj h).1
  · simp only [judgedAlternative, Except.bind_eq_ok_iff, check_eq_ok, okOr_eq_ok,
      Except.pure_eq_ok_iff] at h
    obtain ⟨selected, ⟨_, -, _, hfind, _, -, _, -, rfl⟩, heq⟩ := h
    rw [← Option.some.inj (Prod.mk.inj heq).1]
    exact List.mem_of_find?_eq_some hfind

/-- Under standing policy every alternative is an eligible configuration. -/
theorem allAlternatives_ready (h : ready input = true) :
    allAlternatives input = eligibleAlternatives input := by
  unfold allAlternatives
  rw [(of_decide_eq_true h).2.2.2]
  rfl

theorem mem_eligibleAlternatives {c : Alternative} : c ∈ eligibleAlternatives input ↔
    ∃ row ∈ candidateRows input, eligible row = true ∧ alternativeOf input row = c := by
  simp only [eligibleAlternatives, List.mem_map, List.mem_filter, and_assoc]

/-- The selection before its configuration is put in is null or an alternative's. -/
theorem insert_configuration (choice : Option Alternative) (configuration : Value) :
    (((choice.map Alternative.toValue).getD .null).insert "configuration" configuration).field
        "configuration" = configuration ∧
      (((choice.map Alternative.toValue).getD .null).insert "configuration" configuration).field
        "id" = ((choice.map Alternative.toValue).getD .null).field "id" := by
  refine ⟨?_, Value.field_insert_of_ne (by decide) _ _⟩
  cases choice with
  | none => rfl
  | some c =>
    obtain ⟨id, target, preferences⟩ := c
    cases preferences <;> rfl

theorem toValue_id (c : Alternative) : c.toValue.field "id" = c.id := by
  obtain ⟨id, target, preferences⟩ := c
  cases preferences <;> rfl

theorem toValue_ne_null (c : Alternative) : c.toValue ≠ .null := by
  obtain ⟨id, target, preferences⟩ := c
  cases preferences <;> exact Value.noConfusion

/-- **An assigned status means that the requirements are resolved, the policy is enforceable, the
    execution has no gaps, no alternative is unresolved, and the selected configuration is that of
    an eligible row.** -/
theorem assigns_feasible (h : Host.comparativeAssessment host schema input = .ok a)
    (hassigned : Assigned a.status) :
    (input.field "requirements").field "status" = .string "resolved" ∧
      (input.field "policy").field "enforceable" = .bool true ∧
      ((execution input).field "gaps").asArray = some [] ∧ a.unresolvedAlternatives = [] ∧
      ∃ row ∈ candidateRows input, eligible row = true ∧
        configurationId row = a.selected.field "id" ∧
        a.selected.field "configuration" = row.field "configuration" := by
  obtain ⟨choice, hchosen, hselected, hstatus, hunresolved⟩ := comparativeAssessment_eq_ok h
  rw [hstatus] at hassigned
  unfold assessmentStatus at hassigned
  split at hassigned
  · exact absurd hassigned (by decide)
  rename_i hne
  split at hassigned
  · exact absurd hassigned (by decide)
  rename_i hready
  have hready' : ready input = true := by
    rw [not_or, Bool.not_eq_false] at hready
    exact hready.1
  obtain ⟨hresolved, henforceable, hgaps, hnone⟩ := of_decide_eq_true hready'
  refine ⟨hresolved, henforceable, hgaps, hunresolved.trans hnone, ?_⟩
  rw [hselected] at hne ⊢
  unfold withConfiguration at hne ⊢
  cases hfind : (candidateRows input).find? fun row => decide (configurationId row =
      ((choice.map Alternative.toValue).getD .null).field "id" ∧ eligible row = true) with
  | some row =>
    have hrow := List.find?_some hfind
    rw [decide_eq_true_iff] at hrow
    obtain ⟨hconfiguration, hid⟩ := insert_configuration choice (row.field "configuration")
    exact ⟨row, List.mem_of_find?_eq_some hfind, hrow.2, hrow.1.trans hid.symm, hconfiguration⟩
  | none =>
    rw [hfind] at hne
    cases hchoice : choice with
    | none =>
      rw [hchoice] at hne
      exact absurd rfl hne
    | some c =>
      rw [hchoice] at hchosen hfind
      have hmem := chosen_mem hchosen
      rw [allAlternatives_ready hready', mem_eligibleAlternatives] at hmem
      obtain ⟨row, hrow, helig, rfl⟩ := hmem
      refine absurd (decide_eq_true ?_) (List.find?_eq_none.mp hfind row hrow)
      exact ⟨(toValue_id (alternativeOf input row)).symm, helig⟩

end Rests

/-! ## Preferences -/

section Preferences

variable {host : Host} {schema input : Value} {a : Assessment}

/-- The matched preferences of a row, as a set. -/
def preferenceSet (input row : Value) : Set Value := {tag | tag ∈ matchedPreferences input row}

/-- The row matches every preference that another eligible row matches, and more. -/
def Preferred (input row : Value) : Prop :=
  ∀ other ∈ candidateRows input, eligible other = true →
    configurationId other ≠ configurationId row → preferenceSet input other ⊂ preferenceSet input row

/-- Rows that match the same preferences list them alike. -/
theorem matchedPreferences_eq {row other : Value}
    (h : preferenceSet input row ⊆ preferenceSet input other)
    (h' : preferenceSet input other ⊆ preferenceSet input row) :
    matchedPreferences input row = matchedPreferences input other := by
  unfold matchedPreferences
  apply List.filter_congr
  intro tag htag
  rw [Bool.eq_iff_iff, decide_eq_true_iff, decide_eq_true_iff]
  constructor
  · intro hmem
    exact of_decide_eq_true (List.mem_filter.mp (h (List.mem_filter.mpr ⟨htag, decide_eq_true hmem⟩))).2
  · intro hmem
    exact of_decide_eq_true (List.mem_filter.mp (h' (List.mem_filter.mpr ⟨htag, decide_eq_true hmem⟩))).2

/-- More preferences, and all those of the other, are strictly more. -/
theorem preferenceSet_ssubset {row other : Value}
    (hlength : (matchedPreferences input other).length < (matchedPreferences input row).length)
    (hall : ∀ tag ∈ matchedPreferences input other, tag ∈ matchedPreferences input row) :
    preferenceSet input other ⊂ preferenceSet input row := by
  refine ⟨hall, fun hback => ?_⟩
  rw [matchedPreferences_eq hall hback] at hlength
  exact absurd hlength (lt_irrefl _)

theorem Preferred.unique {row row' : Value} (h : Preferred input row) (h' : Preferred input row')
    (hrow : row ∈ candidateRows input) (hrow' : row' ∈ candidateRows input)
    (helig : eligible row = true) (helig' : eligible row' = true) :
    configurationId row = configurationId row' := by
  by_contra hne
  have hless := h row' hrow' helig' fun heq => hne heq.symm
  exact absurd (h' row hrow helig hne) (not_ssubset_of_subset hless.subset)

theorem sameTarget_iff {cands : List Alternative} : sameTarget cands = true ↔
    cands ≠ [] ∧ ∀ c ∈ cands, ∀ d ∈ cands, c.target = d.target := by
  cases cands with
  | nil => simp [sameTarget]
  | cons first rest =>
    simp only [sameTarget, List.all_eq_true, decide_eq_true_eq]
    constructor
    · intro h
      exact ⟨List.cons_ne_nil _ _, fun c hc d hd => (h c hc).trans (h d hd).symm⟩
    · rintro ⟨-, h⟩ c hc
      exact h c hc first List.mem_cons_self

/-- A choice by preferences dominates among all alternatives. -/
theorem chosen_preferences {revision : String} {choice : Option Alternative}
    (h : chosen input revision = .ok (choice, PREFERENCES)) :
    ready input = true ∧ ∃ c ∈ allAlternatives input, choice = some c ∧
      dominates (allAlternatives input) c = true := by
  unfold chosen at h
  split at h
  · rw [Except.pure_eq_ok_iff] at h
    split at h
    · rename_i hready
      refine ⟨hready, ?_⟩
      unfold settle at h
      split at h
      · exact absurd (Prod.mk.inj h).2 (by decide)
      split at h
      · exact absurd (Prod.mk.inj h).2 (by decide)
      rename_i hsame
      split at h
      · rename_i c hfind
        have hmem := List.mem_of_find?_eq_some hfind
        have hpolicy : (input.field "policy").field "assignment_policy" ≠
            .string "local-preferred" := by
          intro hlocal
          refine hsame (sameTarget_iff.mpr ⟨List.ne_nil_of_mem hmem, fun c hc d hd => ?_⟩)
          have htarget : ∀ x ∈ candidates input, x.target = currentProfile input := by
            intro x hx
            exact (of_decide_eq_true (List.mem_filter.mp hx).2).resolve_left fun hno => hno hlocal
          rw [htarget c hc, htarget d hd]
        have hcandidates : candidates input = allAlternatives input := by
          unfold candidates
          rw [List.filter_eq_self]
          exact fun x _ => decide_eq_true (Or.inl hpolicy)
        rw [hcandidates] at hfind hmem
        exact ⟨c, hmem, (Prod.mk.inj h).1.symm, List.find?_some hfind⟩
      · exact absurd (Prod.mk.inj h).2 (by decide)
    · exact absurd (Prod.mk.inj h).2 (by decide)
  · simp only [Except.bind_eq_ok_iff, Except.pure_eq_ok_iff] at h
    obtain ⟨_, -, heq⟩ := h
    exact absurd (Prod.mk.inj heq).2 (by decide)

theorem withConfiguration_id (choice : Option Alternative) :
    (withConfiguration input ((choice.map Alternative.toValue).getD .null)).field "id" =
      ((choice.map Alternative.toValue).getD .null).field "id" := by
  unfold withConfiguration
  split
  · exact (insert_configuration choice _).2
  · rfl

/-- **A target settled by preferences is that of an eligible row whose preferences strictly include
    those of every other one.** -/
theorem preferred_selected (h : Host.comparativeAssessment host schema input = .ok a)
    (hdetermination : a.determination = PREFERENCES) :
    ∃ row ∈ candidateRows input, eligible row = true ∧
      configurationId row = a.selected.field "id" ∧ Preferred input row := by
  obtain ⟨choice, hchosen, hselected, -, -⟩ := comparativeAssessment_eq_ok h
  rw [hdetermination] at hchosen
  obtain ⟨hready, c, hmem, rfl, hdominates⟩ := chosen_preferences hchosen
  rw [allAlternatives_ready hready] at hmem hdominates
  obtain ⟨row, hrow, helig, rfl⟩ := mem_eligibleAlternatives.mp hmem
  obtain ⟨-, hall⟩ := of_decide_eq_true hdominates
  refine ⟨row, hrow, helig, ?_, ?_⟩
  · rw [hselected, withConfiguration_id]
    exact (toValue_id (alternativeOf input row)).symm
  · intro other hother hotherElig hne
    obtain ⟨hlength, htags⟩ := (hall (alternativeOf input other)
      (mem_eligibleAlternatives.mpr ⟨other, hother, hotherElig, rfl⟩)).resolve_left hne
    exact preferenceSet_ssubset hlength htags

end Preferences

/-! ## The order of the rows -/

section Order

/-- Where at most one element passes the test, the order of a list does not matter to `find?`. -/
theorem find?_perm {α : Type} {p : α → Bool} {l l' : List α} (h : l.Perm l')
    (hone : ∀ x ∈ l, ∀ y ∈ l, p x = true → p y = true → x = y) : l.find? p = l'.find? p := by
  cases hfind : l.find? p with
  | none =>
    symm
    rw [List.find?_eq_none] at hfind ⊢
    exact fun x hx => hfind x (h.mem_iff.mpr hx)
  | some x =>
    have hx := List.find?_some hfind
    have hmem := List.mem_of_find?_eq_some hfind
    cases hfind' : l'.find? p with
    | none => exact absurd hx (List.find?_eq_none.mp hfind' x (h.mem_iff.mp hmem))
    | some y =>
      have hy := h.mem_iff.mpr (List.mem_of_find?_eq_some hfind')
      rw [hone x hmem y hy hx (List.find?_some hfind')]

theorem any_perm {α : Type} {p : α → Bool} {l l' : List α} (h : l.Perm l') :
    l.any p = l'.any p := by
  rw [Bool.eq_iff_iff, List.any_eq_true, List.any_eq_true]
  constructor
  · rintro ⟨x, hx, hp⟩
    exact ⟨x, h.mem_iff.mp hx, hp⟩
  · rintro ⟨x, hx, hp⟩
    exact ⟨x, h.mem_iff.mpr hx, hp⟩

/-- Alternatives under identities of their own. -/
def Distinct (alternatives : List Alternative) : Prop := (alternatives.map (·.id)).Nodup

theorem Distinct.eq {alternatives : List Alternative} (h : Distinct alternatives)
    {c d : Alternative} (hc : c ∈ alternatives) (hd : d ∈ alternatives) (heq : c.id = d.id) :
    c = d := List.inj_on_of_nodup_map h hc hd heq

theorem addUnresolved_distinct {alternatives : List Alternative} (h : Distinct alternatives)
    (item : Value) : Distinct (addUnresolved alternatives item) := by
  unfold addUnresolved
  split
  · exact h
  · rename_i hnone
    unfold Distinct
    rw [List.map_append, List.nodup_append]
    refine ⟨h, List.nodup_singleton _, ?_⟩
    rintro id hid id' hid' rfl
    obtain ⟨c, hc, rfl⟩ := List.mem_map.mp hid
    refine hnone (List.any_eq_true.mpr ⟨c, hc, decide_eq_true ?_⟩)
    simpa using hid'

theorem addUnresolved_perm {alternatives alternatives' : List Alternative}
    (h : alternatives.Perm alternatives') (item : Value) :
    (addUnresolved alternatives item).Perm (addUnresolved alternatives' item) := by
  unfold addUnresolved
  rw [any_perm h]
  split
  · exact h
  · exact h.append_right _

theorem foldl_addUnresolved {items : List Value} :
    ∀ {alternatives alternatives' : List Alternative}, Distinct alternatives →
      alternatives.Perm alternatives' →
      Distinct (items.foldl addUnresolved alternatives) ∧
        (items.foldl addUnresolved alternatives).Perm (items.foldl addUnresolved alternatives') := by
  induction items with
  | nil => exact fun hdistinct hperm => ⟨hdistinct, hperm⟩
  | cons item items ih =>
    intro alternatives alternatives' hdistinct hperm
    exact ih (addUnresolved_distinct hdistinct item) (addUnresolved_perm hperm item)

/-- Configurations under identities of their own. -/
def DistinctIds (input : Value) : Prop := ((candidateRows input).map configurationId).Nodup

theorem eligible_distinct {input : Value} (h : DistinctIds input) :
    Distinct (eligibleAlternatives input) := by
  unfold Distinct eligibleAlternatives
  rw [List.map_map]
  exact h.sublist (List.filter_sublist.map configurationId)

/-- No two candidates dominate. -/
theorem dominates_unique {cands : List Alternative} (hdistinct : Distinct cands)
    {c d : Alternative} (hc : c ∈ cands) (hd : d ∈ cands) (hdom : dominates cands c = true)
    (hdom' : dominates cands d = true) : c = d := by
  by_contra hne
  have hless := ((of_decide_eq_true hdom).2 d hd).resolve_left fun heq =>
    hne (hdistinct.eq hc hd heq.symm)
  have hless' := ((of_decide_eq_true hdom').2 c hc).resolve_left fun heq =>
    hne (hdistinct.eq hc hd heq)
  omega

theorem dominates_perm {cands cands' : List Alternative} (h : cands.Perm cands') :
    dominates cands = dominates cands' := by
  funext c
  unfold dominates
  simp only [h.mem_iff]

theorem sameTarget_perm {cands cands' : List Alternative} (h : cands.Perm cands') :
    sameTarget cands = sameTarget cands' := by
  rw [Bool.eq_iff_iff, sameTarget_iff, sameTarget_iff]
  have hnil : cands = [] ↔ cands' = [] := by
    constructor
    · rintro rfl
      exact List.nil_perm.mp h
    · rintro rfl
      exact List.perm_nil.mp h
  simp only [h.mem_iff, ne_eq, hnil]

theorem settle_many {prior : Value} {cands : List Alternative} (h : cands.length ≠ 1) :
    settle prior cands =
      if sameTarget cands then (cands.find? (·.id = prior.field "id"), SAME_EXECUTOR)
      else
        match cands.find? (dominates cands) with
        | some a => (some a, PREFERENCES)
        | none => (none, REQUIRED) := by
  unfold settle
  split
  · exact absurd rfl h
  · rfl

/-- Standing policy does not look at the order of the candidates. -/
theorem settle_perm {prior : Value} {cands cands' : List Alternative} (h : cands.Perm cands')
    (hdistinct : Distinct cands) : settle prior cands = settle prior cands' := by
  by_cases hone : cands.length = 1
  · obtain ⟨only, rfl⟩ := List.length_eq_one_iff.mp hone
    rw [List.singleton_perm.mp h]
  · have hone' : cands'.length ≠ 1 := h.length_eq ▸ hone
    have hid : cands.find? (·.id = prior.field "id") = cands'.find? (·.id = prior.field "id") := by
      refine find?_perm h fun x hx y hy hxid hyid => ?_
      exact hdistinct.eq hx hy ((of_decide_eq_true hxid).trans (of_decide_eq_true hyid).symm)
    have hdom : cands.find? (dominates cands) = cands'.find? (dominates cands') := by
      rw [← dominates_perm h]
      exact find?_perm h fun x hx y hy => dominates_unique hdistinct hx hy
    rw [settle_many hone, settle_many hone', sameTarget_perm h, hid, hdom]

/-- The judgment is bound to the current comparison. -/
def Bound (host : Host) (input : Value) : Prop :=
  (judgment input).field "revision" = .string (Host.assessmentRevision host input)

/-- Inputs that agree but for the order of the candidate rows and the revision a judgment is bound
    to. -/
structure Permuted (host : Host) (schema input input' : Value) : Prop where
  policy : input.field "policy" = input'.field "policy"
  requirements : input.field "requirements" = input'.field "requirements"
  unavailable : (execution input).field "unavailable_adapters" =
    (execution input').field "unavailable_adapters"
  manual : (execution input).field "manual_targets" = (execution input').field "manual_targets"
  gaps : (execution input).field "gaps" = (execution input').field "gaps"
  prior : prior input = prior input'
  rows : (candidateRows input).Perm (candidateRows input')
  judged : judgment input = .null ↔ judgment input' = .null
  alternative : (judgment input).field "alternative" = (judgment input').field "alternative"
  reason : (judgment input).field "reason" = (judgment input').field "reason"
  valid : Host.validateJudgment host schema (judgment input) = .ok () ↔
    Host.validateJudgment host schema (judgment input') = .ok ()

section Permuted

variable {host : Host} {schema input input' : Value}

theorem Permuted.symm (P : Permuted host schema input input') :
    Permuted host schema input' input where
  policy := P.policy.symm
  requirements := P.requirements.symm
  unavailable := P.unavailable.symm
  manual := P.manual.symm
  gaps := P.gaps.symm
  prior := P.prior.symm
  rows := P.rows.symm
  judged := P.judged.symm
  alternative := P.alternative.symm
  reason := P.reason.symm
  valid := P.valid.symm

theorem Permuted.distinct (P : Permuted host schema input input') (h : DistinctIds input) :
    DistinctIds input' := (P.rows.map configurationId).nodup_iff.mp h

theorem Permuted.eligible_perm (P : Permuted host schema input input') :
    (eligibleAlternatives input).Perm (eligibleAlternatives input') := by
  have halternative : alternativeOf input = alternativeOf input' := by
    funext row
    unfold alternativeOf matchedPreferences
    rw [P.requirements]
  unfold eligibleAlternatives
  rw [halternative]
  exact (P.rows.filter eligible).map _

theorem Permuted.unresolved_eq (P : Permuted host schema input input') :
    unresolvedAlternatives input (eligibleAlternatives input) =
      unresolvedAlternatives input' (eligibleAlternatives input') := by
  have hmanual : manualUnresolved (eligibleAlternatives input) =
      manualUnresolved (eligibleAlternatives input') := by
    funext manual
    unfold manualUnresolved
    rw [any_perm P.eligible_perm]
  unfold unresolvedAlternatives
  rw [P.unavailable, P.manual, hmanual]

theorem Permuted.alternatives (P : Permuted host schema input input') (h : DistinctIds input) :
    Distinct (allAlternatives input) ∧ (allAlternatives input).Perm (allAlternatives input') := by
  unfold allAlternatives
  rw [← P.unresolved_eq]
  exact foldl_addUnresolved (eligible_distinct h) P.eligible_perm

theorem Permuted.ready_eq (P : Permuted host schema input input') : ready input = ready input' := by
  unfold ready
  rw [P.policy, P.requirements, P.gaps, P.unresolved_eq]

theorem Permuted.settle_eq (P : Permuted host schema input input') (h : DistinctIds input) :
    settle (Assignment.prior input) (candidates input) =
      settle (Assignment.prior input') (candidates input') := by
  obtain ⟨hdistinct, hperm⟩ := P.alternatives h
  rw [P.prior]
  refine settle_perm ?_ (hdistinct.sublist (List.filter_sublist.map _))
  unfold candidates currentProfile
  rw [P.policy]
  exact hperm.filter _

theorem Permuted.judged_ok (P : Permuted host schema input input') (h : DistinctIds input)
    (hbound : Bound host input') {c : Alternative}
    (hok : judgedAlternative input (Host.assessmentRevision host input) = .ok c) :
    judgedAlternative input' (Host.assessmentRevision host input') = .ok c := by
  obtain ⟨hdistinct, hperm⟩ := P.alternatives h
  simp only [judgedAlternative, Except.bind_eq_ok_iff, check_eq_ok, okOr_eq_ok,
    Except.pure_eq_ok_iff] at hok ⊢
  obtain ⟨_, -, selected, hfind, _, hprior, _, hreason, rfl⟩ := hok
  refine ⟨(), hbound, selected, ?_, (), P.prior ▸ hprior, (), P.reason ▸ hreason, rfl⟩
  rw [← hfind, ← P.alternative]
  refine (find?_perm hperm fun x hx y hy hxid hyid => ?_).symm
  exact hdistinct.eq hx hy ((of_decide_eq_true hxid).trans (of_decide_eq_true hyid).symm)

theorem Permuted.chosen_ok (P : Permuted host schema input input') (h : DistinctIds input)
    (hbound : judgment input ≠ .null → Bound host input') {choice : Option Alternative × String}
    (hok : chosen input (Host.assessmentRevision host input) = .ok choice) :
    chosen input' (Host.assessmentRevision host input') = .ok choice := by
  unfold chosen at hok ⊢
  by_cases hnull : judgment input = .null
  · rw [if_pos hnull] at hok
    rw [if_pos (P.judged.mp hnull), ← P.ready_eq, ← P.settle_eq h]
    exact hok
  · rw [if_neg hnull, Except.bind_eq_ok_iff] at hok
    rw [if_neg (mt P.judged.mpr hnull), Except.bind_eq_ok_iff]
    obtain ⟨c, hc, heq⟩ := hok
    exact ⟨c, P.judged_ok h (hbound hnull) hc, heq⟩

/-- A judgment that is followed is bound to the current comparison. -/
theorem bound_of_ok {a : Assessment} (hok : Host.comparativeAssessment host schema input = .ok a)
    (hjudged : judgment input ≠ .null) : Bound host input := by
  obtain ⟨choice, hchosen, -⟩ := comparativeAssessment_eq_ok hok
  unfold chosen at hchosen
  simp only [if_neg hjudged, judgedAlternative, Except.bind_eq_ok_iff, check_eq_ok] at hchosen
  obtain ⟨_, ⟨_, hbound, -⟩, -⟩ := hchosen
  exact hbound

theorem Permuted.withConfiguration_eq (P : Permuted host schema input input')
    (h : DistinctIds input) (selected : Value) :
    withConfiguration input selected = withConfiguration input' selected := by
  unfold withConfiguration
  rw [find?_perm P.rows]
  intro x hx y hy hxid hyid
  exact List.inj_on_of_nodup_map h hx hy
    ((of_decide_eq_true hxid).1.trans (of_decide_eq_true hyid).1.symm)

/-- An assessment of the permuted rows succeeds with the same selection and status. -/
theorem Permuted.assessed (P : Permuted host schema input input') (h : DistinctIds input)
    (hbound : judgment input ≠ .null → Bound host input') {a : Assessment}
    (hok : Host.comparativeAssessment host schema input = .ok a) :
    ∃ a', Host.comparativeAssessment host schema input' = .ok a' ∧ a'.selected = a.selected ∧
      a'.status = a.status := by
  simp only [Host.comparativeAssessment, Except.bind_eq_ok_iff, check_eq_ok,
    Except.pure_eq_ok_iff] at hok
  obtain ⟨_, hvalid, ⟨choice, determination⟩, hchosen, _, hprior, rfl⟩ := hok
  have hselected := P.withConfiguration_eq h ((choice.map Alternative.toValue).getD .null)
  obtain ⟨a', hok', hselected', hstatus'⟩ := comparativeAssessment_of_chosen
    (P.valid.mp hvalid) (P.chosen_ok h hbound hchosen) (by rw [← hselected, ← P.prior]; exact hprior)
  refine ⟨a', hok', hselected'.trans hselected.symm, ?_⟩
  rw [hstatus', hselected', ← hselected]
  unfold assessmentStatus localTarget currentProfile
  rw [P.ready_eq, P.policy]

end Permuted

end Order

/-! ## Standing policy -/

section Main

variable {host : Host} {schema input : Value}

/-- **Standing policy assigns only an unambiguous feasible target: an assigned status says that the
    target is feasible, a target settled by preferences is the only one that strictly includes the
    others' preferences, and the order of the candidate rows does not matter. Where a judgment is
    followed, an assessment of the rows in another order succeeds once the judgment is bound to
    it.** -/
theorem standing_policy_assigns (hdistinct : DistinctIds input) :
    (∀ a, Host.comparativeAssessment host schema input = .ok a → Assigned a.status →
      (input.field "requirements").field "status" = .string "resolved" ∧
        (input.field "policy").field "enforceable" = .bool true ∧
        ((execution input).field "gaps").asArray = some [] ∧ a.unresolvedAlternatives = [] ∧
        ∃ row ∈ candidateRows input, eligible row = true ∧
          configurationId row = a.selected.field "id" ∧
          a.selected.field "configuration" = row.field "configuration") ∧
    (∀ a, Host.comparativeAssessment host schema input = .ok a → a.determination = PREFERENCES →
      ∃ row ∈ candidateRows input, eligible row = true ∧
        configurationId row = a.selected.field "id" ∧ Preferred input row ∧
        ∀ other ∈ candidateRows input, eligible other = true → Preferred input other →
          other = row) ∧
    ∀ input', Permuted host schema input input' →
      ((judgment input ≠ .null → (Bound host input ↔ Bound host input')) →
        ((∃ a, Host.comparativeAssessment host schema input = .ok a) ↔
          ∃ a', Host.comparativeAssessment host schema input' = .ok a')) ∧
      ∀ a a', Host.comparativeAssessment host schema input = .ok a →
        Host.comparativeAssessment host schema input' = .ok a' →
          a.selected.field "id" = a'.selected.field "id" ∧ a.status = a'.status := by
  refine ⟨fun a => assigns_feasible, ?_, ?_⟩
  · intro a hok hdetermination
    obtain ⟨row, hrow, helig, hid, hpreferred⟩ := preferred_selected hok hdetermination
    refine ⟨row, hrow, helig, hid, hpreferred, ?_⟩
    intro other hother hotherElig hotherPreferred
    exact List.inj_on_of_nodup_map hdistinct hother hrow
      (hotherPreferred.unique hpreferred hother hrow hotherElig helig)
  · intro input' P
    refine ⟨fun hbound => ⟨?_, ?_⟩, ?_⟩
    · rintro ⟨a, hok⟩
      obtain ⟨a', hok', -⟩ := P.assessed hdistinct
        (fun hjudged => (hbound hjudged).mp (bound_of_ok hok hjudged)) hok
      exact ⟨a', hok'⟩
    · rintro ⟨a', hok'⟩
      obtain ⟨a, hok, -⟩ := P.symm.assessed (P.distinct hdistinct)
        (fun hjudged => (hbound (mt P.judged.mp hjudged)).mpr (bound_of_ok hok' hjudged)) hok'
      exact ⟨a, hok⟩
    · intro a a' hok hok'
      obtain ⟨a'', hok'', hselected, hstatus⟩ := P.assessed hdistinct
        (fun hjudged => bound_of_ok hok' (mt P.judged.mpr hjudged)) hok
      obtain rfl : a' = a'' := Except.ok.inj (hok'.symm.trans hok'')
      exact ⟨by rw [hselected], hstatus.symm⟩

end Main

/-! ## A run -/

def sampleHost : AgenticCore.Host where
  digest := fun _ => "digest"
  builds := fun _ => true
  accepts := fun _ _ => true
  activity := .ok

def sampleRow (id : String) (guarantees : List String) : Value :=
  .object [
    ("configuration", .object [
      ("execution_guarantees", .strings guarantees),
      ("id", .string id),
      ("target", .string id),
      ("transport", .string "cli")]),
    ("eligible", .bool true)]

def sampleInput : Value :=
  .object [
    ("execution", .object [
      ("configurations", .object [
        ("candidates", .array [sampleRow "local" [], sampleRow "worker" ["cost.bounded"]])]),
      ("gaps", .array [])]),
    ("judgment", .null),
    ("policy", .object [("enforceable", .bool true)]),
    ("requirements", .object [
      ("execution_posture", .object [
        ("preferred_execution_guarantees", .strings ["cost.bounded", "context.large"])]),
      ("status", .string "resolved")])]

/-- The worker is assigned for the one preference it matches. -/
theorem standing_policy_assigns_sample :
    ∃ a, Host.comparativeAssessment sampleHost .null sampleInput = .ok a ∧
      a.status = "assigned-nonlocal-handoff-required" ∧
      a.selected.field "id" = .string "worker" ∧
      ∃ row ∈ candidateRows sampleInput, configurationId row = a.selected.field "id" ∧
        Preferred sampleInput row := by
  have hdistinct : DistinctIds sampleInput := by
    unfold DistinctIds
    decide
  have hok : Host.comparativeAssessment sampleHost .null sampleInput = .ok _ := rfl
  obtain ⟨row, hrow, -, hid, hpreferred, -⟩ :=
    (standing_policy_assigns hdistinct).2.1 _ hok (by decide)
  exact ⟨_, hok, by decide, by decide, row, hrow, hid, hpreferred⟩

end Assignment

end AgenticCore
