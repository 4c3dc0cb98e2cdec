import AgenticCore.ClaimJudgment
import AgenticCore.Registry
import AgenticCore.RepositoryPaths
import AgenticCore.VerificationStrategy

/-!
# What no assessment lowers

* `Bounded`                  : the effective level keeps to the binding requirements and the policy.
* `Owed`                     : an obligation that every assessment leaves in place.
* `Settled.missing_iff`      : a required command is missing until a linked route covers it.
* `selectMode_selected`      : what is selected is not disallowed.
* `soleRequiredChoice_some`  : the one required choice is missing, and nothing else is declared.
* `assessment_keeps_proof`   : all of it, for any two assessments.
-/

set_option autoImplicit false

namespace AgenticCore.VerificationStrategy

open Json Text NativeClaimReview
open Repository (startsWith_append ne_of_startsWith)

/-! ## Levels -/

theorem rank_le_maxByRank {level : String} :
    ∀ {levels : List String}, level ∈ levels →
      ∃ best, maxByRank levels = some best ∧ rank level ≤ rank best
  | first :: rest, h => by
    unfold maxByRank
    rcases List.mem_cons.mp h with rfl | h
    · split
      · exact ⟨_, rfl, le_refl _⟩
      · split
        · exact ⟨_, rfl, le_refl _⟩
        · rename_i hle
          exact ⟨_, rfl, not_lt.mp hle⟩
    · obtain ⟨best, hbest, hle⟩ := rank_le_maxByRank h
      rw [hbest]
      dsimp only
      split
      · rename_i hlt
        exact ⟨_, rfl, by omega⟩
      · exact ⟨_, rfl, hle⟩

theorem maxByRank_mem {best : String} :
    ∀ {levels : List String}, maxByRank levels = some best → best ∈ levels
  | level :: rest, h => by
    unfold maxByRank at h
    split at h
    · cases h
      exact List.mem_cons_self
    · rename_i hrest
      split at h
      · cases h
        exact List.mem_cons_self
      · cases h
        exact List.mem_cons_of_mem _ (maxByRank_mem hrest)

/-- A requirement that applies now and binds. -/
structure Binds (assurance row : Value) : Prop where
  listed : row ∈ requirementRows assurance
  applicable : row.field "status" = .string "applicable"
  binding : binding row = true

theorem rank_requiredLevel {assurance row : Value} {level : String} (h : Binds assurance row)
    (hlevel : levelOf row = some level) : rank level ≤ rank (requiredLevel assurance) := by
  have hmem : level ∈ ((requirementRows assurance).filter fun row =>
      row.field "status" = .string "applicable" && binding row).filterMap levelOf :=
    List.mem_filterMap.mpr ⟨row, List.mem_filter.mpr
      ⟨h.listed, by rw [h.binding, decide_eq_true h.applicable]; rfl⟩, hlevel⟩
  obtain ⟨best, hbest, hle⟩ := rank_le_maxByRank hmem
  rw [requiredLevel, hbest]
  exact hle

/-- The required level is that of a binding row, unless there is none. -/
theorem requiredLevel_of (assurance : Value) : rank (requiredLevel assurance) = 0 ∨
    ∃ row, Binds assurance row ∧ levelOf row = some (requiredLevel assurance) := by
  rw [requiredLevel]
  generalize hbest : maxByRank (((requirementRows assurance).filter fun row =>
    row.field "status" = .string "applicable" && binding row).filterMap levelOf) = best
  cases best with
  | none => exact Or.inl rfl
  | some best =>
    obtain ⟨row, hrow, hlevel⟩ := List.mem_filterMap.mp (maxByRank_mem hbest)
    obtain ⟨hlisted, hrow⟩ := List.mem_filter.mp hrow
    rw [Bool.and_eq_true, decide_eq_true_eq] at hrow
    exact Or.inr ⟨row, ⟨hlisted, hrow.1, hrow.2⟩, hlevel⟩

/-- The bounds of the effective level. -/
structure Bounded (policy assurance : Value) (control : Control) : Prop where
  requirement : ∀ row level, Binds assurance row → levelOf row = some level →
    rank level ≤ rank control.effectiveLevel
  baseline : policy.field "agent_may_deescalate" ≠ .bool true →
    ∀ baseline, policy.field "baseline" = .string baseline →
      rank baseline ≤ rank control.effectiveLevel
  ceiling : policy.field "agent_may_escalate" ≠ .bool true →
    (∃ baseline, policy.field "baseline" = .string baseline ∧
      rank control.effectiveLevel ≤ rank baseline) ∨
    ∃ row level, Binds assurance row ∧ levelOf row = some level ∧
      rank control.effectiveLevel ≤ rank level

theorem levelGaps_denied {policy : Value} {baseline required source level gap : String}
    (h : gap ∈ levelGaps policy baseline required source level) :
    startsWith "assurance-" gap = true := by
  simp only [levelGaps, List.mem_append] at h
  rcases h with (h | h) | h <;> split at h <;>
    simp only [List.mem_singleton, List.not_mem_nil] at h <;> subst h <;> decide

theorem levelGaps_nil {policy : Value} {baseline required source level : String}
    (h : levelGaps policy baseline required source level = []) :
    (rank level ≤ rank source ∨ policy.field "agent_may_escalate" = .bool true) ∧
    (rank baseline ≤ rank level ∨ policy.field "agent_may_deescalate" = .bool true) ∧
    rank required ≤ rank level := by
  simp only [levelGaps, List.append_eq_nil_iff, ite_eq_right_iff, List.cons_ne_nil, imp_false,
    not_and, not_lt, ne_eq, not_not] at h
  obtain ⟨⟨hescalate, hdeescalate⟩, hrequired⟩ := h
  refine ⟨?_, ?_, hrequired⟩
  · by_cases hle : rank level ≤ rank source
    · exact Or.inl hle
    · exact Or.inr (hescalate (not_le.mp hle))
  · by_cases hle : rank baseline ≤ rank level
    · exact Or.inl hle
    · exact Or.inr (hdeescalate (not_le.mp hle))

/-! ## The view -/

section View

variable {digest : Value → String} {policy assurance : Value} {planning assessment : Option Value}
  {detail : Bool} {control : Control}

/-- What asks for a profile: the policy of the repository or the work, not the assessment. -/
def Demanded (assurance : Value) (planning : Option Value) (id : String) : Prop :=
  (∃ row, Binds assurance row ∧ profileOf row = id ∧ id ≠ "") ∨ id ∈ planningProfiles planning

/-- The profiles that the assessment adds. -/
def assessedProfiles (assessment : Option Value) : List String :=
  (assessment.map fun a => strings (a.field "profile_ids")).getD []

def required (assurance : Value) (planning : Option Value) : List String :=
  sortDedup (bindingProfiles assurance ++ planningProfiles planning)

theorem Demanded.required {id : String} (h : Demanded assurance planning id) :
    id ∈ required assurance planning := by
  rw [VerificationStrategy.required, mem_sortDedup, List.mem_append]
  rcases h with ⟨row, hbinds, rfl, hne⟩ | h
  · refine Or.inl (List.mem_filterMap.mpr ⟨row, hbinds.listed, ?_⟩)
    simp [demands, unresolvedRow, hbinds.applicable, hbinds.binding, hne]
  · exact Or.inr h

/-- The selections of a view. -/
structure Viewed (digest : Value → String) (policy assurance : Value)
    (planning assessment : Option Value) (control : Control) (selections : List Selection) :
    Prop where
  selected : (sortDedup (assessedProfiles assessment ++ required assurance planning)).mapM
    (selectProfile digest policy (planningProfiles planning) (required assurance planning)) =
      .ok selections
  profiles : control.selectedProfiles = selections.filterMap (·.profile)
  obligations : control.obligations = control.selectedProfiles.filterMap (·.obligation)
  disallowed : control.disallowedCommands =
    sortDedup (control.selectedProfiles.flatMap (·.disallowedCommands))
  routes : control.routes = control.selectedProfiles.map (·.route)
  gaps : ∀ selection ∈ selections, selection.gaps ⊆ control.gaps

/-- The level of a view. -/
structure Leveled (policy assurance : Value) (assessment : Option Value) (control : Control)
    (baseline assessed : String) : Prop where
  base : policy.field "baseline" = .string baseline
  level : assessed = (assessment.map fun a => asStrOr (a.field "level")).getD
    (if rank baseline < rank (requiredLevel assurance) then requiredLevel assurance else baseline)
  gaps : assessment.isSome → levelGaps policy baseline (requiredLevel assurance)
    (if rank baseline < rank (requiredLevel assurance) then requiredLevel assurance else baseline)
      assessed ⊆ control.gaps
  effective : control.effectiveLevel = if control.gaps.any (startsWith "assurance-") then
    (if rank baseline < rank (requiredLevel assurance) then requiredLevel assurance else baseline)
      else assessed

theorem view_eq_ok (h : view digest policy assurance planning assessment detail = .ok control) :
    (∃ selections, Viewed digest policy assurance planning assessment control selections) ∧
    ∃ baseline assessed, Leveled policy assurance assessment control baseline assessed := by
  simp only [view, Except.bind_eq_ok_iff, okOr_eq_ok, check_eq_ok, Except.pure_eq_ok_iff] at h
  obtain ⟨baseline, hbaseline, -, -, selections, hselections, rfl⟩ := h
  refine ⟨⟨selections, hselections, rfl, rfl, rfl, rfl, fun selection hmem gap hgap => ?_⟩,
    baseline, _, asStr_eq_some hbaseline, rfl, fun hsome gap hgap => ?_, rfl⟩
  · simp only [List.mem_append, List.mem_flatMap]
    exact Or.inl (Or.inr ⟨selection, hmem, hgap⟩)
  · simp only [List.mem_append, hsome, if_true]
    exact Or.inl (Or.inl (Or.inl (Or.inl hgap)))

/-- **The effective level keeps to its bounds.** -/
theorem view_bounded (h : view digest policy assurance planning assessment detail = .ok control) :
    Bounded policy assurance control := by
  obtain ⟨-, baseline, assessed, hlevel⟩ := view_eq_ok h
  generalize hsource : (if rank baseline < rank (requiredLevel assurance) then
    requiredLevel assurance else baseline) = source at hlevel
  obtain ⟨hbaseline, hassessed, hgaps, heffective⟩ := hlevel
  rw [hsource] at hassessed hgaps heffective
  have hbase : rank baseline ≤ rank source := by
    rw [← hsource]
    split <;> omega
  have hrequired : rank (requiredLevel assurance) ≤ rank source := by
    rw [← hsource]
    split <;> omega
  -- The effective level is the source's own, or an assessment that raised no level gap.
  have hcases : control.effectiveLevel = source ∨ levelGaps policy baseline
      (requiredLevel assurance) source control.effectiveLevel = [] := by
    rw [heffective]
    split
    · exact Or.inl rfl
    · rename_i hnone
      cases assessment with
      | none =>
        rw [hassessed]
        exact Or.inl rfl
      | some a =>
        refine Or.inr (List.eq_nil_iff_forall_not_mem.mpr fun gap hgap => hnone ?_)
        exact List.any_eq_true.mpr ⟨gap, hgaps rfl hgap, levelGaps_denied hgap⟩
  have hfloor : rank (requiredLevel assurance) ≤ rank control.effectiveLevel := by
    rcases hcases with heq | hnil
    · rw [heq]
      exact hrequired
    · exact (levelGaps_nil hnil).2.2
  refine ⟨fun row level hbinds hrow => (rank_requiredLevel hbinds hrow).trans hfloor,
    fun hdenied other hother => ?_, fun hdenied => ?_⟩
  · obtain rfl : baseline = other := by
      rw [hbaseline] at hother
      exact Value.string.inj hother
    rcases hcases with heq | hnil
    · rw [heq]
      exact hbase
    · exact (levelGaps_nil hnil).2.1.resolve_right hdenied
  · have hceiling : rank control.effectiveLevel ≤ rank source := by
      rcases hcases with heq | hnil
      · rw [heq]
      · exact (levelGaps_nil hnil).1.resolve_right hdenied
    rw [← hsource] at hceiling
    split at hceiling
    · rename_i hlt
      rcases requiredLevel_of assurance with hzero | ⟨row, hbinds, hrow⟩
      · omega
      · exact Or.inr ⟨row, _, hbinds, hrow, hceiling⟩
    · exact Or.inl ⟨baseline, hbaseline, hceiling⟩

/-! ## Selected profiles -/

/-- The obligation of a profile of the policy, whatever selects it. -/
def obligationOf (digest : Value → String) (source id : String) (profile : Value) : Obligation where
  profileId := id
  requiredCommands := strings (profile.field "required_commands")
  sourceRef := source ++ "#assurance.proof_profiles." ++ id
  sourceRevision := digest profile
  status := "current-proof-evidence-required"

theorem selectProfile_none {planningRequired required : List String} {id : String} {s : Selection}
    (h : selectProfile digest policy planningRequired required id = .ok s)
    (hid : (policy.field "profiles").get? id = none) : unavailable id ∈ s.gaps := by
  unfold selectProfile at h
  rw [hid] at h
  cases h
  exact List.mem_singleton.mpr rfl

theorem selectProfile_some {planningRequired required : List String} {id : String} {s : Selection}
    {profile : Value} (h : selectProfile digest policy planningRequired required id = .ok s)
    (hid : (policy.field "profiles").get? id = some profile) :
    ∃ source p, policy.field "profile_source" = .string source ∧ s.profile = some p ∧ p.id = id ∧
      p.disallowedCommands = strings (profile.field "disallowed_commands") ∧
      p.obligation = if strings (profile.field "required_commands") = [] then none
        else some (obligationOf digest source id profile) := by
  unfold selectProfile at h
  rw [hid] at h
  simp only [Except.bind_eq_ok_iff, okOr_eq_ok, check_eq_ok, Except.pure_eq_ok_iff] at h
  obtain ⟨source, hsource, -, -, rfl⟩ := h
  exact ⟨source, _, asStr_eq_some hsource, rfl, rfl, rfl, rfl⟩

theorem selection_of {selections : List Selection}
    (hv : Viewed digest policy assurance planning assessment control selections) {id : String}
    (hid : id ∈ assessedProfiles assessment ∨ id ∈ required assurance planning) :
    ∃ s ∈ selections, selectProfile digest policy (planningProfiles planning)
      (required assurance planning) id = .ok s :=
  mapM_ok_mem hv.selected id (by rwa [mem_sortDedup, List.mem_append])

/-- A profile that is selected denies its disallowed commands. -/
theorem view_disallows (h : view digest policy assurance planning assessment detail = .ok control)
    {id : String} (hid : id ∈ assessedProfiles assessment ∨ Demanded assurance planning id)
    {profile : Value} (hprofile : (policy.field "profiles").get? id = some profile) {command : String}
    (hcommand : command ∈ strings (profile.field "disallowed_commands")) :
    command ∈ control.disallowedCommands := by
  obtain ⟨⟨selections, hv⟩, -⟩ := view_eq_ok h
  obtain ⟨s, hs, hselect⟩ := selection_of hv (hid.imp_right Demanded.required)
  obtain ⟨source, p, -, hp, -, hdenied, -⟩ := selectProfile_some hselect hprofile
  rw [hv.disallowed, mem_sortDedup, List.mem_flatMap]
  refine ⟨p, ?_, hdenied ▸ hcommand⟩
  rw [hv.profiles]
  exact List.mem_filterMap.mpr ⟨s, hs, hp⟩

/-- What a demanded profile amounts to: a gap where the policy lacks it, nothing where it declares
    no required commands, and otherwise its obligation. -/
inductive Owed (digest : Value → String) (policy : Value) (id : String) :
    Option String → Option Obligation → Prop where
  | unavailable (h : (policy.field "profiles").get? id = none) :
    Owed digest policy id (some (unavailable id)) none
  | empty {profile : Value} (h : (policy.field "profiles").get? id = some profile)
      (hrequired : strings (profile.field "required_commands") = []) :
    Owed digest policy id none none
  | obligation {profile : Value} {source : String}
      (h : (policy.field "profiles").get? id = some profile)
      (hsource : policy.field "profile_source" = .string source)
      (hrequired : strings (profile.field "required_commands") ≠ []) :
    Owed digest policy id none (some (obligationOf digest source id profile))

/-- **What a demanded profile amounts to does not depend on the assessment.** -/
theorem view_owed (h : view digest policy assurance planning assessment detail = .ok control)
    {id : String} (hid : Demanded assurance planning id) :
    ∃ gap obligation, Owed digest policy id gap obligation ∧ (∀ g ∈ gap, g ∈ control.gaps) ∧
      ∀ o ∈ obligation, o ∈ control.obligations := by
  obtain ⟨⟨selections, hv⟩, -⟩ := view_eq_ok h
  obtain ⟨s, hs, hselect⟩ := selection_of hv (Or.inr hid.required)
  cases hprofile : (policy.field "profiles").get? id with
  | none =>
    refine ⟨_, _, .unavailable hprofile, fun g hg => ?_, fun o ho => by cases ho⟩
    cases hg
    exact hv.gaps s hs (selectProfile_none hselect hprofile)
  | some profile =>
    obtain ⟨source, p, hsource, hp, -, -, hobligation⟩ := selectProfile_some hselect hprofile
    by_cases hrequired : strings (profile.field "required_commands") = []
    · exact ⟨_, _, .empty hprofile hrequired, fun g hg => (by cases hg), fun o ho => (by cases ho)⟩
    · refine ⟨_, _, .obligation hprofile hsource hrequired, fun g hg => (by cases hg), fun o ho => ?_⟩
      cases ho
      rw [if_neg hrequired] at hobligation
      rw [hv.obligations]
      refine List.mem_filterMap.mpr ⟨p, ?_, hobligation⟩
      rw [hv.profiles]
      exact List.mem_filterMap.mpr ⟨s, hs, hp⟩

theorem Owed.unique {id : String} {gap gap' : Option String} {o o' : Option Obligation}
    (h : Owed digest policy id gap o) (h' : Owed digest policy id gap' o') : gap = gap' ∧ o = o' := by
  cases h with
  | unavailable h =>
    cases h' with
    | unavailable => exact ⟨rfl, rfl⟩
    | empty h' | obligation h' => cases h.symm.trans h'
  | empty h hrequired =>
    cases h' with
    | unavailable h' => cases h.symm.trans h'
    | empty => exact ⟨rfl, rfl⟩
    | obligation h' _ hrequired' =>
      cases h.symm.trans h'
      exact absurd hrequired hrequired'
  | obligation h hsource hrequired =>
    cases h' with
    | unavailable h' => cases h.symm.trans h'
    | empty h' hrequired' =>
      cases h.symm.trans h'
      exact absurd hrequired' hrequired
    | obligation h' hsource' _ =>
      cases h.symm.trans h'
      cases hsource.symm.trans hsource'
      exact ⟨rfl, rfl⟩

end View

/-! ## Evidence -/

/-- The route is that of the profile, or names a current protocol that names the profile. -/
def LinkedRoute (strategy row : Value) (id route : String) : Prop :=
  route = "profile:" ++ id ∨
    ∃ protocol ∈ strings (((strategy.field "proof_routes").field route).field "protocol_refs"),
      coversProtocol row strategy protocol = true ∧
      ∃ refs, (((strategy.field "protocols").field protocol).field "proof_profiles").asArray =
        some refs ∧ .string id ∈ refs

/-- An admitted observation of the command, on a declared route that is linked to the profile. -/
structure Supports (strategy row : Value) (id command : String) : Prop where
  passed : passed row = true
  checked : (row.field "checked_scope").field "command" = .string command
  observed : (commandCoverage row).field "command" = .string command
  profile : ((strategy.field "proof_routes").field ("profile:" ++ id)).isObject = true
  route : ∃ route commands, (commandCoverage row).field "route_id" = .string route ∧
    (((strategy.field "proof_routes").field route).field "commands").asArray = some commands ∧
    .string command ∈ commands ∧ LinkedRoute strategy row id route

theorem currentCoverage_eq_some {row strategy command : Value} {route : String} :
    currentCoverage row strategy = some (route, command) ↔
      passed row = true ∧ (commandCoverage row).field "route_id" = .string route ∧
      (commandCoverage row).field "command" = command ∧ command.asStr.isSome ∧
      (row.field "checked_scope").field "command" = command ∧
      ∃ commands, (((strategy.field "proof_routes").field route).field "commands").asArray =
        some commands ∧ command ∈ commands := by
  unfold currentCoverage
  constructor
  · intro h
    split at h
    · cases h
    rename_i hpassed
    dsimp only at h
    split at h
    · cases h
    rename_i id hid
    split at h
    · cases h
    rename_i hcommand
    split at h
    · cases h
    rename_i commands hcommands
    split at h
    · rename_i hdeclared
      cases h
      refine ⟨by simpa using hpassed, asStr_eq_some hid, rfl, ?_, hdeclared.1, commands, hcommands,
        hdeclared.2⟩
      rw [Option.isSome_iff_ne_none]
      simpa using hcommand
    · cases h
  · rintro ⟨hpassed, hid, rfl, hcommand, hchecked, commands, hcommands, hmem⟩
    have hnone : ((commandCoverage row).field "command").asStr.isNone = false := by
      rw [Option.isNone_eq_false_iff]
      exact hcommand
    have hroute : ((commandCoverage row).field "route_id").asStr = some route := by
      rw [hid]
      rfl
    simp only [hpassed, hroute, hnone, hcommands, hchecked, hmem, not_true_eq_false, if_false,
      Bool.false_eq_true, and_self, if_true]

theorem coversProfile_iff {strategy row : Value} {id command : String} :
    coversProfile row strategy id (.string command) = true ↔ Supports strategy row id command := by
  unfold coversProfile
  constructor
  · intro h
    split at h
    · cases h
    rename_i route observed hcoverage
    simp only [Bool.and_eq_true, decide_eq_true_eq, Bool.or_eq_true, List.any_eq_true] at h
    obtain ⟨⟨rfl, hprofile⟩, hlinked⟩ := h
    obtain ⟨hpassed, hroute, hobserved, -, hchecked, commands, hcommands, hmem⟩ :=
      currentCoverage_eq_some.mp hcoverage
    refine ⟨hpassed, hchecked, hobserved, hprofile, route, commands, hroute, hcommands, hmem, ?_⟩
    refine hlinked.imp_right ?_
    rintro ⟨protocol, hprotocol, hcovers, hrefs⟩
    split at hrefs
    · cases hrefs
    · rename_i refs hlist
      exact ⟨protocol, hprotocol, hcovers, refs, hlist, of_decide_eq_true hrefs⟩
  · rintro ⟨hpassed, hchecked, hobserved, hprofile, route, commands, hroute, hcommands, hmem, hlinked⟩
    rw [currentCoverage_eq_some.mpr ⟨hpassed, hroute, hobserved, rfl, hchecked, commands, hcommands,
      hmem⟩]
    simp only [Bool.and_eq_true, decide_eq_true_eq, Bool.or_eq_true, List.any_eq_true, true_and]
    refine ⟨hprofile, hlinked.imp_right ?_⟩
    rintro ⟨protocol, hprotocol, hcovers, refs, hlist, hmem⟩
    refine ⟨protocol, hprotocol, hcovers, ?_⟩
    rw [hlist]
    exact decide_eq_true hmem

/-- **A required command is missing until a linked route covers it.** -/
theorem settle_missing {evidence : List Value} {strategy : Value} {o : Obligation} {s : Settled}
    (h : settle evidence strategy o = .ok s) {command : String} :
    command ∈ s.missingCommands ↔ command ∈ o.requiredCommands ∧
      ∀ row ∈ evidence, ¬ Supports strategy row o.profileId command := by
  simp only [settle, Except.bind_eq_ok_iff, Except.pure_eq_ok_iff] at h
  obtain ⟨references, -, rfl⟩ := h
  simp only [List.mem_filter, Option.isNone_iff_eq_none, List.find?_eq_none, coversProfile_iff]

theorem settle_obligation {evidence : List Value} {strategy : Value} {o : Obligation} {s : Settled}
    (h : settle evidence strategy o = .ok s) : s.obligation = o := by
  simp only [settle, Except.bind_eq_ok_iff, Except.pure_eq_ok_iff] at h
  obtain ⟨references, -, rfl⟩ := h
  rfl

/-! ## Blockers -/

theorem requirementGaps_form {assurance : Value} {gap : String} (h : gap ∈ requirementGaps assurance) :
    startsWith "profile-applicability-unresolved:" gap = true := by
  obtain ⟨row, -, hrow⟩ := List.mem_filterMap.mp h
  split at hrow
  · cases hrow
    exact startsWith_append (by decide)
  · cases hrow

/-- What a code of the strategy control starts with. -/
def CODES : List String :=
  ["assurance-", "profile-applicability-unresolved:", "planning-assurance-", "selected-pro",
    "proof-profile-command-role-conflict:", "profile-proof-required:"]

/-- A code that is none of those the review or the assurance evidence settles. -/
theorem leaves_of_code {others : Surroundings} {b : Blocker}
    (h : ∃ code ∈ CODES, startsWith code b.code = true) : others.leaves b = true := by
  have hne : ∀ other : String, (∀ code ∈ CODES, startsWith code other = false) → b.code ≠ other := by
    obtain ⟨code, hcode, hstart⟩ := h
    exact fun other hother => ne_of_startsWith hstart (hother code hcode)
  have hsatisfied : ∀ id : String, b.code ≠ "assurance:" ++ id ++ ":applicable" := fun id =>
    hne _ fun code hcode => by
      fin_cases hcode <;> (rw [startsWith, String.toList_append, String.toList_append]; rfl)
  simp only [Surroundings.leaves, Bool.and_eq_true, Bool.or_eq_true, decide_eq_true_eq,
    List.all_eq_true]
  exact ⟨Or.inr ⟨hne _ (by decide), Or.inl (hne _ (by decide))⟩, fun id _ => hsatisfied id⟩

section Run

variable {digest : Value → String} {s : Sources} {assessment : Option Value}
  {evidence : Value → List Value} {others : Surroundings} {v : Verification}

/-- The pieces of a verification. -/
structure Verified (digest : Value → String) (s : Sources) (assessment : Option Value)
    (evidence : Value → List Value) (others : Surroundings) (v : Verification) : Prop where
  view : view digest s.policy s.assurance s.planning assessment s.detail = .ok v.control
  strategy : s.withControl assessment v.control = .ok v.strategy
  evidence : v.evidence = evidence v.strategy
  settled : List.Forall₂ (fun o t => settle v.evidence v.strategy o = .ok t) v.control.obligations
    v.settled
  blockers : v.blockers = (others.before ++ v.control.gaps.map gapBlocker ++ others.between ++
    v.settled.filterMap obligationBlocker ++ others.after).filter others.leaves

theorem verify_eq_ok (h : s.verify digest assessment evidence others = .ok v) :
    Verified digest s assessment evidence others v := by
  simp only [Sources.verify, Except.bind_eq_ok_iff, Except.pure_eq_ok_iff] at h
  obtain ⟨control, hview, strategy, hstrategy, settled, hsettled, rfl⟩ := h
  exact ⟨hview, hstrategy, rfl, mapM_eq_ok.mp hsettled, rfl⟩

/-- A blocker of the three completion claims under a code. -/
def Blocks (v : Verification) (code : String) : Prop :=
  ∃ b ∈ v.blockers, b.code = code ∧ b.affects = COMPLETION_CLAIMS

theorem Verified.gap_blocks (h : Verified digest s assessment evidence others v) {gap : String}
    (hgap : gap ∈ v.control.gaps) (hcode : ∃ code ∈ CODES, startsWith code gap = true) :
    Blocks v gap := by
  refine ⟨gapBlocker gap, ?_, rfl, rfl⟩
  rw [h.blockers]
  refine List.mem_filter.mpr ⟨?_, leaves_of_code hcode⟩
  simp only [List.mem_append, List.mem_map]
  exact Or.inl (Or.inl (Or.inl (Or.inr ⟨gap, hgap, rfl⟩)))

theorem Verified.missing_blocks (h : Verified digest s assessment evidence others v) {t : Settled}
    (ht : t ∈ v.settled) {command : String} (hmissing : command ∈ t.missingCommands) :
    Blocks v ("profile-proof-required:" ++ t.obligation.profileId) := by
  obtain ⟨b, hblocker, hcode, haffects⟩ : ∃ b, obligationBlocker t = some b ∧
      b.code = "profile-proof-required:" ++ t.obligation.profileId ∧ b.affects = COMPLETION_CLAIMS :=
    ⟨_, if_neg (List.ne_nil_of_mem hmissing), rfl, rfl⟩
  refine ⟨b, ?_, hcode, haffects⟩
  rw [h.blockers]
  refine List.mem_filter.mpr ⟨?_, leaves_of_code ⟨"profile-proof-required:", by decide, ?_⟩⟩
  rotate_left
  · rw [hcode]
    exact startsWith_append (by decide)
  simp only [List.mem_append, List.mem_filterMap]
  exact Or.inl (Or.inr ⟨t, ht, hblocker⟩)

/-- An obligation of the run with its evidence. -/
structure Due (v : Verification) (o : Obligation) : Prop where
  listed : o ∈ v.control.obligations
  settled : ∃ t ∈ v.settled, t.obligation = o ∧
    ∀ command, command ∈ t.missingCommands ↔ command ∈ o.requiredCommands ∧
      ∀ row ∈ v.evidence, ¬ Supports v.strategy row o.profileId command
  blocks : ∀ command ∈ o.requiredCommands,
    (∀ row ∈ v.evidence, ¬ Supports v.strategy row o.profileId command) →
      Blocks v ("profile-proof-required:" ++ o.profileId)

theorem Verified.due (h : Verified digest s assessment evidence others v) {o : Obligation}
    (ho : o ∈ v.control.obligations) : Due v o := by
  obtain ⟨t, ht, hsettle⟩ := h.settled.exists_right o ho
  have hobligation := settle_obligation hsettle
  refine ⟨ho, ⟨t, ht, hobligation, fun command => settle_missing hsettle⟩,
    fun command hrequired hnone => ?_⟩
  rw [← hobligation]
  exact h.missing_blocks ht ((settle_missing hsettle).mpr ⟨hrequired, hnone⟩)

/-! ## Selection -/

/-- What the strategy says after the control is in it. -/
theorem withControl_fields {control : Control} {strategy : Value}
    (h : s.withControl assessment control = .ok strategy) :
    strategy.field "disallowed_commands" = .strings control.disallowedCommands ∧
      (strategy.field "proof_routes").isObject = true := by
  simp only [Sources.withControl, Except.bind_eq_ok_iff, Except.pure_eq_ok_iff] at h
  obtain ⟨routes, -, rfl⟩ := h
  have hnodup : ∀ members : List (String × Option Value), members.map Prod.fst =
      ["assessment", "assurance_request", "assurance_source_revision", "disallowed_commands",
        "execution", "proof_routes", "proof_scope", "protocols", "scenarios",
        "selected_profile_identity", "selection_blocked", "source"] →
      (members.map Prod.fst).Nodup := fun members hkeys => by
    rw [hkeys]
    decide
  constructor
  · rw [Value.field, record_get? (hnodup _ rfl)]
    rfl
  · rw [Value.field, record_get? (hnodup _ rfl)]
    rfl

theorem blocked_status (reason : Value) (choices : List Value) :
    (blocked reason choices).field "status" = .string "blocked" := by
  rfl

/-- **What is selected is a command that no selected profile disallows.** -/
theorem selectMode_selected {strategy choice r : Value} {report : Option Value} {alternatives : Bool}
    {prepare : Value → Result Value}
    (h : selectMode strategy (some choice) report alternatives prepare = .ok r)
    (hselected : r.field "status" = .string "selected") :
    ∃ command, choice.field "command" = .string command ∧
      .string command ∉ itemsOf (strategy.field "disallowed_commands") := by
  unfold selectMode at h
  split at h
  · cases h
    exact absurd ((blocked_status _ _).symm.trans hselected) (by decide)
  simp only [Except.bind_eq_ok_iff, check_eq_ok, okOr_eq_ok] at h
  obtain ⟨-, -, command, hcommand, h⟩ := h
  split at h
  · cases h
    exact absurd ((blocked_status _ _).symm.trans hselected) (by decide)
  split at h
  · cases h
    exact absurd ((blocked_status _ _).symm.trans hselected) (by decide)
  rename_i hallowed
  exact ⟨command, asStr_eq_some hcommand, hallowed⟩

/-! ## The one required choice -/

/-- A command that is still to be observed: a required one of an obligation, or one of an admitted
    instruction check. -/
inductive Outstanding (v : Verification) (checks : List Value) (route command : String) : Prop where
  | obligation {t : Settled} (ht : t ∈ v.settled)
      (hroute : route = "profile:" ++ t.obligation.profileId) (h : command ∈ t.missingCommands) :
    Outstanding v checks route command
  | check {check : Value} (hcheck : check ∈ checks)
      (hstatus : check.field "status" = .string "evidence-required")
      (hroute : check.field "route_id" = .string route)
      (hcommand : ∃ commands, (((v.strategy.field "proof_routes").field route).field
        "commands").asArray = some commands ∧ .string command ∈ commands)
      (hnone : ∀ row ∈ v.evidence, observes route command row = false) :
    Outstanding v checks route command

theorem checkCommands_mem {strategy check : Value} {evidence : List Value}
    {commands : List (String × String)} (h : checkCommands strategy evidence check = some commands)
    {route command : String} (hmem : (route, command) ∈ commands) :
    check.field "route_id" = .string route ∧
      (∃ declared, (((strategy.field "proof_routes").field route).field "commands").asArray =
        some declared ∧ .string command ∈ declared) ∧
      ∀ row ∈ evidence, observes route command row = false := by
  simp only [checkCommands, Option.bind_eq_bind, Option.bind_eq_some_iff, Option.pure_def,
    Option.some.injEq] at h
  obtain ⟨id, hid, declared, hdeclared, rfl⟩ := h
  obtain ⟨c, hc, heq⟩ := List.mem_map.mp hmem
  cases heq
  obtain ⟨hc, hnone⟩ := List.mem_filter.mp hc
  obtain ⟨d, hd, hstring⟩ := List.mem_filterMap.mp hc
  rw [asStr_eq_some hstring] at hd
  refine ⟨asStr_eq_some hid, ⟨declared, hdeclared, hd⟩, fun row hrow => ?_⟩
  rw [Bool.not_eq_true', List.any_eq_false] at hnone
  exact Bool.eq_false_iff.mpr (hnone row hrow)

theorem of_guard {p : Prop} [Decidable p] {u : Unit} (h : (guard p : Option Unit) = some u) : p := by
  unfold guard at h
  split at h
  · assumption
  · cases h

theorem option_mapM_mem {α β : Type} {f : α → Option β} :
    ∀ {l : List α} {r : List β}, l.mapM f = some r → ∀ b ∈ r, ∃ a ∈ l, f a = some b
  | [], r, h, b, hb => by
    rw [List.mapM_nil] at h
    cases h
    exact absurd hb List.not_mem_nil
  | a :: l, r, h, b, hb => by
    rw [List.mapM_cons] at h
    simp only [Option.bind_eq_bind, Option.bind_eq_some_iff, Option.pure_def, Option.some.injEq] at h
    obtain ⟨first, hfirst, rest, hrest, rfl⟩ := h
    rcases List.mem_cons.mp hb with rfl | hb
    · exact ⟨a, List.mem_cons_self, hfirst⟩
    · obtain ⟨a', ha', heq⟩ := option_mapM_mem hrest b hb
      exact ⟨a', List.mem_cons_of_mem _ ha', heq⟩

/-- **The sole choice is outstanding, and no current route declares another command.** -/
theorem soleRequiredChoice_some {policy : Value} {checks : List Value} {unresolved : Bool}
    {route command : String}
    (h : soleRequiredChoice v policy checks unresolved = some (route, command)) :
    Outstanding v checks route command ∧
      ∃ routes, (v.strategy.field "proof_routes").asObject = some routes ∧
        ∀ entry ∈ routes, ∀ c ∈ itemsOf (entry.2.field "commands"),
          entry.1 = route ∧ c = .string command := by
  simp only [soleRequiredChoice, Option.bind_eq_bind, Option.bind_eq_some_iff] at h
  obtain ⟨-, -, -, -, fromChecks, hchecks, h⟩ := h
  split at h
  · rename_i route' command' hdedup
    simp only [Option.bind_eq_some_iff, Option.pure_def, Option.some.injEq, Prod.mk.injEq] at h
    obtain ⟨routes, hroutes, _, hall, rfl, rfl⟩ := h
    refine ⟨?_, routes, hroutes, of_guard hall⟩
    have hmem : (route', command') ∈ (v.settled.flatMap fun s => s.missingCommands.map fun command =>
        ("profile:" ++ s.obligation.profileId, command)) ++ fromChecks.flatten := by
      rw [← List.mem_dedup, hdedup]
      exact List.mem_singleton.mpr rfl
    rcases List.mem_append.mp hmem with hmem | hmem
    · obtain ⟨t, ht, hmem⟩ := List.mem_flatMap.mp hmem
      obtain ⟨c, hc, heq⟩ := List.mem_map.mp hmem
      cases heq
      exact .obligation ht rfl hc
    · obtain ⟨commands, hcommands, hmem⟩ := List.mem_flatten.mp hmem
      obtain ⟨check, hcheck, heq⟩ := option_mapM_mem hchecks commands hcommands
      obtain ⟨hlisted, hstatus⟩ := List.mem_filter.mp hcheck
      obtain ⟨hroute, hdeclared, hnone⟩ := checkCommands_mem heq hmem
      exact .check hlisted (of_decide_eq_true hstatus) hroute hdeclared hnone
  · cases h

/-! ## Two assessments -/

/-- What one run keeps to. -/
structure Keeps (s : Sources) (assessment : Option Value) (v : Verification) : Prop where
  level : Bounded s.policy s.assurance v.control
  /-- A selected command is one that no selected profile disallows. -/
  selection : ∀ choice report alternatives prepare r,
    selectMode v.strategy (some choice) report alternatives prepare = .ok r →
    r.field "status" = .string "selected" →
    ∃ command, choice.field "command" = .string command ∧ ∀ id profile,
      (id ∈ assessedProfiles assessment ∨ Demanded s.assurance s.planning id) →
      (s.policy.field "profiles").get? id = some profile →
      command ∉ strings (profile.field "disallowed_commands")
  sole : ∀ checks unresolved route command,
    soleRequiredChoice v s.policy checks unresolved = some (route, command) →
    Outstanding v checks route command ∧
      ∃ routes, (v.strategy.field "proof_routes").asObject = some routes ∧
        ∀ entry ∈ routes, ∀ c ∈ itemsOf (entry.2.field "commands"),
          entry.1 = route ∧ c = .string command

theorem Verified.keeps (h : Verified digest s assessment evidence others v) :
    Keeps s assessment v where
  level := view_bounded h.view
  selection choice report alternatives prepare r hr hselected := by
    obtain ⟨command, hcommand, hallowed⟩ := selectMode_selected hr hselected
    refine ⟨command, hcommand, fun id profile hid hprofile hdenied => hallowed ?_⟩
    rw [(withControl_fields h.strategy).1]
    exact List.mem_map.mpr ⟨command, view_disallows h.view hid hprofile hdenied, rfl⟩
  sole _ _ _ _ hsole := soleRequiredChoice_some hsole

/-- **No assessment lowers binding proof.** Under any two assessments each run keeps to the levels,
    to the disallowed commands and to what is outstanding, and a profile that the work is held to
    blocks completion in both runs alike: as a gap where the policy lacks it, and otherwise by each
    of its required commands until a linked route covers it. -/
theorem assessment_keeps_proof {assessment' : Option Value} {evidence' : Value → List Value}
    {others' : Surroundings} {v' : Verification}
    (h : s.verify digest assessment evidence others = .ok v)
    (h' : s.verify digest assessment' evidence' others' = .ok v') :
    Keeps s assessment v ∧ Keeps s assessment' v' ∧
    ∀ id, Demanded s.assurance s.planning id →
      ∃ gap obligation, Owed digest s.policy id gap obligation ∧
        (∀ g ∈ gap, Blocks v g ∧ Blocks v' g) ∧ ∀ o ∈ obligation, Due v o ∧ Due v' o := by
  have hv := verify_eq_ok h
  have hv' := verify_eq_ok h'
  refine ⟨hv.keeps, hv'.keeps, fun id hid => ?_⟩
  obtain ⟨gap, obligation, howed, hgap, hobligation⟩ := view_owed hv.view hid
  obtain ⟨gap', obligation', howed', hgap', hobligation'⟩ := view_owed hv'.view hid
  obtain ⟨rfl, rfl⟩ := howed.unique howed'
  refine ⟨gap, obligation, howed, fun g hg => ?_, fun o ho => ?_⟩
  · have hcode : ∃ code ∈ CODES, startsWith code g = true := by
      cases howed with
      | unavailable =>
        cases hg
        exact ⟨"selected-pro", by decide, startsWith_append (by decide)⟩
      | empty | obligation => cases hg
    exact ⟨hv.gap_blocks (hgap g hg) hcode, hv'.gap_blocks (hgap' g hg) hcode⟩
  · exact ⟨hv.due (hobligation o ho), hv'.due (hobligation' o ho)⟩

end Run

/-! ## A profile that requires nothing -/

/-- One requirement that holds the work to the profile `p`. -/
def sampleSources (profile : Value) : Sources where
  policy := .object [("agent_may_deescalate", .bool false), ("agent_may_escalate", .bool true),
    ("baseline", .string "low"), ("profile_source", .string MANIFEST),
    ("profiles", .object [("p", profile)])]
  assurance := .object [("requirements", .array [.object [("force", .string "blocking"),
    ("id", .string "r"), ("source_requirement", .object [("level", .string "medium"),
      ("proof_profile", .string "p")]), ("status", .string "applicable")]])]
  planning := none
  detail := false
  protocols := .object []
  proofRoutes := []
  scenarios := .object []
  execution := none
  assuranceSourceRevision := .null
  assuranceRequest := .null
  proofScope := .object []

def sampleAssessment : Value :=
  .object [("level", .string "high"), ("profile_ids", .array []), ("reason", .string "risky")]

def sampleOthers : Surroundings := ⟨[], [], [], true, true, ["r"]⟩

def sampleDigest (v : Value) : String := text v

theorem sample_demanded (profile : Value) :
    Demanded (sampleSources profile).assurance (sampleSources profile).planning "p" :=
  Or.inl ⟨_, ⟨List.mem_singleton.mpr rfl, rfl, rfl⟩, rfl, by decide⟩

theorem assessment_keeps_proof_sample : ∃ v v',
    (sampleSources (.object [("required_commands", .strings ["cargo test"])])).verify sampleDigest
      none (fun _ => []) sampleOthers = .ok v ∧
    (sampleSources (.object [("required_commands", .strings ["cargo test"])])).verify sampleDigest
      (some sampleAssessment) (fun _ => []) sampleOthers = .ok v' ∧
    ∃ gap obligation, Owed sampleDigest (sampleSources
        (.object [("required_commands", .strings ["cargo test"])])).policy "p" gap obligation ∧
      (∀ g ∈ gap, Blocks v g ∧ Blocks v' g) ∧ ∀ o ∈ obligation, Due v o ∧ Due v' o := by
  obtain ⟨v, hv⟩ := Except.isOk_iff.mp (show ((sampleSources (.object [("required_commands",
    .strings ["cargo test"])])).verify sampleDigest none (fun _ => []) sampleOthers).isOk = true by
      decide)
  obtain ⟨v', hv'⟩ := Except.isOk_iff.mp (show ((sampleSources (.object [("required_commands",
    .strings ["cargo test"])])).verify sampleDigest (some sampleAssessment) (fun _ => [])
      sampleOthers).isOk = true by decide)
  exact ⟨v, v', hv, hv', (assessment_keeps_proof hv hv').2.2 "p" (sample_demanded _)⟩

/-- **A profile that a binding requirement demands, and that declares no required command, is
    neither an obligation nor a gap.** -/
theorem optional_profile_owes_nothing : ∃ v,
    (sampleSources (.object [("optional_commands", .strings ["cargo test"])])).verify sampleDigest
      none (fun _ => []) sampleOthers = .ok v ∧
    Demanded (sampleSources (.object [("optional_commands", .strings ["cargo test"])])).assurance
      none "p" ∧
    v.control.obligations = [] ∧ v.control.gaps = [] ∧ v.blockers = [] := by
  obtain ⟨v, hv⟩ := Except.isOk_iff.mp (show ((sampleSources (.object [("optional_commands",
    .strings ["cargo test"])])).verify sampleDigest none (fun _ => []) sampleOthers).isOk = true by
      decide)
  have hempty : ((sampleSources (.object [("optional_commands", .strings ["cargo test"])])).verify
      sampleDigest none (fun _ => []) sampleOthers).toOption.map (fun v =>
        (v.control.obligations.length, v.control.gaps, v.blockers.length)) = some (0, [], 0) := by
    decide
  rw [hv] at hempty
  simp only [Except.toOption, Option.map_some, Option.some.injEq, Prod.mk.injEq,
    List.length_eq_zero_iff] at hempty
  exact ⟨v, hv, sample_demanded _, hempty⟩

end AgenticCore.VerificationStrategy
