import AgenticCore.InstructionResolution
import AgenticCore.OrderIndependence

/-!
# Instructions whose applicability is unknown

What an instruction source restricts when its routes are selected, and when they are not resolved.

* `PathScope`, `RouteScope` : the conditions of a source, on the paths and on the routes.
* `Concerned`               : the source applies, or it cannot be told.
* `restricts_iff`           : **what a resolution restricts, document by document**.
* `Escapes`                 : a governed source that only a change of its governing sources concerns.
* `fails_closed_iff`        : **what selected routes restrict stays restricted while they are
                              unresolved, exactly when no source escapes**.
-/

set_option autoImplicit false

namespace AgenticCore.InstructionSource

open Json Text Repository
open InstructionApplicability (Applicability Input matchesPattern patternsOverlap trimSlashes forwardSlashes
  selects)

/-! ## Scopes -/

/-- The source has no paths of its own, or one of them meets a changed or a target path. -/
def PathScope (input : Input) : Prop :=
  input.paths = [] ∨
    (∃ path ∈ input.changedPaths, ∃ pattern ∈ input.paths,
      matchesPattern pattern (forwardSlashes path) = true) ∨
    ∃ pattern ∈ input.paths, ∃ target ∈ input.targetPatterns, patternsOverlap pattern target = true

/-- A route of the source is selected. -/
def RouteScope (input : Input) : Prop :=
  ∃ selector ∈ input.routes, ∃ route ∈ input.selectedRoutes,
    selects (trimSlashes (trim selector)) (trimSlashes (trim route)) = true

/-- The source's routes let it apply. -/
def RouteApplies (input : Input) : Prop :=
  input.routes = [] ∨ input.routePosture = "selected" ∧ RouteScope input

/-- Whether the source applies cannot be told. -/
def Unresolved (input : Input) : Prop :=
  PathScope input ∧ input.routes ≠ [] ∧ input.routePosture = "unresolved"

/-- What the evaluated scope says. -/
structure Evaluated (input : Input) (a : Applicability) : Prop where
  path : a.pathApplies = true ↔ PathScope input
  route : a.routeApplies = true ↔ RouteApplies input
  applies : a.applies = true ↔ PathScope input ∧ RouteApplies input
  unresolved : a.status = "unresolved" ↔ Unresolved input

theorem sortDedup_ne_nil {l : List String} : sortDedup l ≠ [] ↔ ∃ x, x ∈ l := by
  simp only [ne_eq, List.eq_nil_iff_forall_not_mem, mem_sortDedup, not_forall, not_not]

theorem applicability_evaluated {input : Input} {a : Applicability}
    (h : InstructionApplicability.applicability input = .ok a) : Evaluated input a := by
  simp only [InstructionApplicability.applicability, Except.bind_eq_ok_iff, Except.pure_eq_ok_iff] at h
  obtain ⟨-, -, -, -, rfl⟩ := h
  have hmatched : sortDedup ((input.changedPaths.map forwardSlashes).filter fun p =>
      input.paths.any (matchesPattern · p)) ≠ [] ↔ ∃ path ∈ input.changedPaths,
        ∃ pattern ∈ input.paths, matchesPattern pattern (forwardSlashes path) = true := by
    rw [sortDedup_ne_nil]
    simp
  have hpath : (decide (input.paths = [] ∨
      sortDedup ((input.changedPaths.map forwardSlashes).filter fun p =>
        input.paths.any (matchesPattern · p)) ≠ [] ∨
      input.paths.any (fun p => input.targetPatterns.any (patternsOverlap p ·)) = true)) = true ↔
        PathScope input := by
    rw [decide_eq_true_eq, hmatched]
    simp [PathScope]
  have hroute : (decide (input.routes = [] ∨ input.routePosture = "selected" ∧
      (input.routes.map fun r => trimSlashes (trim r)).any (fun s =>
        (input.selectedRoutes.map fun r => trimSlashes (trim r)).any (selects s ·)) = true)) = true ↔
        RouteApplies input := by
    rw [decide_eq_true_eq]
    simp [RouteApplies, RouteScope]
  refine ⟨hpath, hroute, ?_, ?_⟩
  · rw [Bool.and_eq_true, hpath, hroute]
  · show (if _ then "unresolved" else _) = "unresolved" ↔ _
    split
    · rename_i h
      rw [decide_eq_true_eq] at h
      exact ⟨fun _ => ⟨hpath.mp h.1, h.2⟩, fun _ => rfl⟩
    · rename_i h
      rw [decide_eq_true_eq] at h
      constructor
      · intro hstatus
        split at hstatus
        · exact absurd hstatus (by decide)
        · exact absurd hstatus (by decide)
      · intro hunresolved
        exact absurd ⟨hpath.mpr hunresolved.1, hunresolved.2⟩ h

/-! ## Documents -/

variable {host : Host} {files : Files} {target pin : String} {changed changed' targets targets' : List String}
  {route route' : Value} {document : Value} {scope : String}

/-- A source that governs this one has changed. -/
def SourceChange (metadata : Value) (changed : List String) : Prop :=
  ∃ source ∈ upstream metadata, source ∈ changed

/-- The source applies, or it cannot be told whether it does. -/
def Concerned (metadata : Value) (changed : List String) (route : Value) (targets : List String) : Prop :=
  let input := scopeInput metadata changed route targets
  (PathScope input ∨ SourceChange metadata changed) ∧ RouteApplies input ∨ Unresolved input

/-- What a source restricts that is concerned. -/
def Binds (metadata : Value) (changed : List String) (scope : String) : Prop :=
  scope = "claim:complete" ∧ (reconciles metadata = true ∨ runsChecks metadata = true) ∨
    scope ∈ protections metadata changed

/-- What a document restricts. -/
def Restricted (document : Value) (changed : List String) (route : Value) (targets : List String)
    (scope : String) : Prop :=
  document.field "valid" ≠ .bool true ∧ scope = "task" ∨
    document.field "valid" = .bool true ∧
      Concerned (document.field "metadata") changed route targets ∧
      Binds (document.field "metadata") changed scope

theorem Unresolved.not_routeApplies {input : Input} (h : Unresolved input) : ¬ RouteApplies input := by
  rintro (hroutes | ⟨hposture, -⟩)
  · exact h.2.1 hroutes
  · rw [h.2.2] at hposture
    exact absurd hposture (by decide)

/-- The scope with the changes of governing sources. -/
theorem scopeWith_iff {metadata : Value} {a : Applicability}
    (h : Evaluated (scopeInput metadata changed route targets) a) :
    ((scopeWith metadata changed a).applies = true ↔
      (PathScope (scopeInput metadata changed route targets) ∨ SourceChange metadata changed) ∧
        RouteApplies (scopeInput metadata changed route targets)) ∧
    ((scopeWith metadata changed a).status = "unresolved" ↔
      Unresolved (scopeInput metadata changed route targets)) := by
  have hchange : (upstream metadata).any (· ∈ changed) = true ↔ SourceChange metadata changed := by
    simp [SourceChange]
  unfold scopeWith
  split
  · rename_i hcond
    rw [Bool.and_eq_true, hchange, h.route] at hcond
    refine ⟨⟨fun _ => ⟨Or.inr hcond.1, hcond.2⟩, fun _ => rfl⟩, ⟨fun hstatus => ?_, fun hunresolved => ?_⟩⟩
    · exact absurd hstatus (show "applicable" ≠ "unresolved" by decide)
    · exact absurd hcond.2 hunresolved.not_routeApplies
  · rename_i hcond
    rw [Bool.and_eq_true, hchange, h.route] at hcond
    refine ⟨?_, h.unresolved⟩
    rw [h.applies]
    tauto

theorem hard_of_binds {metadata : Value} (h : Binds metadata changed scope) : hard metadata = true := by
  simp only [hard, Bool.or_eq_true, decide_eq_true_eq]
  rcases h with ⟨-, hreconciles | hchecks⟩ | hprotects
  · rw [reconciles, Bool.or_eq_true, decide_eq_true_eq, decide_eq_true_eq] at hreconciles
    unfold upstream at hreconciles
    tauto
  · exact Or.inr hchecks
  · obtain ⟨pattern, hpattern, -⟩ := List.mem_flatMap.mp hprotects
    exact Or.inl (Or.inl (Or.inl (List.ne_nil_of_mem hpattern)))

theorem mem_affected {metadata : Value} {unresolved : Bool} :
    scope ∈ affected metadata changed unresolved ↔
      scope = "claim:complete" ∧
        ((unresolved = true ∧ reconciles metadata = true) ∨ runsChecks metadata = true) ∨
      scope ∈ protections metadata changed := by
  rw [affected, mem_sortDedup, List.mem_append, List.mem_append]
  have hmem : ∀ {cond : Bool}, scope ∈ (if cond = true then ["claim:complete"] else []) ↔
      cond = true ∧ scope = "claim:complete" := fun {cond} => by
    cases cond <;> simp
  rw [hmem, hmem, Bool.and_eq_true]
  tauto

/-- What the blockers of a hard source restrict. -/
theorem hardBlockers_restrict {reference source : String} {metadata binding : Value}
    {applicable unresolved : Bool} (h : applicable = true ∨ unresolved = true) :
    (∃ b ∈ hardBlockers reference metadata binding changed applicable unresolved,
      b.source = source ∧ scope ∈ b.affects) ↔ reference = source ∧ Binds metadata changed scope := by
  have haffected : ∀ {code message : String},
      (∃ b ∈ (if affected metadata changed unresolved = [] then ([] : List SourceBlocker)
        else [⟨reference, code, message, affected metadata changed unresolved, none⟩]),
          b.source = source ∧ scope ∈ b.affects) ↔
        reference = source ∧ scope ∈ affected metadata changed unresolved := by
    intro code message
    split
    · rename_i hnil
      rw [hnil]
      simp
    · simp
  simp only [hardBlockers, List.mem_append, or_and_right, exists_or, haffected, mem_affected]
  have hreconcile : (∃ b ∈ (if (applicable && reconciles metadata) = true then
      [({ source := reference, code := "source-reconciliation-required", message := RECONCILE
          affects := ["claim:complete"], recovery := some ("public-request:" ++ RECONCILIATION) }
          : SourceBlocker)] else []), b.source = source ∧ scope ∈ b.affects) ↔
      (applicable = true ∧ reconciles metadata = true) ∧ reference = source ∧
        scope = "claim:complete" := by
    cases hcond : applicable && reconciles metadata with
    | true =>
      rw [Bool.and_eq_true] at hcond
      simp [hcond]
    | false =>
      rw [Bool.and_eq_false_iff] at hcond
      rcases hcond with hcond | hcond <;> simp [hcond]
  rw [hreconcile, Binds]
  tauto

/-- **What the blockers of one document restrict.** -/
theorem resolveDocument_restricts {source : String} {r : Resolved}
    (h : host.resolveDocument files target changed route pin targets document = .ok r) :
    (∃ b ∈ r.blockers, b.source = source ∧ scope ∈ b.affects) ↔
      referenceOf document = source ∧ Restricted document changed route targets scope := by
  simp only [Host.resolveDocument, applicability, Except.bind_eq_ok_iff, check_eq_ok,
    Except.pure_eq_ok_iff] at h
  obtain ⟨a, ⟨-, -, ha⟩, ⟨current, procedures⟩, -, rfl⟩ := h
  obtain ⟨happlies, hunresolved⟩ := scopeWith_iff (applicability_evaluated ha)
  simp only [documentBlockers, Restricted]
  by_cases hvalid : document.field "valid" = .bool true
  · simp only [hvalid, decide_true, if_true, List.nil_append, Bool.true_and, ne_eq, not_true_eq_false,
      false_and, true_and, false_or, Concerned]
    rw [← happlies, ← hunresolved]
    split
    · rename_i hcond
      rw [Bool.and_eq_true, Bool.or_eq_true, beq_iff_eq] at hcond
      rw [hardBlockers_restrict (by simpa using hcond.1)]
      tauto
    · rename_i hcond
      rw [Bool.and_eq_true, Bool.or_eq_true, beq_iff_eq] at hcond
      constructor
      · rintro ⟨b, hb, -⟩
        cases hb
      · rintro ⟨-, hconcerned, hbinds⟩
        exact absurd ⟨hconcerned, hard_of_binds hbinds⟩ hcond
  · simp [hvalid, eq_comm]

/-! ## The documents of a resolution -/

/-- Every document is the only one of its source, and names an instruction source. -/
def Distinct (documents : List Value) : Prop :=
  (documents.map referenceOf).Nodup ∧
    ∀ d ∈ documents, (sourceScope (referenceOf d)).isSome = true

theorem currentDocument_reference {path : String} {d : Value}
    (h : host.currentDocument files path false = .ok d) :
    referenceOf d = path ∧ (sourceScope path).isSome = true := by
  simp only [Host.currentDocument, Except.bind_eq_ok_iff, okOr_eq_ok, Except.pure_eq_ok_iff] at h
  obtain ⟨scope, hscope, bytes, -, rfl⟩ := h
  exact ⟨rfl, by rw [hscope]; rfl⟩

theorem nodup_listed : (listed files).Nodup := by
  have hinj : ∀ directory : String,
      Function.Injective fun name : String => directory ++ "/" ++ name := fun directory a b h => by
    have hlist := congrArg String.toList h
    simp only [String.toList_append, List.append_assoc] at hlist
    exact String.toList_inj.mp (List.append_cancel_left (List.append_cancel_left hlist))
  have hnames : ∀ directory, (((entries files directory).filter fun name =>
      endsWith ".md" name = true).map fun name => directory ++ "/" ++ name).Nodup := fun directory =>
    ((nodup_sortDedup _).filter _).map (hinj directory)
  have hapart : ∀ a b : String, REPOSITORY ++ "/" ++ a ≠ LOCAL ++ "/" ++ b := fun a b =>
    ne_of_startsWith (startsWith_append (@startsWith_append ".agentic-workspace/i" _ _ (by decide)))
      (by
        rw [startsWith, String.toList_append]
        rfl)
  unfold listed
  simp only [List.flatMap_cons, List.flatMap_nil, List.append_nil, List.nodup_append]
  refine ⟨hnames _, hnames _, ?_⟩
  intro a ha b hb
  obtain ⟨x, -, rfl⟩ := List.mem_map.mp ha
  obtain ⟨y, -, rfl⟩ := List.mem_map.mp hb
  exact hapart x y

theorem currentDocuments_references {paths : List String} {observed : List Value}
    (h : List.Forall₂ (fun path d => host.currentDocument files path false = .ok d) paths observed) :
    observed.map referenceOf = paths ∧
      ∀ d ∈ observed, (sourceScope (referenceOf d)).isSome = true := by
  induction h with
  | nil => exact ⟨rfl, by simp⟩
  | cons hd _ ih =>
    obtain ⟨hreference, hscope⟩ := currentDocument_reference hd
    rw [List.map_cons, hreference, ih.1]
    refine ⟨rfl, fun e he => ?_⟩
    rcases List.mem_cons.mp he with rfl | he
    · rw [hreference]
      exact hscope
    · exact ih.2 e he

theorem currentSources_distinct {observed : List Value}
    (h : host.currentSources files = .ok observed) : Distinct observed := by
  simp only [Host.currentSources, Except.bind_eq_ok_iff, check_eq_ok] at h
  obtain ⟨-, -, -, -, h⟩ := h
  obtain ⟨hreferences, hscopes⟩ := currentDocuments_references (mapM_eq_ok.mp h)
  refine ⟨?_, hscopes⟩
  rw [hreferences]
  exact (List.perm_insertionSort _ _).nodup_iff.mpr nodup_listed

theorem isAt_reference {path : String} {d : Value} (h : isAt path d = true) : referenceOf d = path := by
  rw [isAt, decide_eq_true_eq] at h
  rw [referenceOf, h]
  rfl

theorem isAt_of_reference {path : String} {d : Value} (hscope : (sourceScope path).isSome = true)
    (h : referenceOf d = path) : isAt path d = true := by
  rw [isAt, decide_eq_true_eq]
  unfold referenceOf at h
  cases hreference : (d.field "source").field "reference" with
  | string s =>
    rw [hreference] at h
    exact congrArg Value.string h
  | null | bool | number | array | object =>
    rw [hreference] at h
    rw [← h] at hscope
    exact absurd hscope (show ¬ (sourceScope "").isSome = true by decide)

theorem referenceOf_retain {bytes : ByteArray} {source : Value} :
    referenceOf (retain (parsed bytes false) source) = ((source.field "reference").asStr).getD "" := rfl

theorem replaceFirst_references {p : Value → Bool} {v : Value} :
    ∀ {l : List Value}, (∀ d ∈ l, p d = true → referenceOf d = referenceOf v) →
      (replaceFirst p v l).map referenceOf = l.map referenceOf
  | [], _ => rfl
  | d :: l, h => by
    rw [replaceFirst]
    split
    · rename_i hd
      rw [List.map_cons, List.map_cons, h d List.mem_cons_self hd]
    · rw [List.map_cons, List.map_cons,
        replaceFirst_references fun e he => h e (List.mem_cons_of_mem _ he)]

theorem distinct_of_references {l l' : List Value} (h : Distinct l)
    (heq : l'.map referenceOf = l.map referenceOf) : Distinct l' := by
  refine ⟨heq ▸ h.1, fun d hd => ?_⟩
  have hmem : referenceOf d ∈ l.map referenceOf := heq ▸ List.mem_map_of_mem hd
  obtain ⟨e, he, hreference⟩ := List.mem_map.mp hmem
  rw [← hreference]
  exact h.2 e he

/-- One candidate keeps the sources distinct. -/
theorem preserve_distinct {current next : List Value} {candidate : String × ByteArray}
    (hcurrent : Distinct current) (hscope : (sourceScope candidate.1).isSome = true)
    (h : host.preserve files target current candidate = .ok next) : Distinct next := by
  obtain ⟨path, bytes⟩ := candidate
  simp only [Host.preserve] at h
  split at h
  · rw [← Except.ok.inj h]
    exact hcurrent
  · split at h
    · rename_i d hfound
      split at h
      · rw [← Except.ok.inj h]
        exact hcurrent
      · obtain ⟨committed, -, h⟩ := Except.bind_eq_ok_iff.mp h
        split at h
        · rw [← Except.pure_eq_ok_iff.mp h]
          exact hcurrent
        · rw [← Except.pure_eq_ok_iff.mp h]
          refine distinct_of_references hcurrent (replaceFirst_references fun e he hat => ?_)
          have hpath := isAt_reference hat
          have hd := isAt_reference (List.find?_some hfound)
          rw [hpath, ← hd]
          rfl
    · rename_i hnone
      rw [← Except.ok.inj h]
      have hreference : referenceOf (retain (parsed bytes false)
          (sourceOf path (host.revision bytes) (sourceScope path))) = path := rfl
      refine ⟨?_, fun d hd => ?_⟩
      · rw [List.map_append, List.map_singleton, hreference, List.nodup_append]
        refine ⟨hcurrent.1, List.nodup_singleton _, ?_⟩
        intro a ha b hb
        rw [List.mem_singleton.mp hb]
        obtain ⟨d, hd, rfl⟩ := List.mem_map.mp ha
        intro heq
        exact List.find?_eq_none.mp hnone d hd (isAt_of_reference hscope heq)
      · rcases List.mem_append.mp hd with hd | hd
        · exact hcurrent.2 d hd
        · rw [List.mem_singleton.mp hd, hreference]
          exact hscope

theorem pinned_scope {candidates : List (String × ByteArray)} (h : host.pinned pin = .ok candidates) :
    ∀ candidate ∈ candidates, (sourceScope candidate.1).isSome = true := by
  unfold Host.pinned at h
  split at h
  · rw [← Except.ok.inj h]
    simp
  · simp only [Except.bind_eq_ok_iff, Except.pure_eq_ok_iff] at h
    obtain ⟨-, -, rfl⟩ := h
    intro candidate hcandidate
    obtain ⟨path, hpath, hlookup⟩ := List.mem_filterMap.mp hcandidate
    obtain ⟨bytes, -, rfl⟩ := Option.map_eq_some_iff.mp hlookup
    have hscope := (List.mem_filter.mp hpath).2
    rw [decide_eq_true_eq] at hscope
    show (sourceScope path).isSome = true
    rw [hscope]
    rfl

theorem currentIndex_scope {rows : List (String × String)} (h : currentIndex files = .ok rows) :
    ∀ row ∈ rows, (sourceScope row.1).isSome = true := by
  simp only [currentIndex, Except.bind_eq_ok_iff] at h
  obtain ⟨found, -, h⟩ := h
  cases found with
  | none =>
    simp only [Except.bind_eq_ok_iff, Except.pure_eq_ok_iff] at h
    obtain ⟨-, -, rfl⟩ := h
    simp
  | some bytes =>
    simp only [Except.bind_eq_ok_iff] at h
    obtain ⟨value, -, members, -, -, -, h⟩ := h
    have hall := mapM_eq_ok.mp h
    clear h
    induction hall with
    | nil => simp
    | cons hrow _ ih =>
      simp only [Except.bind_eq_ok_iff, check_eq_ok, Except.pure_eq_ok_iff] at hrow
      obtain ⟨-, hscope, -, -, rfl⟩ := hrow
      intro row hmem
      rcases List.mem_cons.mp hmem with rfl | hmem
      · exact hscope
      · exact ih row hmem

theorem governanceSources_scope {sources : List (String × ByteArray)}
    (h : host.governanceSources files target = .ok sources) :
    ∀ source ∈ sources, (sourceScope source.1).isSome = true := by
  simp only [Host.governanceSources, Except.bind_eq_ok_iff] at h
  obtain ⟨rows, hrows, h⟩ := h
  have hscope := currentIndex_scope hrows
  have hall := mapM_eq_ok.mp h
  clear h hrows
  induction hall with
  | nil => simp
  | cons hrow _ ih =>
    simp only [Host.governanceSource, Except.bind_eq_ok_iff, Except.pure_eq_ok_iff] at hrow
    obtain ⟨-, -, -, -, -, -, -, -, -, -, rfl⟩ := hrow
    intro source hmem
    rcases List.mem_cons.mp hmem with rfl | hmem
    · exact hscope _ List.mem_cons_self
    · exact ih (fun row hrow => hscope row (List.mem_cons_of_mem _ hrow)) source hmem

theorem preserveGovernance_distinct {current documents : List Value} (hcurrent : Distinct current)
    (h : host.preserveGovernance files target pin current = .ok documents) : Distinct documents := by
  simp only [Host.preserveGovernance, Except.bind_eq_ok_iff] at h
  obtain ⟨pinned, hpinned, published, hpublished, h⟩ := h
  have hscope : ∀ candidate ∈ pinned ++ published, (sourceScope candidate.1).isSome = true := by
    intro candidate hcandidate
    rcases List.mem_append.mp hcandidate with hcandidate | hcandidate
    · exact pinned_scope hpinned candidate hcandidate
    · exact governanceSources_scope hpublished candidate hcandidate
  generalize pinned ++ published = candidates at h hscope
  induction candidates generalizing current with
  | nil =>
    rw [← Except.ok.inj h]
    exact hcurrent
  | cons candidate candidates ih =>
    obtain ⟨next, hnext, hrest⟩ := foldlM_cons_eq_ok.mp h
    exact ih (preserve_distinct hcurrent (hscope _ List.mem_cons_self) hnext) hrest fun c hc =>
      hscope c (List.mem_cons_of_mem _ hc)

/-- **Every document of a resolution is the only one of its source.** -/
theorem documents_distinct {observed : List Value} (h : host.currentSources files = .ok observed) :
    Distinct (host.documents files target pin observed).1 := by
  have hcurrent := currentSources_distinct h
  unfold Host.documents
  split
  · rename_i documents hpreserved
    exact preserveGovernance_distinct hcurrent hpreserved
  · exact hcurrent

/-! ## What a resolution restricts -/

/-- A blocker for the source affects the scope. -/
def View.Restricts (v : View) (source scope : String) : Prop :=
  ∃ b ∈ v.blockers, b.source = source ∧ scope ∈ b.affects

variable (host files target pin) in
/-- The document takes part in resolutions. -/
def Instruction (d : Value) : Prop :=
  ∃ observed, host.currentSources files = .ok observed ∧
    d ∈ (host.documents files target pin observed).1

variable (host files target pin) in
/-- Admitted governance could not be discovered. -/
def Undiscovered : Prop :=
  ∃ observed, host.currentSources files = .ok observed ∧
    (host.documents files target pin observed).2.isSome = true

theorem Instruction.unique {d e : Value} (hd : Instruction host files target pin d)
    (he : Instruction host files target pin e) (h : referenceOf d = referenceOf e) : d = e := by
  obtain ⟨observed, hobserved, hd⟩ := hd
  obtain ⟨observed', hobserved', he⟩ := he
  obtain rfl : observed = observed' := Except.ok.inj (hobserved.symm.trans hobserved')
  exact List.inj_on_of_nodup_map (documents_distinct hobserved).1 hd he h

theorem Instruction.direct {d : Value} (hd : Instruction host files target pin d) :
    (sourceScope (referenceOf d)).isSome = true := by
  obtain ⟨observed, hobserved, hd⟩ := hd
  exact (documents_distinct hobserved).2 d hd

theorem blockers_restrict {source : String} {documents : List Value} {resolved : List Resolved}
    (h : List.Forall₂ (fun d r => host.resolveDocument files target changed route pin targets d = .ok r)
      documents resolved) :
    (∃ b ∈ resolved.flatMap (·.blockers), b.source = source ∧ scope ∈ b.affects) ↔
      ∃ d ∈ documents, referenceOf d = source ∧ Restricted d changed route targets scope := by
  induction h with
  | nil => simp
  | cons hd _ ih =>
    have hblockers := @resolveDocument_restricts _ _ _ _ _ _ _ _ scope source _ hd
    simp only [List.flatMap_cons, List.mem_append, List.mem_cons, or_and_right, exists_or,
      exists_eq_left] at ih ⊢
    rw [ih, hblockers]

/-- **What a resolution restricts, document by document.** -/
theorem resolve_restricts {v : View} {source : String}
    (h : host.resolveWithTargets files target changed route pin targets = .ok v) :
    v.Restricts source scope ↔
      (Undiscovered host files target pin ∧ source = "governance" ∧ scope = "claim:complete") ∨
        ∃ d, Instruction host files target pin d ∧ referenceOf d = source ∧
          Restricted d changed route targets scope := by
  simp only [Host.resolveWithTargets, Except.bind_eq_ok_iff, Except.pure_eq_ok_iff] at h
  obtain ⟨observed, hobserved, resolved, hresolved, rfl⟩ := h
  have hgap : (∃ b ∈ (host.documents files target pin observed).2.toList.map (fun reason =>
      (⟨"governance", "admitted-source-discovery-unavailable", reason, ["claim:complete"], none⟩ :
        SourceBlocker)), b.source = source ∧ scope ∈ b.affects) ↔
      Undiscovered host files target pin ∧ source = "governance" ∧ scope = "claim:complete" := by
    have hundiscovered : Undiscovered host files target pin ↔
        (host.documents files target pin observed).2.isSome = true := by
      constructor
      · rintro ⟨observed', hobserved', hsome⟩
        rwa [Except.ok.inj (hobserved.symm.trans hobserved')]
      · exact fun hsome => ⟨observed, hobserved, hsome⟩
    rw [hundiscovered]
    cases (host.documents files target pin observed).2 with
    | none => simp
    | some reason => simp [eq_comm]
  have hdocuments : (∃ d, Instruction host files target pin d ∧ referenceOf d = source ∧
      Restricted d changed route targets scope) ↔
      ∃ d ∈ (host.documents files target pin observed).1, referenceOf d = source ∧
        Restricted d changed route targets scope := by
    constructor
    · rintro ⟨d, ⟨observed', hobserved', hd⟩, hrest⟩
      rw [← Except.ok.inj (hobserved.symm.trans hobserved')] at hd
      exact ⟨d, hd, hrest⟩
    · rintro ⟨d, hd, hrest⟩
      exact ⟨d, ⟨observed, hobserved, hd⟩, hrest⟩
  rw [View.Restricts]
  simp only [List.mem_append, or_and_right, exists_or]
  rw [hgap, blockers_restrict (mapM_eq_ok.mp hresolved), hdocuments]

/-! ## More paths -/

theorem protections_mono {metadata : Value} (h : changed ⊆ changed')
    (hscope : scope ∈ protections metadata changed) : scope ∈ protections metadata changed' := by
  obtain ⟨pattern, hpattern, hmem⟩ := List.mem_flatMap.mp hscope
  refine List.mem_flatMap.mpr ⟨pattern, hpattern, ?_⟩
  rcases List.mem_cons.mp hmem with rfl | hmem
  · exact List.mem_cons_self
  · obtain ⟨path, hpath, rfl⟩ := List.mem_map.mp hmem
    have hfilter := List.mem_filter.mp hpath
    exact List.mem_cons_of_mem _ (List.mem_map_of_mem (List.mem_filter.mpr ⟨h hfilter.1, hfilter.2⟩))

theorem pathScope_mono {metadata : Value} (hchanged : changed ⊆ changed') (htargets : targets ⊆ targets')
    (h : PathScope (scopeInput metadata changed route targets)) :
    PathScope (scopeInput metadata changed' route targets') := by
  rcases h with hnil | ⟨path, hpath, hmatch⟩ | ⟨pattern, hpattern, t, ht, hoverlap⟩
  · exact Or.inl hnil
  · exact Or.inr (Or.inl ⟨path, hchanged hpath, hmatch⟩)
  · exact Or.inr (Or.inr ⟨pattern, hpattern, t, htargets ht, hoverlap⟩)

/-- **More paths restrict no less.** -/
theorem restricted_mono (hchanged : changed ⊆ changed') (htargets : targets ⊆ targets')
    (h : Restricted document changed route targets scope) :
    Restricted document changed' route targets' scope := by
  rcases h with hinvalid | ⟨hvalid, hconcerned, hbinds⟩
  · exact Or.inl hinvalid
  · refine Or.inr ⟨hvalid, ?_, hbinds.imp id (protections_mono hchanged)⟩
    rcases hconcerned with ⟨hpath | ⟨source, hsource, hmem⟩, hroute⟩ | hunresolved
    · exact Or.inl ⟨Or.inl (pathScope_mono hchanged htargets hpath), hroute⟩
    · exact Or.inl ⟨Or.inr ⟨source, hsource, hchanged hmem⟩, hroute⟩
    · exact Or.inr ⟨pathScope_mono hchanged htargets hunresolved.1, hunresolved.2⟩

/-! ## Other postures -/

/-- The routes are the same, selected in one fact and not resolved in the other. -/
structure SelectedUnresolved (selected unresolved : Value) : Prop where
  status : selected.field "status" = .string "current"
  posture : selected.field "posture" = .string "selected"
  status' : unresolved.field "status" = .string "current"
  posture' : unresolved.field "posture" = .string "unresolved"
  routes : unresolved.field "routes" = selected.field "routes"

/-- The source is limited to routes, one of which is selected, and only a change of a source that
    governs it concerns it. -/
def Escapes (document : Value) (changed : List String) (route : Value) (targets : List String) : Prop :=
  let metadata := document.field "metadata"
  let input := scopeInput metadata changed route targets
  document.field "valid" = .bool true ∧ SourceChange metadata changed ∧ input.routes ≠ [] ∧
    RouteScope input ∧ ¬ PathScope input

namespace SelectedUnresolved

variable (h : SelectedUnresolved route route')

include h

theorem postureOf_eq : postureOf route = "selected" ∧ postureOf route' = "unresolved" := by
  unfold postureOf
  rw [h.status, h.status', h.posture, h.posture']
  exact ⟨rfl, rfl⟩

theorem restricted (hescapes : ¬ Escapes document changed route targets)
    (hrestricted : Restricted document changed route targets scope) :
    Restricted document changed route' targets scope := by
  obtain ⟨hposture, hposture'⟩ := h.postureOf_eq
  rcases hrestricted with hinvalid | ⟨hvalid, hconcerned, hbinds⟩
  · exact Or.inl hinvalid
  · refine Or.inr ⟨hvalid, ?_, hbinds⟩
    rcases hconcerned with ⟨hscope, hroute⟩ | hunresolved
    · rcases hroute with hnil | ⟨-, hroute⟩
      · exact Or.inl ⟨hscope, Or.inl hnil⟩
      · -- A source that is limited to routes stays concerned through its own paths only.
        have hroutes : (scopeInput (document.field "metadata") changed route targets).routes ≠ [] := by
          obtain ⟨selector, hselector, -⟩ := hroute
          exact List.ne_nil_of_mem hselector
        by_cases hpath : PathScope (scopeInput (document.field "metadata") changed route targets)
        · exact Or.inr ⟨hpath, hroutes, hposture'⟩
        · exact absurd ⟨hvalid, hscope.resolve_left hpath, hroutes, hroute, hpath⟩ hescapes
    · exact absurd (hposture.symm.trans hunresolved.2.2) (by decide)

/-- A source that escapes restricts the completion claim, and nothing once routes are unresolved. -/
theorem escapes (hescapes : Escapes document changed route targets) :
    Restricted document changed route targets "claim:complete" ∧
      ¬ ∃ scope, Restricted document changed route' targets scope := by
  obtain ⟨hposture, hposture'⟩ := h.postureOf_eq
  obtain ⟨hvalid, hchange, hroutes, hroute, hpath⟩ := hescapes
  have hreconciles : reconciles (document.field "metadata") = true := by
    obtain ⟨source, hsource, -⟩ := hchange
    rw [reconciles, Bool.or_eq_true, decide_eq_true_eq, decide_eq_true_eq]
    exact Or.inr (List.ne_nil_of_mem hsource)
  refine ⟨Or.inr ⟨hvalid, Or.inl ⟨Or.inr hchange, Or.inr ⟨hposture, hroute⟩⟩,
    Or.inl ⟨rfl, Or.inl hreconciles⟩⟩, ?_⟩
  rintro ⟨scope, ⟨hinvalid, -⟩ | ⟨-, hconcerned, -⟩⟩
  · exact hinvalid hvalid
  · rcases hconcerned with ⟨-, hnil | ⟨hselected, -⟩⟩ | hunresolved
    · exact hroutes hnil
    · exact absurd (hposture'.symm.trans hselected) (by decide)
    · exact hpath hunresolved.1

/-- What is evaluated for selected routes is evaluated for unresolved ones. -/
theorem applicability_ok {metadata : Value} {a : Applicability}
    (ha : applicability metadata changed route targets = .ok a) :
    ∃ a', applicability metadata changed route' targets = .ok a' := by
  simp only [applicability, InstructionApplicability.applicability, Except.bind_eq_ok_iff] at ha ⊢
  obtain ⟨-, -, names, hnames, names', hnames', -⟩ := ha
  have hposture : postureOf route' ∈ ["selected", "none", "unresolved"] := by
    rw [h.postureOf_eq.2]
    simp
  have hselected : (scopeInput metadata changed route' targets).selectedRoutes =
      (scopeInput metadata changed route targets).selectedRoutes := by
    show strings (route'.field "routes") = strings (route.field "routes")
    rw [h.routes]
  rw [hselected]
  exact ⟨_, (), check_eq_ok.mpr hposture, names, hnames, names', hnames', rfl⟩

/-- What applies with unresolved routes applies with selected ones. -/
theorem applies {metadata : Value} {a a' : Applicability}
    (ha : applicability metadata changed route targets = .ok a)
    (ha' : applicability metadata changed route' targets = .ok a')
    (happlies : (scopeWith metadata changed a').applies = true) :
    (scopeWith metadata changed a).applies = true := by
  simp only [applicability, Except.bind_eq_ok_iff] at ha ha'
  obtain ⟨-, -, ha⟩ := ha
  obtain ⟨-, -, ha'⟩ := ha'
  rw [(scopeWith_iff (applicability_evaluated ha')).1] at happlies
  rw [(scopeWith_iff (applicability_evaluated ha)).1]
  refine ⟨happlies.1, Or.inl ?_⟩
  rcases happlies.2 with hnil | ⟨hselected, -⟩
  · exact hnil
  · exact absurd (h.postureOf_eq.2.symm.trans hselected) (by decide)

theorem resolveDocument_ok {r : Resolved}
    (hr : host.resolveDocument files target changed route pin targets document = .ok r) :
    ∃ r', host.resolveDocument files target changed route' pin targets document = .ok r' := by
  simp only [Host.resolveDocument, Except.bind_eq_ok_iff, Except.pure_eq_ok_iff] at hr ⊢
  obtain ⟨a, ha, shown, hshown, -⟩ := hr
  obtain ⟨a', ha'⟩ := h.applicability_ok ha
  cases hcond : decide (document.field "valid" = .bool true) &&
      (scopeWith (document.field "metadata") changed a').applies with
  | false => exact ⟨_, a', ha', (.null, []), by rw [hcond]; rfl, rfl⟩
  | true =>
    have happlies := (Bool.and_eq_true_iff.mp hcond).2
    rw [(Bool.and_eq_true_iff.mp hcond).1, h.applies ha ha' happlies] at hshown
    exact ⟨_, a', ha', shown, by rw [hcond]; exact hshown, rfl⟩

theorem resolve_ok {v : View}
    (hv : host.resolveWithTargets files target changed route pin targets = .ok v) :
    ∃ v', host.resolveWithTargets files target changed route' pin targets = .ok v' := by
  simp only [Host.resolveWithTargets, Except.bind_eq_ok_iff, Except.pure_eq_ok_iff] at hv ⊢
  obtain ⟨observed, hobserved, resolved, hresolved, -⟩ := hv
  have hall : ∃ resolved', (host.documents files target pin observed).1.mapM
      (host.resolveDocument files target changed route' pin targets) = .ok resolved' := by
    have hforall := mapM_eq_ok.mp hresolved
    clear hresolved
    generalize (host.documents files target pin observed).1 = documents at hforall
    induction hforall with
    | nil => exact ⟨[], rfl⟩
    | cons hd _ ih =>
      obtain ⟨r', hr'⟩ := h.resolveDocument_ok hd
      obtain ⟨resolved', hresolved'⟩ := ih
      refine ⟨r' :: resolved', mapM_eq_ok.mpr (.cons hr' (mapM_eq_ok.mp hresolved'))⟩
  obtain ⟨resolved', hresolved'⟩ := hall
  exact ⟨_, observed, hobserved, resolved', hresolved', rfl⟩

end SelectedUnresolved

variable (host files target pin) in
/-- More changed paths or target patterns restrict no less, under any route fact. -/
def Monotone : Prop :=
  ∀ (route : Value) (changed changed' targets targets' : List String) (v v' : View),
    changed ⊆ changed' → targets ⊆ targets' →
    host.resolveWithTargets files target changed route pin targets = .ok v →
    host.resolveWithTargets files target changed' route pin targets' = .ok v' →
    ∀ source scope, v.Restricts source scope → v'.Restricts source scope

theorem monotone : Monotone host files target pin := by
  intro route changed changed' targets targets' v v' hchanged htargets hv hv' source scope
  rw [resolve_restricts hv, resolve_restricts hv']
  rintro (hgap | ⟨d, hd, hreference, hrestricted⟩)
  · exact Or.inl hgap
  · exact Or.inr ⟨d, hd, hreference, restricted_mono hchanged htargets hrestricted⟩

/-- **What selected routes restrict stays restricted while they are unresolved, exactly when no
    source escapes; and more paths never restrict less.** -/
theorem fails_closed_iff (h : SelectedUnresolved route route') {v : View}
    (hv : host.resolveWithTargets files target changed route pin targets = .ok v) :
    ((∃ v', host.resolveWithTargets files target changed route' pin targets = .ok v' ∧
        ∀ source scope, v.Restricts source scope → v'.Restricts source scope) ∧
      Monotone host files target pin) ↔
    ∀ d, Instruction host files target pin d → ¬ Escapes d changed route targets := by
  obtain ⟨v', hv'⟩ := h.resolve_ok hv
  constructor
  · rintro ⟨⟨w, hw, hkept⟩, -⟩ d hd hescapes
    obtain rfl : v' = w := Except.ok.inj (hv'.symm.trans hw)
    obtain ⟨hclaim, hnothing⟩ := h.escapes hescapes
    have hrestricts := hkept (referenceOf d) "claim:complete"
      ((resolve_restricts hv).mpr (Or.inr ⟨d, hd, rfl, hclaim⟩))
    rcases (resolve_restricts hv').mp hrestricts with ⟨-, hgovernance, -⟩ | ⟨e, he, heq, hrestricted⟩
    · have hdirect := hd.direct
      rw [hgovernance] at hdirect
      exact absurd hdirect (by decide)
    · rw [he.unique hd heq] at hrestricted
      exact hnothing ⟨_, hrestricted⟩
  · intro hnone
    refine ⟨⟨v', hv', fun source scope => ?_⟩, monotone⟩
    rw [resolve_restricts hv, resolve_restricts hv']
    rintro (hgap | ⟨d, hd, hreference, hrestricted⟩)
    · exact Or.inl hgap
    · exact Or.inr ⟨d, hd, hreference, h.restricted (hnone d hd) hrestricted⟩

/-! ## A source that escapes -/

def sampleHost : Host where
  root := "/repo"
  canonical target := if target = "/repo" then some "/repo" else none
  digest _ := "sha256:0123456789abcdef0123456789abcdef0123456789abcdef0123456789abcdef"
  hash _ := "sha256:fedcba9876543210fedcba9876543210fedcba9876543210fedcba9876543210"
  lossy _ := ""
  commit _ := none
  printed := id
  procedure _ := .ok .null

def samplePath : String := ".agentic-workspace/instructions/plan.md"

def sampleText : String :=
  "---\npaths: [src/**]\nroutes: [review/plan]\ngoverned_by: [docs/plan.md]\n---\nKeep the plan.\n"

def sampleFiles : Files := (∅ : Files).insert samplePath sampleText.toUTF8

/-- The metadata of the sample. -/
def sampleMetadata : Value := .object [("checks", .array []),
  ("governed_by", .strings ["docs/plan.md"]), ("paths", .strings ["src/**"]), ("protect", .array []),
  ("read", .array []), ("reconcile", .array []), ("routes", .strings ["review/plan"]), ("use", .array [])]

/-- A route fact. -/
def routeFact (posture : String) : Value :=
  .object [("posture", .string posture), ("routes", .strings ["review/plan"]),
    ("status", .string "current")]

theorem sample_metadata :
    metadata sampleText.toUTF8 = (some "Keep the plan.", sampleMetadata) := by
  unfold metadata
  rw [fromUTF8_toUTF8]
  decide +kernel

theorem sample_read : read sampleFiles samplePath = .ok sampleText.toUTF8 := by
  have hfile : sampleFiles[samplePath]? = some sampleText.toUTF8 := Std.ExtTreeMap.getElem?_insert_self
  simp only [read, hfile, admitted, Except.bind_eq_ok_iff, check_eq_ok, Except.pure_eq_ok_iff, okOr_eq_ok,
    fromUTF8_toUTF8]
  exact ⟨(), by decide, _, ⟨(), by decide, (), rfl, rfl⟩, rfl⟩

theorem sample_document {includeBody : Bool} : ∃ d,
    sampleHost.currentDocument sampleFiles samplePath includeBody = .ok d ∧
      d.field "metadata" = sampleMetadata ∧ d.field "valid" = .bool true := by
  have hscope : sourceScope samplePath = some "repository" := by decide
  have hparsed : ((parsed sampleText.toUTF8 includeBody).field "metadata") = sampleMetadata ∧
      (parsed sampleText.toUTF8 includeBody).field "valid" = .bool true := by
    unfold parsed
    rw [sample_metadata]
    exact ⟨rfl, rfl⟩
  simp only [Host.currentDocument, hscope, sample_read, Except.bind_eq_ok_iff, okOr_eq_ok,
    Except.pure_eq_ok_iff]
  cases includeBody with
  | false =>
    refine ⟨_, ⟨_, rfl, _, rfl, rfl⟩, ?_, ?_⟩
    · rw [if_neg (by decide), Value.field_insert_of_ne (by decide)]
      exact hparsed.1
    · rw [if_neg (by decide), Value.field_insert_of_ne (by decide)]
      exact hparsed.2
  | true =>
    refine ⟨_, ⟨_, rfl, _, rfl, rfl⟩, ?_, ?_⟩
    · rw [if_pos rfl, Value.field_insert_of_ne (by decide), Value.field_insert_of_ne (by decide)]
      exact hparsed.1
    · rw [if_pos rfl, Value.field_insert_of_ne (by decide), Value.field_insert_of_ne (by decide)]
      exact hparsed.2

/-- The one document of the sample. -/
theorem sample_instruction : ∃ d, sampleHost.currentSources sampleFiles = .ok [d] ∧
    sampleHost.documents sampleFiles "/repo" "" [d] = ([d], none) ∧
    d.field "metadata" = sampleMetadata ∧ d.field "valid" = .bool true ∧ referenceOf d = samplePath := by
  obtain ⟨d, hd, hmetadata, hvalid⟩ := @sample_document false
  have hlisted : (listed sampleFiles).insertionSort (· ≤ ·) = [samplePath] := by
    rw [show listed sampleFiles = [samplePath] by decide]
    rfl
  refine ⟨d, ?_, ?_, hmetadata, hvalid, (currentDocument_reference hd).1⟩
  · simp only [Host.currentSources, Except.bind_eq_ok_iff, check_eq_ok, hlisted]
    refine ⟨(), by decide, (), by decide, ?_⟩
    rw [mapM_eq_ok]
    exact .cons hd .nil
  · have hindex : currentIndex sampleFiles = .ok [] := by
      have hnone : sampleFiles[CURRENT]? = none := by
        rw [sampleFiles, getElem?_insert_of_ne (by decide)]
        exact Std.ExtTreeMap.getElem?_empty
      simp only [currentIndex, hnone, admitted, Except.bind_eq_ok_iff]
      refine ⟨_, rfl, ?_⟩
      simp only [Except.bind_eq_ok_iff, check_eq_ok, Except.pure_eq_ok_iff]
      exact ⟨(), by decide, trivial⟩
    have hsources : sampleHost.governanceSources sampleFiles "/repo" = .ok [] := by
      rw [Host.governanceSources, hindex]
      rfl
    have hpinned : sampleHost.pinned "" = .ok [] := by decide
    unfold Host.documents Host.preserveGovernance
    rw [hpinned, hsources]
    rfl

theorem sample_routes : SelectedUnresolved (routeFact "selected") (routeFact "unresolved") :=
  ⟨rfl, rfl, rfl, rfl, rfl⟩

/-- The routes and the route selectors of the sample are admitted. -/
theorem sample_routeIds :
    routeIds ((scopeInput sampleMetadata [] (routeFact "selected") []).selectedRoutes.map
      fun r => trimSlashes (trim r)) "instruction selected routes" = .ok ["review/plan"] ∧
    routeIds (((scopeInput sampleMetadata [] (routeFact "selected") []).routes.map
      fun r => trimSlashes (trim r)).map fun r => (stripSuffix "/**" r).getD r)
        "instruction selectors" = .ok ["review/plan"] := by
  constructor <;> decide

/-- The sample resolves whatever has changed. -/
theorem sample_resolves (changed : List String) : ∃ v, sampleHost.resolveWithTargets sampleFiles "/repo"
    changed (routeFact "selected") "" [] = .ok v := by
  obtain ⟨d, hobserved, hdocuments, hmetadata, -, hreference⟩ := sample_instruction
  have happlicability : ∃ a, applicability (d.field "metadata") changed (routeFact "selected") [] =
      .ok a := by
    rw [hmetadata]
    simp only [applicability, InstructionApplicability.applicability, Except.bind_eq_ok_iff]
    exact ⟨_, (), by decide, _, sample_routeIds.1, _, sample_routeIds.2, rfl⟩
  obtain ⟨a, ha⟩ := happlicability
  have hshown : ∀ applicable, ∃ shown, sampleHost.shown sampleFiles d applicable = .ok shown := by
    intro applicable
    obtain ⟨current, hcurrent, -⟩ := @sample_document true
    have huse : strings (sampleMetadata.field "use") = [] := by decide
    rw [Host.shown, hreference, hmetadata, huse]
    cases applicable with
    | false => exact ⟨_, rfl⟩
    | true =>
      split
      · rw [hcurrent]
        exact ⟨_, rfl⟩
      · exact ⟨_, rfl⟩
  obtain ⟨shown, hshown⟩ := hshown (decide (d.field "valid" = .bool true) &&
    (scopeWith (d.field "metadata") changed a).applies)
  have hresolved : ∃ r, sampleHost.resolveDocument sampleFiles "/repo" changed (routeFact "selected") ""
      [] d = .ok r := by
    simp only [Host.resolveDocument, Except.bind_eq_ok_iff, Except.pure_eq_ok_iff]
    exact ⟨_, a, ha, shown, hshown, rfl⟩
  obtain ⟨r, hr⟩ := hresolved
  have hmapped : (sampleHost.documents sampleFiles "/repo" "" [d]).1.mapM (sampleHost.resolveDocument
      sampleFiles "/repo" changed (routeFact "selected") "" []) = .ok [r] := by
    rw [hdocuments]
    exact mapM_eq_ok.mpr (.cons hr .nil)
  exact ⟨_, Except.bind_eq_ok_iff.mpr ⟨[d], hobserved, Except.bind_eq_ok_iff.mpr ⟨[r], hmapped, rfl⟩⟩⟩

/-- With a change of a file of the source itself nothing escapes. -/
theorem fails_closed_sample : (∃ v', sampleHost.resolveWithTargets sampleFiles "/repo" ["src/a.rs"]
    (routeFact "unresolved") "" [] = .ok v') ∧ Monotone sampleHost sampleFiles "/repo" "" := by
  obtain ⟨v, hv⟩ := sample_resolves ["src/a.rs"]
  have hclosed := (fails_closed_iff sample_routes hv).mpr fun d hd hescapes => by
    obtain ⟨e, hobserved, hdocuments, hmetadata, -, -⟩ := sample_instruction
    obtain ⟨observed, hobserved', hd⟩ := hd
    obtain rfl : [e] = observed := Except.ok.inj (hobserved.symm.trans hobserved')
    rw [hdocuments, List.mem_singleton] at hd
    subst hd
    have hpath : PathScope (scopeInput (d.field "metadata") ["src/a.rs"] (routeFact "selected") []) := by
      rw [hmetadata]
      exact Or.inr (Or.inl ⟨"src/a.rs", List.mem_singleton.mpr rfl, "src/**", by decide, by decide +kernel⟩)
    exact hescapes.2.2.2.2 hpath
  obtain ⟨⟨v', hv', -⟩, hmonotone⟩ := hclosed
  exact ⟨⟨v', hv'⟩, hmonotone⟩

/-- **A change of a governing source restricts the completion claim while the source's route is
    selected, and nothing while it is unresolved.** -/
theorem governed_source_escapes : ∃ v v',
    sampleHost.resolveWithTargets sampleFiles "/repo" ["docs/plan.md"] (routeFact "selected") "" [] =
      .ok v ∧
    sampleHost.resolveWithTargets sampleFiles "/repo" ["docs/plan.md"] (routeFact "unresolved") "" [] =
      .ok v' ∧
    v.Restricts samplePath "claim:complete" ∧ ¬ v'.Restricts samplePath "claim:complete" := by
  obtain ⟨v, hv⟩ := sample_resolves ["docs/plan.md"]
  obtain ⟨v', hv'⟩ := sample_routes.resolve_ok hv
  obtain ⟨d, hobserved, hdocuments, hmetadata, hvalid, hreference⟩ := sample_instruction
  have hinstruction : Instruction sampleHost sampleFiles "/repo" "" d :=
    ⟨[d], hobserved, by rw [hdocuments]; exact List.mem_singleton.mpr rfl⟩
  have hescapes : Escapes d ["docs/plan.md"] (routeFact "selected") [] := by
    refine ⟨hvalid, ?_, ?_, ?_, ?_⟩
    · rw [hmetadata]
      exact ⟨"docs/plan.md", by decide, by decide⟩
    · rw [hmetadata]
      decide
    · rw [hmetadata]
      exact ⟨"review/plan", by decide, "review/plan", by decide, by decide⟩
    · rw [hmetadata]
      rintro (hnil | ⟨path, hpath, pattern, hpattern, hmatch⟩ | ⟨pattern, -, t, ht, -⟩)
      · exact absurd hnil (by decide)
      · rw [List.mem_singleton.mp hpath, show pattern = "src/**" from List.mem_singleton.mp hpattern]
          at hmatch
        exact absurd hmatch (by decide +kernel)
      · exact absurd ht List.not_mem_nil
  obtain ⟨hclaim, hnothing⟩ := sample_routes.escapes hescapes
  refine ⟨v, v', hv, hv', ?_, fun hrestricts => ?_⟩
  · exact (resolve_restricts hv).mpr (Or.inr ⟨d, hinstruction, hreference, hclaim⟩)
  · rcases (resolve_restricts hv').mp hrestricts with ⟨-, hgovernance, -⟩ | ⟨e, he, heq, hrestricted⟩
    · exact absurd hgovernance (by decide)
    · rw [he.unique hinstruction (heq.trans hreference.symm)] at hrestricted
      exact hnothing ⟨_, hrestricted⟩

end AgenticCore.InstructionSource
