import AgenticCore.Basic
import AgenticCore.DirectoryTree

/-!
# Confinement of evidence paths (`attempt_store.rs`)

* `confined`     : the walk along a path, which may create its missing parents.
* `Ordinary`     : the names a path may be made of.
* `WellPlaced`   : where evidence may stand.
* `Unrepeated`   : the final component's name stands nowhere earlier where it would mislead the walk.
* `confined_iff` : **the walk depends on positions exactly where the name is not repeated so.**
-/

set_option autoImplicit false

namespace AgenticCore.EvidencePath

open Text DirectoryTree

/-! ## The walk -/

inductive Component where
  | rootDir
  | curDir
  | parentDir
  | normal (name : String)
  deriving DecidableEq, Repr

/-- The component a piece stands for; a later `.` and an empty piece stand for none. -/
def componentOf (first : Bool) (piece : String) : Option Component :=
  if piece = "" then if first then some .rootDir else none
  else if piece = "." then if first then some .curDir else none
  else if piece = ".." then some .parentDir
  else some (.normal piece)

/-- `Path::components`, of a text that is not empty. -/
def components (relative : String) : List Component :=
  match split '/' relative with
  | [] => []
  | piece :: rest => ((componentOf true piece) :: rest.map (componentOf false)).filterMap id

def Component.isNormal : Component → Bool
  | .normal _ => true
  | _ => false

/-- The host's text for a failed operation. -/
def message : Failure → String
  | .notFound => "No such file or directory (os error 2)"
  | .notDirectory => "Not a directory (os error 20)"
  | .alreadyExists => "File exists (os error 17)"
  | .followed => "a path led outside of the filesystem"

/-- `open_dir`, of which only the success is looked at. -/
def openDir (t : Tree) (path : List String) : Result Unit :=
  match metadata t path with
  | .ok .directory => .ok ()
  | .ok _ => fail (message .notDirectory)
  | .error e => fail (message e)

/-- The parent that is missing: created, unless it has come to exist. -/
def ensureParent (t : Tree) (current : List String) : Result Unit × Tree :=
  match createDir t current with
  | .ok t' => (openDir t' current, t')
  | .error .alreadyExists => (openDir t current, t)
  | .error e => (fail (message e), t)

/-- The loop of `confined` over the pieces that are left. -/
def walk (name : String) (createParents : Bool) :
    List String → List String → Tree → Result (List String) × Tree
  | [], current, t => (.ok current, t)
  | part :: rest, current, t =>
    let current := current ++ [part]
    match metadata t current with
    | .ok kind =>
      if kind = .link then (fail "effect evidence cannot traverse links", t)
      else if part = name ∧ kind ≠ .file then (fail "effect evidence must be a regular file", t)
      else walk name createParents rest current t
    | .error .notFound =>
      if createParents = true ∧ part ≠ name then
        match ensureParent t current with
        | (.ok (), t') => walk name createParents rest current t'
        | (.error e, t') => (.error e, t')
      else walk name createParents rest current t
    | .error e => (fail (message e), t)

/-- `confined`: the path, and the tree it leaves. -/
def confined (t : Tree) (relative : String) (createParents : Bool) :
    Result (List String) × Tree :=
  if relative = "" ∨ '\\' ∈ relative.toList ∨ (components relative).any (!·.isNormal) = true then
    (fail "evidence path must be relative and confined", t)
  else
    let pieces := split '/' relative
    walk ((pieces.getLast?).getD "") createParents pieces [] t

/-! ## Where evidence may stand -/

/-- A component that is a name. -/
def Ordinary (name : String) : Prop :=
  name ≠ "" ∧ name ≠ "." ∧ name ≠ ".." ∧ '/' ∉ name.toList ∧ '\\' ∉ name.toList

theorem Ordinary.plain {name : String} (h : Ordinary name) : Plain name := ⟨h.1, h.2.1⟩

/-- From a directory on, the parents of the path are directories where they exist, and its end is a
    file where it exists. -/
def WellPlacedFrom (t : Tree) (here rest : List String) : Prop :=
  ∀ before part after, rest = before ++ part :: after →
    t.node (here ++ before ++ [part]) = none ∨
      t.node (here ++ before ++ [part]) = some (if after = [] then .file else .directory)

/-- No prefix of the path is a link, its parents are directories where they exist, and its end is a
    regular file where it exists. -/
def WellPlaced (t : Tree) (path : List String) : Prop := WellPlacedFrom t [] path

/-- A parent with the final component's name is not there and is not to be created. -/
def UnrepeatedFrom (t : Tree) (name : String) (createParents : Bool) (here rest : List String) :
    Prop :=
  ∀ before part after, rest = before ++ part :: after → after ≠ [] → part = name →
    t.node (here ++ before ++ [part]) = none ∧ createParents = false

def Unrepeated (t : Tree) (path : List String) (createParents : Bool) : Prop :=
  UnrepeatedFrom t ((path.getLast?).getD "") createParents [] path

/-- A proper prefix of the path, longer than the directory it starts from. -/
def ParentOf (here rest p : List String) : Prop :=
  ∃ before part after, rest = before ++ part :: after ∧ after ≠ [] ∧ p = here ++ before ++ [part]

/-- The tree is the other one with the missing parents of a path, from a directory on. -/
def ParentsAdded (t t' : Tree) (here rest : List String) : Prop :=
  ∀ p, (t.node p = none ∧ ParentOf here rest p → t'.node p = some .directory) ∧
    (¬(t.node p = none ∧ ParentOf here rest p) → t'.node p = t.node p)

/-- What is asked of the walk: it succeeds exactly on well-placed paths, then has created the
    missing parents if it was to, and has not created the end. -/
def Meets (t : Tree) (path : List String) (createParents : Bool)
    (outcome : Result (List String) × Tree) : Prop :=
  ((∃ p, outcome.1 = .ok p) ↔ WellPlaced t path) ∧
    ((∃ p, outcome.1 = .ok p) → outcome.1 = .ok path ∧
      if createParents then ParentsAdded t outcome.2 [] path else outcome.2 = t) ∧
    outcome.2.node path = t.node path

/-! ## One component -/

theorem cons_eq_append_cons {α : Type} {x y : α} {xs before after : List α} :
    x :: xs = before ++ y :: after ↔
      (before = [] ∧ x = y ∧ xs = after) ∨ ∃ before', before = x :: before' ∧
        xs = before' ++ y :: after := by
  cases before with
  | nil => simp
  | cons b before =>
    simp only [List.cons_append, List.cons.injEq]
    constructor
    · rintro ⟨rfl, h⟩
      exact Or.inr ⟨before, ⟨rfl, rfl⟩, h⟩
    · rintro (⟨h, -⟩ | ⟨before', ⟨rfl, rfl⟩, h⟩)
      · cases h
      · exact ⟨rfl, h⟩

section Step

variable {t : Tree} {here rest : List String} {part name : String} {createParents : Bool}

theorem wellPlacedFrom_nil : WellPlacedFrom t here [] := by
  intro before part after h
  simp at h

theorem wellPlacedFrom_cons : WellPlacedFrom t here (part :: rest) ↔
    (t.node (here ++ [part]) = none ∨
      t.node (here ++ [part]) = some (if rest = [] then .file else .directory)) ∧
      WellPlacedFrom t (here ++ [part]) rest := by
  constructor
  · intro h
    refine ⟨by simpa using h [] part rest rfl, ?_⟩
    intro before p after hrest
    simpa using h (part :: before) p after (by rw [hrest, List.cons_append])
  · rintro ⟨hfirst, hrest⟩ before p after h
    rcases cons_eq_append_cons.mp h with ⟨rfl, rfl, rfl⟩ | ⟨before', rfl, h'⟩
    · simpa using hfirst
    · simpa using hrest before' p after h'

theorem unrepeatedFrom_cons : UnrepeatedFrom t name createParents here (part :: rest) ↔
    (rest ≠ [] → part = name → t.node (here ++ [part]) = none ∧ createParents = false) ∧
      UnrepeatedFrom t name createParents (here ++ [part]) rest := by
  constructor
  · intro h
    refine ⟨by simpa using h [] part rest rfl, ?_⟩
    intro before p after hrest
    simpa using h (part :: before) p after (by rw [hrest, List.cons_append])
  · rintro ⟨hfirst, hrest⟩ before p after h
    rcases cons_eq_append_cons.mp h with ⟨rfl, rfl, rfl⟩ | ⟨before', rfl, h'⟩
    · simpa using hfirst
    · simpa using hrest before' p after h'

theorem parentOf_cons {p : List String} : ParentOf here (part :: rest) p ↔
    (rest ≠ [] ∧ p = here ++ [part]) ∨ ParentOf (here ++ [part]) rest p := by
  constructor
  · rintro ⟨before, q, after, h, hafter, rfl⟩
    rcases cons_eq_append_cons.mp h with ⟨rfl, rfl, rfl⟩ | ⟨before', rfl, h'⟩
    · exact Or.inl ⟨hafter, by simp⟩
    · exact Or.inr ⟨before', q, after, h', hafter, by simp⟩
  · rintro (⟨hrest, rfl⟩ | ⟨before, q, after, rfl, hafter, rfl⟩)
    · exact ⟨[], part, rest, rfl, hrest, by simp⟩
    · exact ⟨part :: before, q, after, rfl, hafter, by simp⟩

variable (hplain : ∀ p ∈ here, Plain p) (hpart : Plain part) (hdir : t.node here = some .directory)

include hplain hpart hdir

theorem walk_link (h : t.node (here ++ [part]) = some .link) :
    walk name createParents (part :: rest) here t =
      (fail "effect evidence cannot traverse links", t) := by
  simp [walk, metadata_entry hplain hdir hpart, h]

theorem walk_file (h : t.node (here ++ [part]) = some .file) :
    walk name createParents (part :: rest) here t =
      walk name createParents rest (here ++ [part]) t := by
  simp [walk, metadata_entry hplain hdir hpart, h]

theorem walk_named_directory (h : t.node (here ++ [part]) = some .directory) (hname : part = name) :
    walk name createParents (part :: rest) here t =
      (fail "effect evidence must be a regular file", t) := by
  subst hname
  simp [walk, metadata_entry hplain hdir hpart, h]

theorem walk_directory (h : t.node (here ++ [part]) = some .directory) (hname : part ≠ name) :
    walk name createParents (part :: rest) here t =
      walk name createParents rest (here ++ [part]) t := by
  simp [walk, metadata_entry hplain hdir hpart, h, hname]

theorem walk_absent (h : t.node (here ++ [part]) = none)
    (hkept : ¬(createParents = true ∧ part ≠ name)) :
    walk name createParents (part :: rest) here t =
      walk name createParents rest (here ++ [part]) t := by
  rw [walk]
  simp only [metadata_entry hplain hdir hpart, h]
  rw [if_neg hkept]

theorem walk_created (h : t.node (here ++ [part]) = none) (hcreate : createParents = true)
    (hname : part ≠ name) :
    walk name createParents (part :: rest) here t =
      walk name createParents rest (here ++ [part]) (addDirectory t here part hdir h) := by
  have hdir' : (addDirectory t here part hdir h).node here = some .directory := by
    rw [addDirectory]
    simpa using hdir
  have hmade : (addDirectory t here part hdir h).node (here ++ [part]) = some .directory := by
    simp [addDirectory]
  have hensure : ensureParent t (here ++ [part]) = (.ok (), addDirectory t here part hdir h) := by
    rw [ensureParent, createDir_entry hplain hdir hpart h]
    simp only [openDir, metadata_entry hplain hdir' hpart, hmade]
  rw [walk]
  simp only [metadata_entry hplain hdir hpart, h]
  rw [if_pos ⟨hcreate, hname⟩, hensure]

omit hplain hpart hdir

/-- Nothing is found behind a missing directory, and nothing is created there. -/
theorem walk_missing (hmissing : metadata t here = .error .notFound) :
    (walk name createParents rest here t).2 = t ∧
      (createParents = false → walk name createParents rest here t = (.ok (here ++ rest), t)) := by
  induction rest generalizing here with
  | nil => exact ⟨rfl, fun _ => by rw [walk, List.append_nil]⟩
  | cons part rest ih =>
    have hbelow := metadata_below hmissing [part]
    obtain ⟨hsame, hkept⟩ := ih hbelow
    rw [walk]
    simp only [hbelow]
    split
    · rename_i hcreate
      rw [ensureParent, createDir_error hmissing]
      exact ⟨rfl, fun hno => by rw [hno] at hcreate; exact absurd hcreate.1 (by simp)⟩
    · exact ⟨hsame, fun hno => by rw [hkept hno]; simp⟩

end Step

/-! ## The whole walk -/

section Walk

variable {name : String} {createParents : Bool}

/-- A path that is not empty ends with the name. -/
def EndsAt (name : String) (rest : List String) : Prop := ∀ last ∈ rest.getLast?, last = name

theorem EndsAt.tail {part : String} {rest : List String} (h : EndsAt name (part :: rest)) :
    EndsAt name rest := by
  cases rest with
  | nil => simp [EndsAt]
  | cons q rest => simpa [EndsAt] using h

theorem EndsAt.single {part : String} (h : EndsAt name [part]) : part = name := h part rfl

theorem plain_concat {here : List String} {part : String} (hhere : ∀ p ∈ here, Plain p)
    (hpart : Plain part) : ∀ p ∈ here ++ [part], Plain p := by
  intro p hp
  rcases List.mem_append.mp hp with hp | hp
  · exact hhere p hp
  · rwa [List.mem_singleton.mp hp]

theorem absent_wellPlacedFrom {t : Tree} {here rest : List String} (h : t.node here = none) :
    WellPlacedFrom t here rest := by
  intro before part after _
  rw [List.append_assoc]
  exact Or.inl (node_none h)

section Created

variable {t : Tree} {here rest : List String} {part : String}
  (hdir : t.node here = some .directory) (h : t.node (here ++ [part]) = none)

/-- The directory just created is empty. -/
theorem created_below (before : List String) (p : String) :
    (addDirectory t here part hdir h).node (here ++ [part] ++ before ++ [p]) = none := by
  have hne : here ++ [part] ++ before ++ [p] ≠ here ++ [part] := by
    rw [List.append_assoc, Ne, List.append_right_eq_self]
    simp
  rw [addDirectory]
  simp only [if_neg hne]
  rw [List.append_assoc]
  exact node_none h

theorem created_self : (addDirectory t here part hdir h).node (here ++ [part]) = some .directory :=
  if_pos rfl

theorem created_other {p : List String} (hp : p ≠ here ++ [part]) :
    (addDirectory t here part hdir h).node p = t.node p := if_neg hp

theorem created_wellPlacedFrom :
    WellPlacedFrom (addDirectory t here part hdir h) (here ++ [part]) rest := by
  intro before p after _
  exact Or.inl (created_below hdir h before p)

/-- The parents of the path have been added when this one has and then the others. -/
theorem parentsAdded_created {t' : Tree} (hrest : rest ≠ []) :
    ParentsAdded t t' here (part :: rest) ↔
      ParentsAdded (addDirectory t here part hdir h) t' (here ++ [part]) rest := by
  have hdeeper : ∀ p, ParentOf (here ++ [part]) rest p → p ≠ here ++ [part] := by
    rintro p ⟨before, q, after, -, -, rfl⟩
    rw [List.append_assoc, Ne, List.append_right_eq_self]
    simp
  unfold ParentsAdded
  refine forall_congr' fun p => ?_
  rw [parentOf_cons]
  by_cases hp : p = here ++ [part]
  · subst hp
    have hno : ¬ParentOf (here ++ [part]) rest (here ++ [part]) := fun hparent =>
      hdeeper _ hparent rfl
    simp [created_self, h, hrest, hno]
  · rw [created_other hdir h hp]
    simp [hp]

end Created

theorem parentsAdded_directory {t t' : Tree} {here rest : List String} {part : String}
    (h : t.node (here ++ [part]) = some .directory) :
    ParentsAdded t t' here (part :: rest) ↔ ParentsAdded t t' (here ++ [part]) rest := by
  unfold ParentsAdded
  refine forall_congr' fun p => ?_
  rw [parentOf_cons]
  by_cases hp : p = here ++ [part]
  · subst hp
    simp [h]
  · simp [hp]

theorem parentsAdded_nothing {t : Tree} {here rest : List String}
    (h : ∀ p, ¬ParentOf here rest p) : ParentsAdded t t here rest :=
  fun p => ⟨fun hparent => absurd hparent.2 (h p), fun _ => rfl⟩

theorem not_parentOf_nil {here p : List String} : ¬ParentOf here [] p := by
  rintro ⟨before, q, after, hnil, -⟩
  simp at hnil

theorem not_parentOf_single {here p : List String} {part : String} : ¬ParentOf here [part] p := by
  rw [parentOf_cons]
  rintro (⟨hne, -⟩ | hparent)
  · exact hne rfl
  · exact not_parentOf_nil hparent

/-- What the walk leaves when it succeeds as asked. -/
def Added (createParents : Bool) (t t' : Tree) (here rest : List String) : Prop :=
  if createParents then ParentsAdded t t' here rest else t' = t

/-- The walk from a directory along a well-placed path where the name misleads it nowhere. -/
theorem walk_placed : ∀ {rest here : List String} {t : Tree}, (∀ p ∈ here, Plain p) →
    (∀ p ∈ rest, Plain p) → t.node here = some .directory → EndsAt name rest →
    WellPlacedFrom t here rest → UnrepeatedFrom t name createParents here rest →
    ∃ t', walk name createParents rest here t = (.ok (here ++ rest), t') ∧
      Added createParents t t' here rest
  | [], here, t, _, _, _, _, _, _ => by
    refine ⟨t, by rw [walk, List.append_nil], ?_⟩
    unfold Added
    split
    · exact parentsAdded_nothing fun p => not_parentOf_nil
    · rfl
  | part :: rest, here, t, hhere, hrest, hdir, hends, hplaced, hunrepeated => by
    have hpart := hrest part List.mem_cons_self
    have hhere' := plain_concat hhere hpart
    have hrest' : ∀ p ∈ rest, Plain p := fun p hp => hrest p (List.mem_cons_of_mem part hp)
    have hsplit : here ++ part :: rest = here ++ [part] ++ rest := by simp
    obtain ⟨hfirst, hplaced'⟩ := wellPlacedFrom_cons.mp hplaced
    obtain ⟨hname, hunrepeated'⟩ := unrepeatedFrom_cons.mp hunrepeated
    rw [hsplit]
    rcases hfirst with hnone | hsome
    · by_cases hcreate : createParents = true ∧ part ≠ name
      · have hne : rest ≠ [] := by
          rintro rfl
          exact hcreate.2 hends.single
        have hunrepeated'' : UnrepeatedFrom (addDirectory t here part hdir hnone) name
            createParents (here ++ [part]) rest := by
          intro before p after hsplit' hafter hp
          have := (hunrepeated' before p after hsplit' hafter hp).2
          rw [hcreate.1] at this
          cases this
        obtain ⟨t', hwalk, hadded⟩ := walk_placed hhere' hrest' (created_self hdir hnone)
          hends.tail (created_wellPlacedFrom hdir hnone) hunrepeated''
        refine ⟨t', ?_, ?_⟩
        · rw [walk_created hhere hpart hdir hnone hcreate.1 hcreate.2, hwalk]
        · unfold Added at hadded ⊢
          rw [if_pos hcreate.1] at hadded ⊢
          exact (parentsAdded_created hdir hnone hne).mpr hadded
      · rw [walk_absent hhere hpart hdir hnone hcreate]
        have hmissing : metadata t (here ++ [part]) = .error .notFound := by
          rw [metadata_entry hhere hdir hpart, hnone]
        cases hflag : createParents with
        | false =>
          exact ⟨t, by rw [(walk_missing hmissing).2 rfl], rfl⟩
        | true =>
          have hpartName : part = name := by
            by_contra hne
            exact hcreate ⟨hflag, hne⟩
          have hnil : rest = [] := by
            by_contra hne
            have := (hname hne hpartName).2
            rw [hflag] at this
            cases this
          subst hnil
          exact ⟨t, by rw [walk, List.append_nil],
            parentsAdded_nothing fun p => not_parentOf_single⟩
    · by_cases hnil : rest = []
      · subst hnil
        rw [if_pos rfl] at hsome
        refine ⟨t, by rw [walk_file hhere hpart hdir hsome, walk, List.append_nil], ?_⟩
        unfold Added
        split
        · exact parentsAdded_nothing fun p => not_parentOf_single
        · rfl
      · rw [if_neg hnil] at hsome
        have hpartName : part ≠ name := by
          intro heq
          rw [(hname hnil heq).1] at hsome
          cases hsome
        obtain ⟨t', hwalk, hadded⟩ :=
          walk_placed hhere' hrest' hsome hends.tail hplaced' hunrepeated'
        refine ⟨t', by rw [walk_directory hhere hpart hdir hsome hpartName, hwalk], ?_⟩
        unfold Added at hadded ⊢
        split
        · rename_i hflag
          rw [if_pos hflag] at hadded
          exact (parentsAdded_directory hsome).mpr hadded
        · rename_i hflag
          rwa [if_neg hflag] at hadded

/-- The walk fails on a path that is not well placed. -/
theorem walk_misplaced : ∀ {rest here : List String} {t : Tree}, (∀ p ∈ here, Plain p) →
    (∀ p ∈ rest, Plain p) → t.node here = some .directory → EndsAt name rest →
    ¬WellPlacedFrom t here rest → ∃ e, (walk name createParents rest here t).1 = .error e
  | [], _, _, _, _, _, _, hplaced => absurd wellPlacedFrom_nil hplaced
  | part :: rest, here, t, hhere, hrest, hdir, hends, hplaced => by
    have hpart := hrest part List.mem_cons_self
    have hhere' := plain_concat hhere hpart
    have hrest' : ∀ p ∈ rest, Plain p := fun p hp => hrest p (List.mem_cons_of_mem part hp)
    cases hnode : t.node (here ++ [part]) with
    | none =>
      exact absurd (wellPlacedFrom_cons.mpr ⟨Or.inl hnode, absent_wellPlacedFrom hnode⟩) hplaced
    | some kind =>
      cases kind with
      | link =>
        rw [walk_link hhere hpart hdir hnode]
        exact ⟨_, rfl⟩
      | file =>
        rw [walk_file hhere hpart hdir hnode]
        cases rest with
        | nil =>
          exact absurd (wellPlacedFrom_cons.mpr ⟨Or.inr hnode, wellPlacedFrom_nil⟩) hplaced
        | cons q rest =>
          rw [walk]
          simp only [metadata_behind_file hhere hpart hnode q]
          exact ⟨_, rfl⟩
      | directory =>
        by_cases hpartName : part = name
        · rw [walk_named_directory hhere hpart hdir hnode hpartName]
          exact ⟨_, rfl⟩
        · have hne : rest ≠ [] := by
            rintro rfl
            exact hpartName hends.single
          rw [walk_directory hhere hpart hdir hnode hpartName]
          refine walk_misplaced hhere' hrest' hnode hends.tail fun hplaced' => hplaced ?_
          exact wellPlacedFrom_cons.mpr ⟨Or.inr (by rw [hnode, if_neg hne]), hplaced'⟩

/-- Where the name misleads it, the walk along a well-placed path fails or leaves a parent
    missing. -/
theorem walk_repeated : ∀ {rest here : List String} {t : Tree}, (∀ p ∈ here, Plain p) →
    (∀ p ∈ rest, Plain p) → t.node here = some .directory → EndsAt name rest →
    WellPlacedFrom t here rest → ¬UnrepeatedFrom t name createParents here rest →
    ∀ p, (walk name createParents rest here t).1 = .ok p →
      ¬Added createParents t (walk name createParents rest here t).2 here rest
  | [], here, t, _, _, _, _, _, hrepeated => by
    refine absurd ?_ hrepeated
    intro before part after hnil
    simp at hnil
  | part :: rest, here, t, hhere, hrest, hdir, hends, hplaced, hrepeated => by
    intro path hok hadded
    have hpart := hrest part List.mem_cons_self
    have hhere' := plain_concat hhere hpart
    have hrest' : ∀ p ∈ rest, Plain p := fun p hp => hrest p (List.mem_cons_of_mem part hp)
    have hne : rest ≠ [] := by
      rintro rfl
      refine hrepeated (unrepeatedFrom_cons.mpr ⟨fun h => absurd rfl h, ?_⟩)
      intro before p after hnil
      simp at hnil
    obtain ⟨hfirst, hplaced'⟩ := wellPlacedFrom_cons.mp hplaced
    rcases hfirst with hnone | hsome
    · by_cases hflag : createParents = true
      · by_cases hpartName : part = name
        · rw [walk_absent hhere hpart hdir hnone (fun h => h.2 hpartName)] at hadded
          have hmissing : metadata t (here ++ [part]) = .error .notFound := by
            rw [metadata_entry hhere hdir hpart, hnone]
          rw [(walk_missing hmissing).1, Added, if_pos hflag] at hadded
          have := (hadded (here ++ [part])).1 ⟨hnone, parentOf_cons.mpr (Or.inl ⟨hne, rfl⟩)⟩
          rw [hnone] at this
          cases this
        · rw [walk_created hhere hpart hdir hnone hflag hpartName] at hok hadded
          refine walk_repeated hhere' hrest' (created_self hdir hnone) hends.tail
            (created_wellPlacedFrom hdir hnone) ?_ path hok ?_
          · intro hunrepeated
            refine hrepeated (unrepeatedFrom_cons.mpr ⟨fun _ h => absurd h hpartName, ?_⟩)
            intro before p after hsplit hafter hp
            have := (hunrepeated before p after hsplit hafter hp).2
            rw [hflag] at this
            cases this
          · rw [Added, if_pos hflag] at hadded ⊢
            exact (parentsAdded_created hdir hnone hne).mp hadded
      · -- without creation nothing below a missing parent can mislead the walk
        have hkept : createParents = false := Bool.eq_false_iff.mpr hflag
        refine hrepeated (unrepeatedFrom_cons.mpr ⟨fun _ _ => ⟨hnone, hkept⟩, ?_⟩)
        intro before p after _ _ _
        rw [List.append_assoc]
        exact ⟨node_none hnone, hkept⟩
    · rw [if_neg hne] at hsome
      by_cases hpartName : part = name
      · rw [walk_named_directory hhere hpart hdir hsome hpartName] at hok
        cases hok
      · rw [walk_directory hhere hpart hdir hsome hpartName] at hok hadded
        refine walk_repeated hhere' hrest' hsome hends.tail hplaced' ?_ path hok ?_
        · intro hunrepeated
          exact hrepeated (unrepeatedFrom_cons.mpr ⟨fun _ h => absurd h hpartName, hunrepeated⟩)
        · unfold Added at hadded ⊢
          split
          · rename_i hflag
            rw [if_pos hflag] at hadded
            exact (parentsAdded_directory hsome).mp hadded
          · rename_i hflag
            rwa [if_neg hflag] at hadded

/-- The walk creates nothing at its end. -/
theorem walk_end : ∀ {rest here : List String} {t : Tree}, (∀ p ∈ here, Plain p) →
    (∀ p ∈ rest, Plain p) → t.node here = some .directory → EndsAt name rest →
    (walk name createParents rest here t).2.node (here ++ rest) = t.node (here ++ rest)
  | [], _, _, _, _, _, _ => rfl
  | part :: rest, here, t, hhere, hrest, hdir, hends => by
    have hpart := hrest part List.mem_cons_self
    have hhere' := plain_concat hhere hpart
    have hrest' : ∀ p ∈ rest, Plain p := fun p hp => hrest p (List.mem_cons_of_mem part hp)
    have hsplit : here ++ part :: rest = here ++ [part] ++ rest := by simp
    rw [hsplit]
    cases hnode : t.node (here ++ [part]) with
    | none =>
      by_cases hcreate : createParents = true ∧ part ≠ name
      · have hne : here ++ [part] ++ rest ≠ here ++ [part] := by
          rw [Ne, List.append_right_eq_self]
          rintro rfl
          exact hcreate.2 hends.single
        rw [walk_created hhere hpart hdir hnode hcreate.1 hcreate.2,
          walk_end hhere' hrest' (created_self hdir hnode) hends.tail, created_other hdir hnode hne]
      · have hmissing : metadata t (here ++ [part]) = .error .notFound := by
          rw [metadata_entry hhere hdir hpart, hnode]
        rw [walk_absent hhere hpart hdir hnode hcreate, (walk_missing hmissing).1]
    | some kind =>
      cases kind with
      | link => rw [walk_link hhere hpart hdir hnode]
      | file =>
        rw [walk_file hhere hpart hdir hnode]
        cases rest with
        | nil => rfl
        | cons q rest =>
          rw [walk]
          simp only [metadata_behind_file hhere hpart hnode q]
      | directory =>
        by_cases hpartName : part = name
        · rw [walk_named_directory hhere hpart hdir hnode hpartName]
        · rw [walk_directory hhere hpart hdir hnode hpartName]
          exact walk_end hhere' hrest' hnode hends.tail

end Walk

/-! ## Confinement -/

theorem mem_splitOn (sep : Char) {c : Char} (hc : c ≠ sep) :
    ∀ {cs : List Char}, c ∈ cs → ∃ piece ∈ cs.splitOn sep, c ∈ piece
  | [], h => by cases h
  | d :: cs, h => by
    rw [List.splitOn, List.splitOnP_cons_eq_if_modifyHead]
    by_cases hd : d = sep
    · rw [if_pos (by simpa using hd)]
      have hmem : c ∈ cs := by
        rcases List.mem_cons.mp h with rfl | h
        · exact absurd hd hc
        · exact h
      obtain ⟨piece, hpiece, hin⟩ := mem_splitOn sep hc hmem
      exact ⟨piece, List.mem_cons_of_mem _ hpiece, hin⟩
    · rw [if_neg (by simpa using hd)]
      obtain ⟨first, rest, hsplit⟩ := List.exists_cons_of_ne_nil
        (List.splitOnP_ne_nil (· == sep) cs)
      rw [hsplit, List.modifyHead_cons]
      rcases List.mem_cons.mp h with rfl | h
      · exact ⟨c :: first, List.mem_cons_self, List.mem_cons_self⟩
      · obtain ⟨piece, hpiece, hin⟩ := mem_splitOn sep hc h
        rw [List.splitOn, hsplit] at hpiece
        rcases List.mem_cons.mp hpiece with rfl | hpiece
        · exact ⟨d :: piece, List.mem_cons_self, List.mem_cons_of_mem d hin⟩
        · exact ⟨piece, List.mem_cons_of_mem _ hpiece, hin⟩

theorem componentOf_ordinary {first : Bool} {piece : String} (h : Ordinary piece) :
    componentOf first piece = some (.normal piece) := by
  rw [componentOf, if_neg h.1, if_neg h.2.1, if_neg h.2.2.1]

section Confined

variable {t : Tree} {relative : String} {createParents : Bool}

/-- A path of ordinary components is walked. -/
theorem confined_ordinary (h : ∀ piece ∈ split '/' relative, Ordinary piece) :
    confined t relative createParents =
      walk (((split '/' relative).getLast?).getD "") createParents (split '/' relative) [] t := by
  rw [confined, if_neg]
  rintro (hempty | hslash | hcomponent)
  · subst hempty
    exact (h "" (by simp [split, List.splitOn])).1 rfl
  · obtain ⟨piece, hpiece, hin⟩ := mem_splitOn '/' (by decide) hslash
    have := h (String.ofList piece) (List.mem_map_of_mem hpiece)
    exact this.2.2.2.2 (by rwa [String.toList_ofList])
  · obtain ⟨component, hmem, hnot⟩ := List.any_eq_true.mp hcomponent
    have hall : ∀ c ∈ components relative, c.isNormal = true := by
      unfold components
      split
      · simp
      · rename_i piece rest hsplit
        rw [hsplit] at h
        rw [componentOf_ordinary (h piece List.mem_cons_self)]
        intro c hc
        simp only [List.filterMap_cons, id, List.mem_cons, List.mem_filterMap, List.mem_map,
          exists_eq_right] at hc
        rcases hc with rfl | ⟨p, hp, heq⟩
        · rfl
        · rw [componentOf_ordinary (h p (List.mem_cons_of_mem _ hp))] at heq
          cases heq
          rfl
    rw [hall component hmem] at hnot
    cases hnot

/-- **The walk along a path of ordinary components does what is asked of it exactly when, if the
    path is well placed, the name of its final component stands at no parent of it that exists or
    is to be created.** -/
theorem confined_iff (h : ∀ piece ∈ split '/' relative, Ordinary piece) :
    Meets t (split '/' relative) createParents (confined t relative createParents) ↔
      (WellPlaced t (split '/' relative) → Unrepeated t (split '/' relative) createParents) := by
  rw [confined_ordinary h]
  have hplain : ∀ p ∈ split '/' relative, Plain p := fun p hp => (h p hp).plain
  have hnil : ∀ p ∈ ([] : List String), Plain p := fun p hp => absurd hp List.not_mem_nil
  have hends : EndsAt (((split '/' relative).getLast?).getD "") (split '/' relative) := by
    intro last hlast
    rw [Option.mem_def.mp hlast, Option.getD_some]
  generalize split '/' relative = path at *
  have hend : (walk _ createParents path [] t).2.node ([] ++ path) = t.node ([] ++ path) :=
    walk_end hnil hplain t.root hends
  rw [List.nil_append] at hend
  constructor
  · rintro ⟨hiff, hadded, -⟩ hplaced
    by_contra hrepeated
    obtain ⟨p, hp⟩ := hiff.mpr hplaced
    exact walk_repeated hnil hplain t.root hends hplaced hrepeated p hp (hadded ⟨p, hp⟩).2
  · intro hunrepeated
    by_cases hplaced : WellPlaced t path
    · obtain ⟨t', hwalk, hadded⟩ :=
        walk_placed hnil hplain t.root hends hplaced (hunrepeated hplaced)
      rw [hwalk] at hend ⊢
      exact ⟨⟨fun _ => hplaced, fun _ => ⟨_, rfl⟩⟩, fun _ => ⟨rfl, hadded⟩, hend⟩
    · have hmisplaced : ∃ e, (walk _ createParents path [] t).1 = .error e :=
        walk_misplaced hnil hplain t.root hends hplaced
      obtain ⟨e, he⟩ := hmisplaced
      have hfails : ¬∃ p, (walk ((path.getLast?).getD "") createParents path [] t).1 = .ok p := by
        rintro ⟨p, hp⟩
        rw [he] at hp
        cases hp
      exact ⟨⟨fun hok => absurd hok hfails, fun hok => absurd hok hplaced⟩,
        fun hok => absurd hok hfails, hend⟩

end Confined

/-! ## A repeated name -/

/-- A tree with one directory. -/
def oneDirectory (name : String) : Tree where
  node p := if p = [] ∨ p = [name] then some .directory else none
  root := by simp
  parent p n h := by
    by_cases hp : p = []
    · simp [hp]
    · refine absurd (if_neg ?_) h
      rintro (hnil | hone)
      · simp at hnil
      · exact hp (by simpa using congrArg List.length hone)

theorem split_src : split '/' "src/src" = ["src", "src"] := by decide

theorem src_ordinary : ∀ piece ∈ split '/' "src/src", Ordinary piece := by
  rw [split_src]
  simp [Ordinary]

theorem src_wellPlaced : WellPlaced (oneDirectory "src") ["src", "src"] := by
  refine wellPlacedFrom_cons.mpr ⟨Or.inr ?_, wellPlacedFrom_cons.mpr ⟨Or.inl ?_, ?_⟩⟩
  · decide
  · decide
  · exact wellPlacedFrom_nil

/-- A directory keeps a file of its own name from being confined to it. -/
theorem confined_repeated :
    (∀ piece ∈ split '/' "src/src", Ordinary piece) ∧
      (confined (oneDirectory "src") "src/src" false).1 =
        fail "effect evidence must be a regular file" ∧
      ¬Meets (oneDirectory "src") (split '/' "src/src") false
        (confined (oneDirectory "src") "src/src" false) := by
  have hfails : (confined (oneDirectory "src") "src/src" false).1 =
      fail "effect evidence must be a regular file" := by decide
  refine ⟨src_ordinary, hfails, ?_⟩
  rintro ⟨hiff, -⟩
  obtain ⟨p, hp⟩ := hiff.mpr (split_src ▸ src_wellPlaced)
  rw [hfails] at hp
  cases hp

/-- Confinement below a directory of another name. -/
theorem confined_iff_sample :
    (∀ piece ∈ split '/' "docs/plan", Ordinary piece) ∧
      Meets (oneDirectory "docs") (split '/' "docs/plan") true
        (confined (oneDirectory "docs") "docs/plan" true) := by
  have hsplit : split '/' "docs/plan" = ["docs", "plan"] := by decide
  have hordinary : ∀ piece ∈ split '/' "docs/plan", Ordinary piece := by
    rw [hsplit]
    simp [Ordinary]
  refine ⟨hordinary, (confined_iff hordinary).mpr fun _ => ?_⟩
  rw [hsplit]
  refine unrepeatedFrom_cons.mpr ⟨fun _ h => absurd h (by decide),
    unrepeatedFrom_cons.mpr ⟨fun h => absurd rfl h, ?_⟩⟩
  intro before part after hnil
  simp at hnil

end AgenticCore.EvidencePath
