import Mathlib.Data.List.Induction
import Mathlib.Tactic.Tauto

/-!
# A directory tree and its path operations

* `Tree`         : what stands at each path. Only directories have entries.
* `stat`         : what a path leads to, link not followed, or why it leads nowhere.
* `createDir`    : one directory, in a directory that exists.
* `addDirectory` : the tree with one more directory.

A path is given by its pieces. An empty piece and `.` stay at a directory; a piece naming a parent
is not modelled.
-/

set_option autoImplicit false

namespace DirectoryTree

inductive Kind where
  | file
  | directory
  | link
  deriving DecidableEq, Repr

/-- Why an operation on a path fails. A path through a link is `followed`; where it leads is not
    modelled. -/
inductive Failure where
  | notFound
  | notDirectory
  | alreadyExists
  | followed
  deriving DecidableEq, Repr

structure Tree where
  node : List String → Option Kind
  root : node [] = some .directory
  parent : ∀ path name, node (path ++ [name]) ≠ none → node path = some .directory

theorem Tree.ext {t t' : Tree} (h : t.node = t'.node) : t = t' := by
  obtain ⟨node, _, _⟩ := t
  obtain ⟨node', _, _⟩ := t'
  obtain rfl : node = node' := h
  rfl

/-- A piece that names an entry. -/
def Plain (piece : String) : Prop := piece ≠ "" ∧ piece ≠ "."

instance (piece : String) : Decidable (Plain piece) := inferInstanceAs (Decidable (_ ∧ _))

variable (t : Tree)

/-- From a place in the tree along the pieces: the place they lead to and what stands there. -/
def stat : List String → List String → Except Failure (List String × Kind)
  | here, [] =>
    match t.node here with
    | none => .error .notFound
    | some kind => .ok (here, kind)
  | here, piece :: rest =>
    match t.node here with
    | none => .error .notFound
    | some .file => .error .notDirectory
    | some .link => .error .followed
    | some .directory => stat (if Plain piece then here ++ [piece] else here) rest

/-- `symlink_metadata`. -/
def metadata (path : List String) : Except Failure Kind := (stat t [] path).map (·.2)

/-- The tree with a directory where nothing stands, in a directory. -/
def addDirectory (path : List String) (name : String) (hparent : t.node path = some .directory)
    (hnone : t.node (path ++ [name]) = none) : Tree where
  node p := if p = path ++ [name] then some .directory else t.node p
  root := by
    rw [if_neg (by simp)]
    exact t.root
  parent p n h := by
    by_cases hp : p = path ++ [name]
    · rw [if_pos hp]
    · rw [if_neg hp]
      split at h
      · rename_i heq
        obtain ⟨rfl, -⟩ := List.append_inj' heq rfl
        exact hparent
      · exact t.parent p n h

/-- `create_dir`. -/
def createDir (path : List String) : Except Failure Tree :=
  match path.getLast? with
  | none => .error .alreadyExists
  | some name =>
    match stat t [] path.dropLast with
    | .error e => .error e
    | .ok (here, _) =>
      if hparent : t.node here = some .directory then
        if hnew : Plain name ∧ t.node (here ++ [name]) = none then
          .ok (addDirectory t here name hparent hnew.2)
        else .error .alreadyExists
      else .error .notDirectory

variable {t}

/-! ## Where a path leads -/

theorem node_directory {path rest : List String} (hrest : rest ≠ [])
    (h : t.node (path ++ rest) ≠ none) : t.node path = some .directory := by
  induction rest using List.reverseRecOn with
  | nil => exact absurd rfl hrest
  | append_singleton rest name ih =>
    rw [← List.append_assoc] at h
    have hparent := t.parent _ _ h
    by_cases hnil : rest = []
    · rwa [hnil, List.append_nil] at hparent
    · exact ih hnil (by rw [hparent]; exact Option.some_ne_none _)

theorem node_none {path rest : List String} (h : t.node path = none) :
    t.node (path ++ rest) = none := by
  by_cases hrest : rest = []
  · rwa [hrest, List.append_nil]
  · by_contra hne
    rw [node_directory hrest hne] at h
    cases h

/-- A path that leads to a directory is left behind in the longer ones. -/
theorem stat_append {here path : List String} (hplain : ∀ p ∈ path, Plain p)
    (h : t.node (here ++ path) = some .directory) (rest : List String) :
    stat t here (path ++ rest) = stat t (here ++ path) rest := by
  induction path generalizing here with
  | nil => simp
  | cons piece path ih =>
    have hhere : t.node here = some .directory :=
      node_directory (List.cons_ne_nil piece path) (by rw [h]; exact Option.some_ne_none _)
    have hsplit : here ++ piece :: path = here ++ [piece] ++ path := by simp
    rw [List.cons_append, stat, hhere, if_pos (hplain piece List.mem_cons_self), hsplit]
    exact ih (fun p hp => hplain p (List.mem_cons_of_mem piece hp)) (hsplit ▸ h)

theorem stat_error {here path : List String} {e : Failure} (h : stat t here path = .error e)
    (rest : List String) : stat t here (path ++ rest) = .error e := by
  induction path generalizing here with
  | nil =>
    rw [stat] at h
    split at h
    · rename_i hnone
      cases h
      cases rest with
      | nil => rw [List.nil_append, stat, hnone]
      | cons piece rest => rw [List.nil_append, stat, hnone]
    · cases h
  | cons piece path ih =>
    rw [List.cons_append, stat]
    rw [stat] at h
    split at h
    · exact h
    · exact h
    · exact h
    · exact ih h

/-- One piece more, from a directory. -/
theorem metadata_entry {path : List String} (hplain : ∀ p ∈ path, Plain p)
    (h : t.node path = some .directory) {name : String} (hname : Plain name) :
    metadata t (path ++ [name]) = match t.node (path ++ [name]) with
      | none => .error .notFound
      | some kind => .ok kind := by
  rw [metadata, stat_append hplain (by rwa [List.nil_append]), List.nil_append, stat, h,
    if_pos hname, stat]
  cases t.node (path ++ [name]) <;> rfl

theorem metadata_below {path : List String} {e : Failure} (h : metadata t path = .error e)
    (rest : List String) : metadata t (path ++ rest) = .error e := by
  unfold metadata at h ⊢
  cases hstat : stat t [] path with
  | error e' =>
    rw [hstat] at h
    rw [stat_error hstat]
    exact h
  | ok at_ =>
    rw [hstat] at h
    cases h

/-- Nothing is found behind a file. -/
theorem metadata_behind_file {path : List String} (hplain : ∀ p ∈ path, Plain p) {name : String}
    (hname : Plain name) (h : t.node (path ++ [name]) = some .file) (piece : String) :
    metadata t (path ++ [name] ++ [piece]) = .error .notDirectory := by
  have hpath : t.node path = some .directory :=
    t.parent path name (by rw [h]; exact Option.some_ne_none _)
  rw [metadata, List.append_assoc, stat_append hplain (by rwa [List.nil_append]), List.nil_append,
    List.cons_append, stat, hpath, if_pos hname, List.nil_append, stat, h]
  rfl

theorem createDir_entry {path : List String} (hplain : ∀ p ∈ path, Plain p)
    (h : t.node path = some .directory) {name : String} (hname : Plain name)
    (hnone : t.node (path ++ [name]) = none) :
    createDir t (path ++ [name]) = .ok (addDirectory t path name h hnone) := by
  have hstat : stat t [] path = .ok (path, .directory) := by
    have : stat t [] (path ++ []) = stat t ([] ++ path) [] :=
      stat_append hplain (by rwa [List.nil_append]) []
    rw [List.append_nil, List.nil_append] at this
    rw [this, stat, h]
  unfold createDir
  rw [List.getLast?_concat, List.dropLast_concat, hstat]
  simp only
  rw [dif_pos h, dif_pos ⟨hname, hnone⟩]

theorem createDir_error {path : List String} {e : Failure} (h : metadata t path = .error e)
    (name : String) : createDir t (path ++ [name]) = .error e := by
  unfold metadata at h
  unfold createDir
  rw [List.getLast?_concat, List.dropLast_concat]
  cases hstat : stat t [] path with
  | error e' =>
    rw [hstat] at h
    cases h
    rfl
  | ok at_ =>
    rw [hstat] at h
    cases h

end DirectoryTree
