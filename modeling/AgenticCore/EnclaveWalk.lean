import AgenticCore.Adoption

/-!
# What the enclave's walk finds

* `Under`, `covers_iff`  : paths below a path, and declarations by them.
* `validate_covers`      : at most one declaration covers a path.
* `Visited`, `walk_adds` : what the walk reaches, and the residue in it.
* `RepositoryTree`       : a tree whose directories' entries have distinct names.
* `view_unlink`          : a path's removal in the tree.
* `removals_residue`     : what is removed stands in the tree as residue.
* `removals_below`       : **what lies below what is removed is removed.**
-/

set_option autoImplicit false

namespace AgenticCore

open Json Text

namespace Enclave

/-! ## Paths -/

/-- `path` lies below `above`. -/
def Under (above path : String) : Prop := ∃ rest, path.toList = above.toList ++ '/' :: rest

theorem startsWith_slash {above path : String} :
    startsWith (above ++ "/") path = true ↔ Under above path := by
  rw [startsWith, List.isPrefixOf_iff_prefix, String.toList_append]
  have hslash : ("/" : String).toList = ['/'] := by decide
  rw [hslash]
  constructor
  · rintro ⟨rest, hrest⟩
    exact ⟨rest, by rw [← hrest, List.append_assoc]; rfl⟩
  · rintro ⟨rest, hrest⟩
    exact ⟨rest, by rw [hrest, List.append_assoc]; rfl⟩

theorem covers_iff {row : Row} {path : String} :
    covers row path = true ↔ path = row.path ∨ (row.scope = "subtree" ∧ Under row.path path) := by
  rw [covers, Bool.or_eq_true, Bool.and_eq_true, decide_eq_true_eq, decide_eq_true_eq,
    startsWith_slash]

theorem Under.trans {a b c : String} (hab : Under a b) (hbc : Under b c) : Under a c := by
  obtain ⟨rest, hb⟩ := hab
  obtain ⟨rest', hc⟩ := hbc
  exact ⟨rest ++ '/' :: rest', by rw [hc, hb, List.append_assoc, List.cons_append]⟩

/-- Two paths above one path are the same, or one lies below the other. -/
theorem Under.comparable {a b d : String} (ha : Under a d) (hb : Under b d) :
    a = b ∨ Under a b ∨ Under b a := by
  obtain ⟨rest, ha⟩ := ha
  obtain ⟨rest', hb⟩ := hb
  rw [ha] at hb
  rcases List.append_eq_append_iff.mp hb with ⟨middle, hb', hrest⟩ | ⟨middle, ha', hrest⟩
  · cases middle with
    | nil => exact Or.inl (String.toList_injective (by simpa using hb'.symm))
    | cons d middle =>
      rw [List.cons_append, List.cons.injEq] at hrest
      exact Or.inr (Or.inl ⟨middle, by rw [hb', hrest.1]⟩)
  · cases middle with
    | nil => exact Or.inl (String.toList_injective (by simpa using ha'))
    | cons d middle =>
      rw [List.cons_append, List.cons.injEq] at hrest
      exact Or.inr (Or.inr ⟨middle, by rw [ha', hrest.1]⟩)

theorem under_child (path name : String) : Under path (path ++ "/" ++ name) := by
  have hslash : ("/" : String).toList = ['/'] := by decide
  exact ⟨name.toList, by
    rw [String.toList_append, String.toList_append, hslash, List.append_assoc]
    rfl⟩

/-- What lies above an entry is its directory, or lies above that. -/
theorem under_of_child {above path name : String} (hname : '/' ∉ name.toList)
    (h : Under above (path ++ "/" ++ name)) : above = path ∨ Under above path := by
  rcases h.comparable (under_child path name) with rfl | hbelow | habove
  · exact Or.inl rfl
  · exact Or.inr hbelow
  · obtain ⟨rest, hrest⟩ := h
    obtain ⟨rest', hrest'⟩ := habove
    have hslash : ("/" : String).toList = ['/'] := by decide
    rw [String.toList_append, String.toList_append, hslash, hrest', List.append_assoc,
      List.append_assoc, List.append_cancel_left_eq] at hrest
    have hname' : name.toList = rest' ++ '/' :: rest := by simpa using hrest
    rw [hname'] at hname
    exact absurd (List.mem_append_right rest' List.mem_cons_self) hname

/-! ## Declarations -/

theorem validate_pairwise {earlier rows : List Row} (h : validate earlier rows = .ok ()) :
    (∀ row ∈ rows, ∀ other ∈ earlier,
      covers other row.path = false ∧ covers row other.path = false) ∧
      rows.Pairwise fun a b => covers a b.path = false ∧ covers b a.path = false := by
  induction rows generalizing earlier with
  | nil => exact ⟨fun row hrow => absurd hrow List.not_mem_nil, List.Pairwise.nil⟩
  | cons row rest ih =>
    simp only [validate, Except.bind_eq_ok_iff] at h
    obtain ⟨_, hrow, h⟩ := h
    obtain ⟨hrest, hpairwise⟩ := ih h
    simp only [checkRow, Except.bind_eq_ok_iff, check_eq_ok] at hrow
    obtain ⟨_, -, hearlier⟩ := hrow
    refine ⟨fun r hr other hother => ?_, ?_⟩
    · rcases List.mem_cons.mp hr with rfl | hr
      · exact hearlier other hother
      · exact hrest r hr other (List.mem_append_left _ hother)
    · refine List.Pairwise.cons (fun r hr => ?_) hpairwise
      exact hrest r hr row (List.mem_append_right _ List.mem_cons_self)

/-- Declarations that cover a common path cover one another's paths. -/
theorem covers_common {a b : Row} {path : String} (ha : covers a path = true)
    (hb : covers b path = true) : covers a b.path = true ∨ covers b a.path = true := by
  rw [covers_iff] at ha hb
  rcases ha with rfl | ⟨hascope, ha⟩
  · rcases hb with hb | hb
    · exact Or.inl (covers_iff.mpr (Or.inl hb.symm))
    · exact Or.inr (covers_iff.mpr (Or.inr hb))
  · rcases hb with rfl | ⟨hbscope, hb⟩
    · exact Or.inl (covers_iff.mpr (Or.inr ⟨hascope, ha⟩))
    · rcases ha.comparable hb with heq | hab | hba
      · exact Or.inl (covers_iff.mpr (Or.inl heq.symm))
      · exact Or.inl (covers_iff.mpr (Or.inr ⟨hascope, hab⟩))
      · exact Or.inr (covers_iff.mpr (Or.inr ⟨hbscope, hba⟩))

/-- **At most one declaration covers a path.** -/
theorem validate_covers {rows : List Row} (h : validate [] rows = .ok ()) (path : String) :
    rows.Pairwise fun a b => ¬(covers a path = true ∧ covers b path = true) := by
  refine (validate_pairwise h).2.imp fun {a b} hapart => ?_
  rintro ⟨ha, hb⟩
  rcases covers_common ha hb with hcovers | hcovers
  · rw [hapart.1] at hcovers
    cases hcovers
  · rw [hapart.2] at hcovers
    cases hcovers

/-! ## What the walk reaches -/

/-- No declaration covers the path, and it is no directory above a declared path. -/
def Residue (rows : List Row) (path : String) (node : Node) : Prop :=
  (∀ row ∈ rows, covers row path = false) ∧
    (node.isDir = true → ∀ row ∈ rows, ¬Under path row.path)

/-- What lies below residue is residue. -/
theorem Residue.child {rows : List Row} {path name : String} {children : List (String × Node)}
    {node : Node} (h : Residue rows path (.dir children)) (hname : '/' ∉ name.toList) :
    Residue rows (path ++ "/" ++ name) node := by
  obtain ⟨huncovered, habove⟩ := h
  have habove := habove rfl
  refine ⟨fun row hrow => ?_, fun _ row hrow hbelow => ?_⟩
  · rw [Bool.eq_false_iff]
    intro hcovers
    have huncovered := huncovered row hrow
    rw [Bool.eq_false_iff, ne_eq, covers_iff, not_or] at huncovered
    rcases covers_iff.mp hcovers with heq | ⟨hscope, hunder⟩
    · exact habove row hrow (heq ▸ under_child path name)
    · rcases under_of_child hname hunder with heq | hunder
      · exact huncovered.1 heq.symm
      · exact huncovered.2 ⟨hscope, hunder⟩
  · exact habove row hrow ((under_child path name).trans hbelow)

/-- What the walk from a path reaches: it goes on below directories nobody declares. -/
inductive Visited (rows : List Row) : String → Node → String → Node → Prop where
  | here (path : String) (node : Node) : Visited rows path node path node
  | inside {path name at_ : String} {children : List (String × Node)} {node target : Node}
      (huncovered : ∀ row ∈ rows, covers row path = false) (hmem : (name, node) ∈ children)
      (hrest : Visited rows (path ++ "/" ++ name) node at_ target) :
      Visited rows path (.dir children) at_ target

/-- What a walk adds: the residue among what it reaches, each with its identity. -/
structure Adds (hash : ByteArray → String) (rows : List Row) (reached : String → Node → Prop)
    (w w' : Inventory) : Prop where
  sound : ∀ path v, w'.removals[path]? = some v → w.removals[path]? = some v ∨
    ∃ node, reached path node ∧ Residue rows path node ∧ identity hash path node = .ok v
  mono : ∀ path, path ∈ w.removals → path ∈ w'.removals
  complete : ∀ path node, reached path node → Residue rows path node → path ∈ w'.removals

variable {hash : ByteArray → String} {rows : List Row}

theorem Adds.nothing {w w' : Inventory} (h : w'.removals = w.removals) :
    Adds hash rows (fun _ _ => False) w w' :=
  ⟨fun _ _ hv => Or.inl (h ▸ hv), fun _ hpath => h ▸ hpath, fun _ _ hfalse => hfalse.elim⟩

theorem Adds.then {r r' : String → Node → Prop} {w w' w'' : Inventory}
    (h : Adds hash rows r w w') (h' : Adds hash rows r' w' w'') :
    Adds hash rows (fun path node => r path node ∨ r' path node) w w'' := by
  refine ⟨fun path v hv => ?_, fun path hpath => h'.mono path (h.mono path hpath), ?_⟩
  · rcases h'.sound path v hv with hv | ⟨node, hreached, hrest⟩
    · rcases h.sound path v hv with hv | ⟨node, hreached, hrest⟩
      · exact Or.inl hv
      · exact Or.inr ⟨node, Or.inl hreached, hrest⟩
    · exact Or.inr ⟨node, Or.inr hreached, hrest⟩
  · rintro path node (hreached | hreached) hresidue
    · exact h'.mono path (h.complete path node hreached hresidue)
    · exact h'.complete path node hreached hresidue

theorem Adds.congr {r r' : String → Node → Prop} {w w' : Inventory} (h : Adds hash rows r w w')
    (hiff : ∀ path node, r path node ↔ r' path node) : Adds hash rows r' w w' := by
  refine ⟨fun path v hv => ?_, h.mono, fun path node hr => h.complete path node ((hiff _ _).mpr hr)⟩
  rcases h.sound path v hv with hv | ⟨node, hreached, hrest⟩
  · exact Or.inl hv
  · exact Or.inr ⟨node, (hiff _ _).mp hreached, hrest⟩

theorem Adds.recount {r : String → Node → Prop} {w w' : Inventory} {count : Nat}
    (h : Adds hash rows r { w with count } w') : Adds hash rows r w w' :=
  ⟨h.sound, h.mono, h.complete⟩

/-- Entering one path adds it where it is residue, and goes on where nobody declares it. -/
theorem enter_adds {path : String} {node : Node} {observed : Value} {w : Inventory}
    {r : Inventory × Bool} (hobserved : identity hash path node = .ok observed)
    (h : enter rows path node observed w = .ok r) :
    Adds hash rows (fun p n => p = path ∧ n = node) w r.1 ∧
      (r.2 = true ↔ node.isDir = true ∧ ∀ row ∈ rows, covers row path = false) := by
  unfold enter at h
  split at h
  · rename_i hfind
    have huncovered : ∀ row ∈ rows, covers row path = false := fun row hrow => by
      simpa using List.find?_eq_none.mp hfind row hrow
    cases h
    refine ⟨?_, fun hdir => ⟨hdir, huncovered⟩, And.left⟩
    unfold enterUndeclared
    split
    · rename_i hcontainer
      rw [Bool.and_eq_true, List.any_eq_true] at hcontainer
      obtain ⟨hdir, row, hrow, hbelow⟩ := hcontainer
      refine ⟨fun p v hv => Or.inl hv, fun p hp => hp, ?_⟩
      rintro p n ⟨rfl, rfl⟩ hresidue
      exact absurd (startsWith_slash.mp hbelow) (hresidue.2 hdir row hrow)
    · rename_i hcontainer
      have hresidue : Residue rows path node := by
        refine ⟨huncovered, fun hdir row hrow hbelow => hcontainer ?_⟩
        rw [Bool.and_eq_true, List.any_eq_true]
        exact ⟨hdir, row, hrow, startsWith_slash.mpr hbelow⟩
      refine ⟨fun p v hv => ?_, fun p hp => ?_, ?_⟩
      · rw [Std.ExtTreeMap.getElem?_insert] at hv
        split at hv
        · rename_i heq
          obtain rfl := Std.LawfulEqCmp.eq_of_compare heq
          cases hv
          exact Or.inr ⟨node, ⟨rfl, rfl⟩, hresidue, hobserved⟩
        · exact Or.inl hv
      · exact Std.ExtTreeMap.mem_insert.mpr (Or.inr hp)
      · rintro p n ⟨rfl, rfl⟩ -
        exact Std.ExtTreeMap.mem_insert_self
  · rename_i row hfind
    have hcovers := List.find?_some hfind
    have hrow := List.mem_of_find?_eq_some hfind
    have hcovered : ¬∀ row ∈ rows, covers row path = false := by
      intro hall
      rw [hall row hrow] at hcovers
      cases hcovers
    have hadds : ∀ entries, Adds hash rows (fun p n => p = path ∧ n = node) w
        { w with entries := entries } := by
      intro entries
      refine ⟨fun p v hv => Or.inl hv, fun p hp => hp, ?_⟩
      rintro p n ⟨rfl, rfl⟩ hresidue
      exact absurd hresidue.1 hcovered
    simp only at h
    split at h
    · cases h
      exact ⟨hadds _, by simp [hcovered]⟩
    · split at h
      · cases h
      · cases h
        exact ⟨hadds _, by simp [hcovered]⟩

mutual
/-- **A walk adds exactly the residue among what it reaches.** -/
theorem walk_adds {path : String} {depth : Nat} {w w' : Inventory} : ∀ {node : Node},
    walk hash rows path depth w node = .ok w' → Adds hash rows (Visited rows path node) w w'
  | .dir children, h => by
    simp only [walk, Except.bind_eq_ok_iff] at h
    obtain ⟨_, -, observed, hobserved, ⟨w₁, descend⟩, hw₁, h⟩ := h
    obtain ⟨hadds, hdescend⟩ := enter_adds hobserved hw₁
    have hadds := hadds.recount
    simp only at h hdescend
    split at h
    · rename_i hyes
      have huncovered := (hdescend.mp hyes).2
      split at h
      · cases h
      · refine (hadds.then (walkChildren_adds h)).congr fun p n => ?_
        constructor
        · rintro (⟨rfl, rfl⟩ | ⟨name, child, hmem, hvisited⟩)
          · exact Visited.here _ _
          · exact Visited.inside huncovered hmem hvisited
        · rintro (_ | ⟨_, hmem, hvisited⟩)
          · exact Or.inl ⟨rfl, rfl⟩
          · exact Or.inr ⟨_, _, hmem, hvisited⟩
    · rename_i hno
      cases h
      refine hadds.congr fun p n => ?_
      constructor
      · rintro ⟨rfl, rfl⟩
        exact Visited.here _ _
      · rintro (_ | ⟨huncovered, _, _⟩)
        · exact ⟨rfl, rfl⟩
        · exact absurd (hdescend.mpr ⟨rfl, huncovered⟩) hno
  | .file bytes, h => by
    simp only [walk, Except.bind_eq_ok_iff, Except.pure_eq_ok_iff] at h
    obtain ⟨_, -, observed, hobserved, r, hr, rfl⟩ := h
    refine (enter_adds hobserved hr).1.recount.congr fun p n => ?_
    constructor
    · rintro ⟨rfl, rfl⟩
      exact Visited.here _ _
    · rintro ⟨⟩
      exact ⟨rfl, rfl⟩
  | .link target, h => by
    simp only [walk, Except.bind_eq_ok_iff, Except.pure_eq_ok_iff] at h
    obtain ⟨_, -, observed, hobserved, r, hr, rfl⟩ := h
    refine (enter_adds hobserved hr).1.recount.congr fun p n => ?_
    constructor
    · rintro ⟨rfl, rfl⟩
      exact Visited.here _ _
    · rintro ⟨⟩
      exact ⟨rfl, rfl⟩
theorem walkChildren_adds {path : String} {depth : Nat} {w w' : Inventory} :
    ∀ {children : List (String × Node)}, walkChildren hash rows path depth w children = .ok w' →
    Adds hash rows (fun p n => ∃ name node, (name, node) ∈ children ∧
      Visited rows (path ++ "/" ++ name) node p n) w w'
  | [], h => by
    simp only [walkChildren] at h
    cases h
    refine (Adds.nothing rfl).congr fun p n => ?_
    simp
  | (name, node) :: rest, h => by
    simp only [walkChildren, Except.bind_eq_ok_iff] at h
    obtain ⟨w₁, hw₁, h⟩ := h
    refine ((walk_adds hw₁).then (walkChildren_adds h)).congr fun p n => ?_
    constructor
    · rintro (hvisited | ⟨name', node', hmem, hvisited⟩)
      · exact ⟨name, node, List.mem_cons_self, hvisited⟩
      · exact ⟨name', node', List.mem_cons_of_mem _ hmem, hvisited⟩
    · rintro ⟨name', node', hmem, hvisited⟩
      rcases List.mem_cons.mp hmem with heq | hmem
      · cases heq
        exact Or.inl hvisited
      · exact Or.inr ⟨name', node', hmem, hvisited⟩
end

/-! ## The tree by its paths -/

/-- A path names an entry of a directory. -/
def Named (name : String) : Prop := pathPart name = true ∧ '/' ∉ name.toList

end Enclave

/-- A tree as a file system holds it: the entries of a directory have distinct names. -/
inductive Node.Proper : Node → Prop where
  | file (bytes : ByteArray) : Proper (.file bytes)
  | link (target : String) : Proper (.link target)
  | dir {entries : List (String × Node)} (distinct : (entries.map Prod.fst).Nodup)
      (named : ∀ e ∈ entries, Enclave.Named e.1) (inside : ∀ e ∈ entries, Proper e.2) :
      Proper (.dir entries)

/-- A repository's tree. -/
structure RepositoryTree where
  root : Node
  proper : root.Proper

/-- The node at a path's parts, no link followed. -/
def Node.at_ : List String → Node → Option Node
  | [], node => some node
  | part :: rest, .dir entries => (entries.lookup part).bind (Node.at_ rest)
  | _ :: _, .file _ | _ :: _, .link _ => none

/-- What `symlink_metadata`, `read_link` and the bytes tell of a node. -/
def Node.face : Node → Node
  | .file bytes => .file bytes
  | .link target => .link target
  | .dir _ => .dir []

def Node.view (parts : List String) (node : Node) : Option Node := (node.at_ parts).map Node.face

/-- The tree without what stands at a path. -/
def Node.unlink : List String → Node → Node
  | [], node => node
  | [name], .dir entries => .dir (entries.filter fun e => e.1 ≠ name)
  | part :: next :: rest, .dir entries =>
    .dir (entries.map fun e => if e.1 = part then (e.1, Node.unlink (next :: rest) e.2) else e)
  | _ :: _, .file bytes => .file bytes
  | _ :: _, .link target => .link target

namespace Enclave

theorem lookup_filter_ne {entries : List (String × Node)} {name part : String} :
    (entries.filter fun e => decide (e.1 ≠ name)).lookup part =
      if part = name then none else entries.lookup part := by
  induction entries with
  | nil => simp
  | cons e entries ih =>
    obtain ⟨n, node⟩ := e
    rw [List.filter_cons, List.lookup_cons]
    by_cases hn : n = name
    · subst hn
      rw [if_neg (by simp), ih]
      by_cases hpart : part = n
      · rw [if_pos hpart, if_pos hpart]
      · rw [if_neg hpart, if_neg hpart, beq_false_of_ne hpart]
    · rw [if_pos (by simpa using hn), List.lookup_cons, ih]
      by_cases hpart : part = name
      · subst hpart
        rw [if_pos rfl, if_pos rfl, beq_false_of_ne (Ne.symm hn)]
      · rw [if_neg hpart, if_neg hpart]

theorem lookup_map_at {entries : List (String × Node)} {name part : String} (f : Node → Node) :
    (entries.map fun e => if e.1 = name then (e.1, f e.2) else e).lookup part =
      (entries.lookup part).map fun node => if part = name then f node else node := by
  induction entries with
  | nil => simp
  | cons e entries ih =>
    obtain ⟨n, node⟩ := e
    have hkey : (if n = name then (n, f node) else (n, node)) =
        (n, if n = name then f node else node) := by
      split <;> rfl
    rw [List.map_cons, hkey, List.lookup_cons, List.lookup_cons, ih]
    by_cases hpart : part = n
    · subst hpart
      simp
    · rw [beq_false_of_ne hpart]

/-- **Removing a path removes it with what lies below, and changes nothing else.** -/
theorem view_unlink : ∀ {parts : List String} {node : Node} {path : List String}, parts ≠ [] →
    (node.unlink parts).view path = if parts <+: path then none else node.view path
  | [], _, _, h => absurd rfl h
  | [name], .file bytes, path, _ => by
    cases path <;> simp [Node.unlink, Node.view, Node.at_]
  | [name], .link target, path, _ => by
    cases path <;> simp [Node.unlink, Node.view, Node.at_]
  | [name], .dir entries, path, _ => by
    cases path with
    | nil => simp [Node.unlink, Node.view, Node.at_, Node.face]
    | cons part rest =>
      simp only [Node.unlink, Node.view, Node.at_]
      rw [lookup_filter_ne]
      by_cases hpart : part = name
      · simp [hpart]
      · have hfront : ¬[name] <+: part :: rest := by
          rw [List.cons_prefix_cons]
          exact fun h => hpart h.1.symm
        rw [if_neg hpart, if_neg hfront]
  | first :: next :: more, .file bytes, path, _ => by
    cases path <;> simp [Node.unlink, Node.view, Node.at_]
  | first :: next :: more, .link target, path, _ => by
    cases path <;> simp [Node.unlink, Node.view, Node.at_]
  | first :: next :: more, .dir entries, path, _ => by
    cases path with
    | nil => simp [Node.unlink, Node.view, Node.at_, Node.face]
    | cons part rest =>
      simp only [Node.unlink, Node.view, Node.at_]
      rw [lookup_map_at]
      simp only [List.cons_prefix_cons]
      cases hlookup : entries.lookup part with
      | none => simp
      | some child =>
        simp only [Option.map_some, Option.bind_some]
        by_cases hpart : part = first
        · subst hpart
          have ih : (child.unlink (next :: more)).view rest = _ := view_unlink (List.cons_ne_nil next more)
          simpa [Node.view] using ih
        · rw [if_neg hpart, if_neg fun h => hpart h.1.symm]

theorem at_append {node : Node} : ∀ {parts more : List String},
    node.at_ (parts ++ more) = (node.at_ parts).bind (Node.at_ more) := by
  intro parts more
  induction parts generalizing node with
  | nil => rfl
  | cons part parts ih =>
    cases node with
    | file => rfl
    | link => rfl
    | dir entries =>
      rw [List.cons_append, Node.at_, Node.at_, Option.bind_assoc]
      congr 1
      funext child
      exact ih

theorem at_named {node target : Node} {part : String} (h : node.at_ [part] = some target) :
    ∃ entries, node = .dir entries ∧ entries.lookup part = some target := by
  cases node with
  | file => cases h
  | link => cases h
  | dir entries =>
    obtain ⟨child, hchild, h⟩ := Option.bind_eq_some_iff.mp h
    cases h
    exact ⟨entries, rfl, hchild⟩

theorem mem_of_lookup {entries : List (String × Node)} {name : String} {node : Node}
    (h : entries.lookup name = some node) : (name, node) ∈ entries := by
  obtain ⟨before, after, rfl, -⟩ := List.lookup_eq_some_iff.mp h
  exact List.mem_append_right before List.mem_cons_self

theorem lookup_of_mem {entries : List (String × Node)} {name : String} {node : Node}
    (hdistinct : (entries.map Prod.fst).Nodup) (h : (name, node) ∈ entries) :
    entries.lookup name = some node := by
  induction entries with
  | nil => exact absurd h List.not_mem_nil
  | cons e entries ih =>
    rw [List.map_cons, List.nodup_cons] at hdistinct
    rcases List.mem_cons.mp h with rfl | hmem
    · rw [List.lookup_cons, beq_self_eq_true]
    · have hne : name ≠ e.1 := by
        rintro rfl
        exact hdistinct.1 (List.mem_map.mpr ⟨_, hmem, rfl⟩)
      rw [List.lookup_cons, beq_false_of_ne hne]
      exact ih hdistinct.2 hmem

theorem proper_at {node target : Node} (h : node.Proper) : ∀ {parts : List String},
    node.at_ parts = some target → target.Proper := by
  intro parts
  induction parts generalizing node with
  | nil =>
    intro hat
    cases hat
    exact h
  | cons part parts ih =>
    intro hat
    cases h with
    | file => cases hat
    | link => cases hat
    | dir _ _ hinside =>
      obtain ⟨child, hchild, hat⟩ := Option.bind_eq_some_iff.mp hat
      exact ih (hinside _ (mem_of_lookup hchild)) hat

/-! ## Paths by their parts -/

theorem intercalate_append {c : Char} {ys : List (List Char)} (hys : ys ≠ []) :
    ∀ {xs : List (List Char)}, xs ≠ [] →
      [c].intercalate (xs ++ ys) = [c].intercalate xs ++ c :: [c].intercalate ys
  | [], h => absurd rfl h
  | [x], _ => by
    rw [List.singleton_append, List.intercalate_cons_of_ne_nil hys, List.intercalate_singleton,
      List.append_assoc, List.singleton_append]
  | x :: y :: xs, _ => by
    rw [List.cons_append, List.intercalate_cons_of_ne_nil (by simp),
      intercalate_append hys (List.cons_ne_nil y xs), List.intercalate_cons_cons]
    simp only [List.append_assoc]

theorem split_under {above path : String} :
    Under above path ↔ ∃ more, more ≠ [] ∧ split '/' path = split '/' above ++ more := by
  constructor
  · rintro ⟨rest, hrest⟩
    refine ⟨(rest.splitOn '/').map String.ofList, ?_, ?_⟩
    · rw [ne_eq, List.map_eq_nil_iff]
      exact List.splitOn_ne_nil _ _
    · rw [split, split, hrest, List.splitOn_append_cons_self, List.map_append]
  · rintro ⟨more, hmore, h⟩
    have hjoin : ∀ p : String,
        p.toList = ['/'].intercalate ((split '/' p).map String.toList) := by
      intro p
      rw [split, List.map_map, show String.toList ∘ String.ofList = id from
        funext fun _ => String.toList_ofList, List.map_id, List.intercalate_splitOn]
    have hne : (split '/' above).map String.toList ≠ [] := by
      rw [split, ne_eq, List.map_eq_nil_iff, List.map_eq_nil_iff]
      exact List.splitOn_ne_nil _ _
    obtain ⟨part, more, rfl⟩ := List.exists_cons_of_ne_nil hmore
    refine ⟨['/'].intercalate ((part :: more).map String.toList), ?_⟩
    rw [hjoin path, hjoin above, h, List.map_append, intercalate_append (by simp) hne]

theorem split_child {path name : String} (h : '/' ∉ name.toList) :
    split '/' (path ++ "/" ++ name) = split '/' path ++ [name] := by
  have hslash : ("/" : String).toList = ['/'] := by decide
  rw [split, split, String.toList_append, String.toList_append, hslash, List.append_assoc]
  change List.map _ (List.splitOn '/' (path.toList ++ '/' :: name.toList)) = _
  rw [List.splitOn_append_cons_self, List.map_append, List.splitOn_eq_singleton h]
  simp

theorem split_injective {a b : String} (h : split '/' a = split '/' b) : a = b := by
  have hof : (String.ofList : List Char → String).Injective := fun x y hxy => by
    simpa using congrArg String.toList hxy
  have h := List.map_injective_iff.mpr hof h
  rw [← String.toList_inj, ← @List.intercalate_splitOn _ a.toList _ _ '/', h,
    List.intercalate_splitOn]

theorem split_root : split '/' ROOT = [ROOT] := by decide

/-! ## What the walk reaches, in the tree -/

variable {hash : ByteArray → String} {rows : List Row}

theorem Visited.at_ {root node target : Node} {path below_ : String} (hproper : node.Proper)
    (hat : root.at_ (split '/' path) = some node) (h : Visited rows path node below_ target) :
    root.at_ (split '/' below_) = some target := by
  induction h with
  | here => exact hat
  | @inside path name _ children node _ _ hmem _ ih =>
    cases hproper with
    | dir hdistinct hnamed hinside =>
      refine ih (hinside _ hmem) ?_
      have hentry : Node.at_ [name] (.dir children) = some node := by
        rw [Node.at_, lookup_of_mem hdistinct hmem]
        rfl
      rw [split_child (hnamed _ hmem).2, at_append, hat]
      exact hentry

theorem Visited.path {node target : Node} {path below_ : String}
    (h : Visited rows path node below_ target) : below_ = path ∨ Under path below_ := by
  induction h with
  | here => exact Or.inl rfl
  | inside _ _ _ ih =>
    rcases ih with rfl | hunder
    · exact Or.inr (under_child _ _)
    · exact Or.inr ((under_child _ _).trans hunder)

theorem Visited.step {node child : Node} {path below_ name : String}
    {children : List (String × Node)} (h : Visited rows path node below_ (.dir children))
    (huncovered : ∀ row ∈ rows, covers row below_ = false) (hmem : (name, child) ∈ children) :
    Visited rows path node (below_ ++ "/" ++ name) child := by
  generalize htarget : Node.dir children = target at h
  induction h with
  | here =>
    subst htarget
    exact Visited.inside huncovered hmem (Visited.here _ _)
  | inside hfirst hchild _ ih => exact Visited.inside hfirst hchild (ih huncovered htarget)

/-- Everything below residue is reached, and is residue. -/
theorem residue_below {node start : Node} {path at_ : String}
    (hvisited : Visited rows path start at_ node) (hresidue : Residue rows at_ node) (hproper : node.Proper) :
    ∀ {more : List String} {target : Node}, node.at_ more = some target →
      ∃ below_, split '/' below_ = split '/' at_ ++ more ∧
        Visited rows path start below_ target ∧ Residue rows below_ target := by
  intro more
  induction more generalizing node at_ with
  | nil =>
    intro target hat
    cases hat
    exact ⟨at_, (List.append_nil _).symm, hvisited, hresidue⟩
  | cons name more ih =>
    intro target hat
    cases hproper with
    | file => cases hat
    | link => cases hat
    | dir hdistinct hnamed hinside =>
      obtain ⟨child, hchild, hat⟩ := Option.bind_eq_some_iff.mp hat
      have hmem := mem_of_lookup hchild
      have hname := (hnamed _ hmem).2
      obtain ⟨below_, hsplit, hvisited, hresidue⟩ := ih (hvisited.step hresidue.1 hmem)
        (hresidue.child hname) (hinside _ hmem) hat
      refine ⟨below_, ?_, hvisited, hresidue⟩
      rw [hsplit, split_child hname, List.append_assoc, List.singleton_append]

/-- What the inventory's walk reaches. -/
def Reached (rows : List Row) (root : Node) (path : String) (node : Node) : Prop :=
  ∃ children, root.at_ [ROOT] = some (.dir children) ∧ Visited rows ROOT (.dir children) path node

theorem inventory_adds {root : Node} {i : Inventory} (h : inventory hash rows root = .ok i) :
    Adds hash rows (Reached rows root) (initial rows) i := by
  unfold inventory at h
  simp only [Except.bind_eq_ok_iff] at h
  obtain ⟨_, -, enclave, henclave, h⟩ := h
  have hat : root.at_ [ROOT] = enclave := by
    cases root with
    | file => cases henclave
    | link => cases henclave
    | dir entries =>
      rw [Node.resolve] at henclave
      rw [Node.at_]
      cases hlookup : entries.lookup ROOT with
      | none =>
        rw [hlookup] at henclave
        cases henclave
        rfl
      | some node =>
        rw [hlookup] at henclave
        cases node <;> cases henclave <;> rfl
  split at h
  · cases h
    refine (Adds.nothing rfl).congr fun path node => ?_
    constructor
    · exact False.elim
    · rintro ⟨children, hchildren, -⟩
      rw [hat] at hchildren
      cases hchildren
  · rename_i children
    refine (walk_adds h).congr fun path node => ?_
    constructor
    · exact fun hvisited => ⟨children, hat, hvisited⟩
    · rintro ⟨children', hchildren', hvisited⟩
      rw [hat] at hchildren'
      cases hchildren'
      exact hvisited
  · cases h

/-- What stands where something is removed: residue, with the identity observed. -/
theorem removals_residue {tree : RepositoryTree} {i : Inventory}
    (h : inventory hash rows tree.root = .ok i) {path : String} {expected : Value}
    (hpath : i.removals[path]? = some expected) :
    ∃ node, Reached rows tree.root path node ∧ tree.root.at_ (split '/' path) = some node ∧
      Residue rows path node ∧ identity hash path node = .ok expected := by
  rcases (inventory_adds h).sound path expected hpath with hinitial | ⟨node, hreached, hresidue, hid⟩
  · simp [initial] at hinitial
  · refine ⟨node, hreached, ?_, hresidue, hid⟩
    obtain ⟨children, hchildren, hvisited⟩ := hreached
    refine hvisited.at_ (proper_at tree.proper hchildren) ?_
    rw [split_root]
    exact hchildren

/-- What lies below what is removed is removed. -/
theorem removals_below {tree : RepositoryTree} {i : Inventory}
    (h : inventory hash rows tree.root = .ok i) {path below_ : String} (hpath : path ∈ i.removals)
    (hunder : Under path below_) (hthere : (tree.root.at_ (split '/' below_)).isSome) :
    below_ ∈ i.removals := by
  obtain ⟨node, ⟨children, hchildren, hvisited⟩, hat, hresidue, -⟩ :=
    removals_residue h (Std.ExtTreeMap.getElem?_eq_some_getElem hpath)
  obtain ⟨more, -, hsplit⟩ := split_under.mp hunder
  obtain ⟨target, htarget⟩ := Option.isSome_iff_exists.mp hthere
  rw [hsplit, at_append, hat] at htarget
  obtain ⟨below', hsplit', hvisited', hresidue'⟩ :=
    residue_below hvisited hresidue (proper_at tree.proper hat) htarget
  obtain rfl := split_injective (hsplit'.trans hsplit.symm)
  exact (inventory_adds h).complete _ _ ⟨children, hchildren, hvisited'⟩ hresidue'

theorem removals_root {tree : RepositoryTree} {i : Inventory}
    (h : inventory hash rows tree.root = .ok i) {path : String} (hpath : path ∈ i.removals) :
    path = ROOT ∨ Under ROOT path := by
  obtain ⟨_, ⟨_, _, hvisited⟩, -⟩ := removals_residue h (Std.ExtTreeMap.getElem?_eq_some_getElem hpath)
  exact hvisited.path

end Enclave

end AgenticCore
