import AgenticCore.EnclaveWalk

/-!
# Residue is removed without touching what is declared

* `remove`, `publishOrder` : removal of one path, and the order in which adoption removes.
* `remove_next`            : a path is removed after what lies below it.
* `residue_removed`        : **residue is closed under what lies below it, holds no declared path
                             and no directory above one, and is removed with every directory
                             empty.**
-/

set_option autoImplicit false

namespace AgenticCore

open Json Text

namespace Enclave

variable {hash : ByteArray → String} {rows : List Row}

/-! ## Removal -/

/-- Whether every directory on the way stands. In recovery one that is gone ends the removal. -/
def ancestors (recovery : Bool) : List String → Node → Result Bool
  | [], _ => .ok true
  | part :: rest, node =>
    match node.at_ [part] with
    | some (.dir entries) => ancestors recovery rest (.dir entries)
    | some _ => fail "enclave removal ancestor changed"
    | none => if recovery then .ok false else fail "enclave removal ancestor changed"

/-- `remove_file` and `remove_dir`, which takes empty directories only. -/
def erase (parts : List String) (root : Node) : Result Node :=
  match root.at_ parts with
  | none => fail "entity not found"
  | some (.dir (_ :: _)) => fail "directory not empty"
  | some _ => .ok (root.unlink parts)

/-- `identity` at a path of the tree. -/
def identityAt (hash : ByteArray → String) (path : String) (root : Node) : Result Value :=
  match root.at_ (split '/' path) with
  | none => .ok .null
  | some node => identity hash path node

/-- The exact leaf is removed, once no directory on the way and nothing at the path changed. -/
def remove (hash : ByteArray → String) (root : Node) (path : String) (expected : Value)
    (recovery : Bool) : Result Node := do
  let parts := split '/' path
  check (parts.head? = some ROOT ∧ 2 ≤ parts.length ∧ ∀ part ∈ parts, pathPart part = true)
    "invalid enclave removal path"
  let there ← ancestors recovery parts.dropLast root
  if there then
    let current ← identityAt hash path root
    if recovery ∧ current = .null then pure root
    else do
      check (current = expected) s!"{path}: enclave residue changed before removal"
      erase parts root
  else pure root

/-- Where `publish` places a path: the deepest first, and the adoption's identity last when it
    adopts and first otherwise. -/
def rank (adopting : Bool) (path : String) : Nat × Int :=
  if path = Adoption.IDENTITY then (if adopting then (2, 0) else (0, 0))
  else (1, (2 ^ 64 - 1 : Int) - (path.toList.count '/' : Nat))

def rankLe (adopting : Bool) (a b : String) : Bool :=
  (rank adopting a).1 < (rank adopting b).1 ||
    ((rank adopting a).1 = (rank adopting b).1 && (rank adopting a).2 ≤ (rank adopting b).2)

/-- The order in which `publish` comes to its paths. -/
def publishOrder (adopting : Bool) (paths : List String) : List String :=
  paths.insertionSort fun a b => rankLe adopting a b

/-- The removals among what is published, in order. -/
def removeAll (hash : ByteArray → String) (removals : BTreeMap String Value) (recovery : Bool)
    (root : Node) (order : List String) : Result Node :=
  order.foldlM (fun root path => remove hash root path (removals[path]?.getD .null) recovery) root

theorem count_lt {above path : String} (h : Under above path) :
    above.toList.count '/' < path.toList.count '/' := by
  obtain ⟨rest, hrest⟩ := h
  rw [hrest, List.count_append, List.count_cons_self]
  omega

theorem rankLe_trans {adopting : Bool} {a b c : String} (hab : rankLe adopting a b = true)
    (hbc : rankLe adopting b c = true) : rankLe adopting a c = true := by
  simp only [rankLe, Bool.or_eq_true, Bool.and_eq_true, decide_eq_true_eq] at hab hbc ⊢
  omega

theorem rankLe_total (adopting : Bool) (a b : String) :
    rankLe adopting a b = true ∨ rankLe adopting b a = true := by
  simp only [rankLe, Bool.or_eq_true, Bool.and_eq_true, decide_eq_true_eq]
  omega

theorem publishOrder_pairwise (adopting : Bool) (paths : List String) :
    (publishOrder adopting paths).Pairwise fun a b => rankLe adopting a b = true := by
  have : Std.Total fun a b : String => rankLe adopting a b = true := ⟨rankLe_total adopting⟩
  have : IsTrans String fun a b => rankLe adopting a b = true := ⟨fun _ _ _ => rankLe_trans⟩
  exact List.pairwise_insertionSort _ _

/-- What comes first lies below nothing that comes later but the enclave itself. -/
theorem not_under_of_rankLe {adopting : Bool} {a b : String} (ha : ROOT = a ∨ Under ROOT a)
    (hroot : a ≠ ROOT) (h : rankLe adopting a b = true)
    (hidentity : adopting = false → ¬Under Adoption.IDENTITY b) : ¬Under a b := by
  intro hunder
  have hcount := count_lt hunder
  simp only [rankLe, rank, Bool.or_eq_true, Bool.and_eq_true] at h
  by_cases haid : a = Adoption.IDENTITY
  · subst haid
    cases adopting with
    | false => exact hidentity rfl hunder
    | true =>
      have hb : b ≠ Adoption.IDENTITY := by
        rintro rfl
        omega
      simp [hb] at h
  · by_cases hbid : b = Adoption.IDENTITY
    · subst hbid
      rcases ha with ha | ha
      · exact hroot ha.symm
      · have := count_lt ha
        have hone : (ROOT.toList.count '/') = 0 := by decide
        have htwo : (Adoption.IDENTITY.toList.count '/') = 1 := by decide
        omega
    · simp only [if_neg haid, if_neg hbid, decide_eq_true_eq] at h
      omega

/-! ## Removal of one path after others -/

/-- The tree without what the paths removed so far hold. -/
def Gone (root : Node) (done : List String) (before : Node) : Prop :=
  ∀ parts, before.view parts =
    if ∃ path ∈ done, split '/' path <+: parts then none else root.view parts

theorem named_of_at {node target : Node} (h : node.Proper) : ∀ {parts : List String},
    node.at_ parts = some target → ∀ part ∈ parts, pathPart part = true := by
  intro parts
  induction parts generalizing node with
  | nil => exact fun _ _ hpart => absurd hpart List.not_mem_nil
  | cons first parts ih =>
    intro hat
    cases h with
    | file => cases hat
    | link => cases hat
    | dir _ hnamed hinside =>
      obtain ⟨child, hchild, hat⟩ := Option.bind_eq_some_iff.mp hat
      have hmem := mem_of_lookup hchild
      exact List.forall_mem_cons.mpr ⟨(hnamed _ hmem).1, ih (hinside _ hmem) hat⟩

theorem directory_above {node target : Node} {parts more : List String} (hmore : more ≠ [])
    (h : node.at_ (parts ++ more) = some target) : node.view parts = some (.dir []) := by
  rw [at_append] at h
  obtain ⟨above, habove, h⟩ := Option.bind_eq_some_iff.mp h
  obtain ⟨part, more, rfl⟩ := List.exists_cons_of_ne_nil hmore
  cases above with
  | file => cases h
  | link => cases h
  | dir entries =>
    rw [Node.view, habove]
    rfl

theorem at_of_view_dir {node : Node} {parts : List String} (h : node.view parts = some (.dir [])) :
    ∃ entries, node.at_ parts = some (.dir entries) := by
  obtain ⟨target, htarget, hface⟩ := Option.map_eq_some_iff.mp h
  cases target with
  | file => cases hface
  | link => cases hface
  | dir entries => exact ⟨entries, htarget⟩

theorem ancestors_ok {recovery : Bool} : ∀ {parts : List String} {node : Node},
    (∀ pre, pre ≠ [] → pre <+: parts → node.view pre = some (.dir [])) →
    ancestors recovery parts node = .ok true
  | [], _, _ => rfl
  | part :: rest, node, h => by
    obtain ⟨entries, hentries⟩ := at_of_view_dir
      (h [part] (List.cons_ne_nil _ _) (List.cons_prefix_cons.mpr ⟨rfl, List.nil_prefix⟩))
    rw [ancestors, hentries]
    refine ancestors_ok fun pre hpre hfront => ?_
    have hview := h (part :: pre) (List.cons_ne_nil _ _) (List.cons_prefix_cons.mpr ⟨rfl, hfront⟩)
    rwa [Node.view, ← List.singleton_append, at_append, hentries] at hview

theorem identity_face (path : String) (node : Node) :
    identity hash path node.face = identity hash path node := by
  cases node <;> rfl

theorem identityAt_view {path : String} {root before : Node}
    (h : before.view (split '/' path) = root.view (split '/' path)) :
    identityAt hash path before = identityAt hash path root := by
  unfold identityAt
  cases hbefore : before.at_ (split '/' path) <;> cases hroot : root.at_ (split '/' path) <;>
    rw [Node.view, Node.view, hbefore, hroot] at h
  · cases h
  · cases h
  · rename_i node node'
    have h : node.face = node'.face := by simpa using h
    change identity hash path node = identity hash path node'
    rw [← identity_face path node, h, identity_face]

theorem identity_ne_null {path : String} {node : Node} {v : Value}
    (h : identity hash path node = .ok v) : v ≠ .null := by
  cases node with
  | link =>
    cases h
    exact nofun
  | dir =>
    cases h
    exact nofun
  | file =>
    rw [identity] at h
    split at h
    · cases h
    · cases h
      exact nofun

theorem under_irrefl {path : String} : ¬Under path path := fun h => Nat.lt_irrefl _ (count_lt h)

theorem prefix_iff {above path : String} :
    split '/' above <+: split '/' path ↔ above = path ∨ Under above path := by
  constructor
  · rintro ⟨more, hmore⟩
    by_cases h : more = []
    · rw [h, List.append_nil] at hmore
      exact Or.inl (split_injective hmore)
    · exact Or.inr (split_under.mpr ⟨more, h, hmore.symm⟩)
  · rintro (rfl | h)
    · exact List.prefix_rfl
    · obtain ⟨more, -, hmore⟩ := split_under.mp h
      exact ⟨more, hmore.symm⟩

theorem remove_ok {root after : Node} {path : String} {expected : Value} {recovery : Bool}
    (hparts : (split '/' path).head? = some ROOT ∧ 2 ≤ (split '/' path).length ∧
      ∀ part ∈ split '/' path, pathPart part = true)
    (hancestors : ancestors recovery (split '/' path).dropLast root = .ok true)
    (hidentity : identityAt hash path root = .ok expected) (hexpected : expected ≠ .null)
    (herase : erase (split '/' path) root = .ok after) :
    remove hash root path expected recovery = .ok after := by
  simp only [remove, Except.bind_eq_ok_iff, check_eq_ok]
  refine ⟨(), hparts, true, hancestors, ?_⟩
  rw [if_pos rfl, Except.bind_eq_ok_iff]
  refine ⟨expected, hidentity, ?_⟩
  rw [if_neg fun h => hexpected h.2, Except.bind_eq_ok_iff]
  exact ⟨(), check_eq_ok.mpr rfl, herase⟩

variable {tree : RepositoryTree} {i : Inventory} {path : String} {done : List String}
  {before : Node}

theorem Gone.kept {root : Node} (h : Gone root done before)
    (hdone : ∀ p ∈ done, p ≠ path ∧ ¬Under p path) {parts : List String}
    (hparts : parts <+: split '/' path) : before.view parts = root.view parts := by
  rw [h parts, if_neg]
  rintro ⟨p, hp, hfront⟩
  obtain ⟨hne, hunder⟩ := hdone p hp
  rcases prefix_iff.mp (hfront.trans hparts) with heq | habove
  · exact hne heq
  · exact hunder habove

/-- A directory is empty once everything below it is gone. -/
theorem Gone.empty (h : inventory hash rows tree.root = .ok i) (hgone : Gone tree.root done before)
    (hpath : path ∈ i.removals) (hbelow : ∀ p ∈ i.removals, Under path p → p ∈ done)
    {entries : List (String × Node)}
    (hat : before.at_ (split '/' path) = some (.dir entries)) : entries = [] := by
  by_contra hne
  obtain ⟨⟨name, child⟩, entries, rfl⟩ := List.exists_cons_of_ne_nil hne
  have hview : before.view (split '/' path ++ [name]) = some child.face := by
    rw [Node.view, at_append, hat]
    simp [Node.at_]
  rw [hgone] at hview
  split at hview
  · cases hview
  · rename_i hkept
    -- The entry stands in the tree below the path, so it is residue, and was removed.
    obtain ⟨node, ⟨children, hchildren, hvisited⟩, hnode, hresidue, -⟩ :=
      removals_residue h (Std.ExtTreeMap.getElem?_eq_some_getElem hpath)
    obtain ⟨target, htarget, -⟩ := Option.map_eq_some_iff.mp hview
    rw [at_append, hnode] at htarget
    obtain ⟨below_, hsplit, hvisited', hresidue'⟩ :=
      residue_below hvisited hresidue (proper_at tree.proper hnode) htarget
    have hremoved := (inventory_adds h).complete _ _ ⟨children, hchildren, hvisited'⟩ hresidue'
    have hunder : Under path below_ := split_under.mpr ⟨[name], by simp, hsplit⟩
    exact hkept ⟨below_, hbelow _ hremoved hunder, by rw [hsplit]⟩

theorem removals_parts (h : inventory hash rows tree.root = .ok i) (hpath : path ∈ i.removals)
    (hroot : path ≠ ROOT) : (split '/' path).head? = some ROOT ∧ 2 ≤ (split '/' path).length ∧
      ∀ part ∈ split '/' path, pathPart part = true := by
  obtain ⟨node, -, hat, -⟩ := removals_residue h (Std.ExtTreeMap.getElem?_eq_some_getElem hpath)
  obtain ⟨more, hmore, hsplit⟩ := split_under.mp ((removals_root h hpath).resolve_left hroot)
  rw [split_root] at hsplit
  refine ⟨by rw [hsplit]; rfl, ?_, named_of_at tree.proper hat⟩
  have hlength := List.length_pos_iff.mpr hmore
  rw [hsplit, List.length_append, List.length_singleton]
  omega

/-- **A path is removed after everything below it and before everything above it**: it stands as it
    was observed, and a directory is empty. -/
theorem remove_next {recovery : Bool} (h : inventory hash rows tree.root = .ok i)
    (hgone : Gone tree.root done before) (hpath : path ∈ i.removals) (hroot : path ≠ ROOT)
    (hdone : ∀ p ∈ done, p ≠ path ∧ ¬Under p path)
    (hbelow : ∀ p ∈ i.removals, Under path p → p ∈ done) :
    (∃ node, before.at_ (split '/' path) = some node ∧ (node.isDir = true → node = .dir [])) ∧
      remove hash before path (i.removals[path]?.getD .null) recovery =
        .ok (before.unlink (split '/' path)) := by
  obtain ⟨node, -, hat, -, hid⟩ := removals_residue h (Std.ExtTreeMap.getElem?_eq_some_getElem hpath)
  have hkept : ∀ parts, parts <+: split '/' path → before.view parts = tree.root.view parts :=
    fun _ hparts => hgone.kept hdone hparts
  obtain ⟨node', hat', hface⟩ : ∃ node', before.at_ (split '/' path) = some node' ∧
      node'.face = node.face := by
    have hview := hkept _ List.prefix_rfl
    rw [Node.view, Node.view, hat] at hview
    exact Option.map_eq_some_iff.mp hview
  have hempty : node'.isDir = true → node' = .dir [] := by
    cases node' with
    | file | link =>
      intro hdir
      cases hdir
    | dir entries => exact fun _ => by rw [Gone.empty h hgone hpath hbelow hat']
  have hparts := removals_parts h hpath hroot
  have hancestors : ancestors recovery (split '/' path).dropLast before = .ok true := by
    refine ancestors_ok fun pre _ hfront => ?_
    have hwhole := hfront.trans (List.dropLast_prefix _)
    rw [hkept pre hwhole]
    obtain ⟨rest, hrest⟩ := hwhole
    have hrestne : rest ≠ [] := by
      rintro rfl
      have hlength := hfront.length_le
      rw [List.append_nil] at hrest
      rw [hrest, List.length_dropLast] at hlength
      omega
    exact directory_above hrestne (by rw [hrest]; exact hat)
  have hidentity : identityAt hash path before = .ok i.removals[path] := by
    rw [identityAt_view (hkept _ List.prefix_rfl), identityAt, hat]
    exact hid
  have herase : erase (split '/' path) before = .ok (before.unlink (split '/' path)) := by
    rw [erase, hat']
    cases node' with
    | file => rfl
    | link => rfl
    | dir entries =>
      cases hempty rfl
      rfl
  refine ⟨⟨node', hat', hempty⟩, ?_⟩
  rw [Std.ExtTreeMap.getElem?_eq_some_getElem hpath]
  exact remove_ok hparts hancestors hidentity (identity_ne_null hid) herase

theorem Gone.next {root : Node} (h : Gone root done before) :
    Gone root (done ++ [path]) (before.unlink (split '/' path)) := by
  intro parts
  have hne : split '/' path ≠ [] := by
    rw [split, ne_eq, List.map_eq_nil_iff]
    exact List.splitOn_ne_nil _ _
  rw [view_unlink hne, h parts]
  by_cases hpath : split '/' path <+: parts
  · rw [if_pos hpath, if_pos ⟨path, by simp, hpath⟩]
  · rw [if_neg hpath]
    congr 1
    simp only [List.mem_append, List.mem_singleton, or_and_right, exists_or, exists_eq_left, hpath,
      or_false]

/-! ## Removal in order -/

theorem publishOrder_split {adopting : Bool} {paths rest : List String}
    (hnodup : paths.Nodup) (h : publishOrder adopting paths = done ++ path :: rest) :
    (∀ p ∈ done, p ≠ path ∧ rankLe adopting p path = true) ∧
      (∀ p ∈ rest, rankLe adopting path p = true) ∧
      ∀ p, p ∈ paths ↔ p ∈ done ∨ p = path ∨ p ∈ rest := by
  have hperm : (done ++ path :: rest).Perm paths := h ▸ List.perm_insertionSort _ _
  have hdistinct := hperm.nodup_iff.mpr hnodup
  have hordered := h ▸ publishOrder_pairwise adopting paths
  rw [List.pairwise_append, List.pairwise_cons] at hordered
  rw [List.nodup_append] at hdistinct
  refine ⟨fun p hp => ⟨?_, hordered.2.2 p hp path List.mem_cons_self⟩, hordered.2.1.1, fun p => ?_⟩
  · exact hdistinct.2.2 p hp path List.mem_cons_self
  · rw [← hperm.mem_iff, List.mem_append, List.mem_cons]

/-- **Up to the enclave itself every path is removed, every directory when it is empty.** -/
theorem removeAll_step (recovery : Bool) {adopting : Bool} {rest : List String}
    (h : inventory hash rows tree.root = .ok i)
    (hidentity : adopting = false →
      ∀ entries, tree.root.at_ (split '/' Adoption.IDENTITY) ≠ some (.dir entries))
    (horder : publishOrder adopting i.removals.keys = done ++ path :: rest)
    (hgone : Gone tree.root done before) (hdone : ROOT ∉ done) (hroot : path ≠ ROOT) :
    (∃ node, before.at_ (split '/' path) = some node ∧ (node.isDir = true → node = .dir [])) ∧
      remove hash before path (i.removals[path]?.getD .null) recovery =
        .ok (before.unlink (split '/' path)) := by
  have hkeys : ∀ p, p ∈ i.removals.keys ↔ p ∈ i.removals := fun p => Std.ExtTreeMap.mem_keys
  obtain ⟨hearlier, hlater, hall⟩ := publishOrder_split Std.ExtTreeMap.nodup_keys horder
  have hplace : ∀ p, p ∈ i.removals → ROOT = p ∨ Under ROOT p := fun p hp =>
    (removals_root h hp).imp Eq.symm id
  have hnotid : ∀ p ∈ i.removals, adopting = false → ¬Under Adoption.IDENTITY p := by
    intro p hp hadopting hunder
    obtain ⟨node, -, hat, -⟩ := removals_residue h (Std.ExtTreeMap.getElem?_eq_some_getElem hp)
    obtain ⟨more, hmore, hsplit⟩ := split_under.mp hunder
    rw [hsplit] at hat
    obtain ⟨entries, hentries⟩ := at_of_view_dir (directory_above hmore hat)
    exact hidentity hadopting entries hentries
  have hpath : path ∈ i.removals := (hkeys path).mp ((hall path).mpr (Or.inr (Or.inl rfl)))
  refine remove_next h hgone hpath hroot (fun p hp => ?_) (fun p hp hunder => ?_)
  · obtain ⟨hne, hrank⟩ := hearlier p hp
    have hp' : p ∈ i.removals := (hkeys p).mp ((hall p).mpr (Or.inl hp))
    refine ⟨hne, not_under_of_rankLe (hplace p hp') ?_ hrank (hnotid path hpath)⟩
    rintro rfl
    exact hdone hp
  · rcases (hall p).mp ((hkeys p).mpr hp) with hp' | rfl | hp'
    · exact hp'
    · exact absurd hunder under_irrefl
    · exact absurd hunder
        (not_under_of_rankLe (hplace path hpath) hroot (hlater p hp') (hnotid p hp))

theorem removeAll_append {removals : BTreeMap String Value} {recovery : Bool} {root : Node} :
    removeAll hash removals recovery root (done ++ [path]) =
      removeAll hash removals recovery root done >>= fun before =>
        remove hash before path (removals[path]?.getD .null) recovery := by
  rw [removeAll, removeAll, List.foldlM_append]
  congr 1
  funext before
  simp

theorem removeAll_run (recovery : Bool) {adopting : Bool}
    (h : inventory hash rows tree.root = .ok i)
    (hidentity : adopting = false →
      ∀ entries, tree.root.at_ (split '/' Adoption.IDENTITY) ≠ some (.dir entries)) :
    ∀ {done rest : List String}, publishOrder adopting i.removals.keys = done ++ rest →
      ROOT ∉ done → ∃ before, removeAll hash i.removals recovery tree.root done = .ok before ∧
        Gone tree.root done before := by
  intro done
  induction done using List.reverseRecOn with
  | nil =>
    intro rest _ _
    exact ⟨tree.root, rfl, fun parts => by simp⟩
  | append_singleton done path ih =>
    intro rest horder hdone
    rw [List.append_assoc, List.singleton_append] at horder
    rw [List.mem_append, List.mem_singleton, not_or] at hdone
    obtain ⟨before, hbefore, hgone⟩ := ih horder hdone.1
    obtain ⟨-, hremove⟩ :=
      removeAll_step recovery h hidentity horder hgone hdone.1 (Ne.symm hdone.2)
    refine ⟨_, ?_, hgone.next⟩
    rw [removeAll_append, hbefore]
    exact hremove

theorem validate_under {earlier rows : List Row} (h : validate earlier rows = .ok ()) :
    ∀ row ∈ rows, Under ROOT row.path := by
  induction rows generalizing earlier with
  | nil => exact fun row hrow => absurd hrow List.not_mem_nil
  | cons row rest ih =>
    simp only [validate, Except.bind_eq_ok_iff] at h
    obtain ⟨_, hrow, h⟩ := h
    simp only [checkRow, Except.bind_eq_ok_iff, check_eq_ok] at hrow
    obtain ⟨_, hrow, -⟩ := hrow
    exact List.forall_mem_cons.mpr ⟨startsWith_slash.mp hrow.1, ih h⟩

theorem inventory_validate {root : Node} (h : inventory hash rows root = .ok i) :
    validate [] rows = .ok () := by
  unfold inventory at h
  simp only [Except.bind_eq_ok_iff] at h
  obtain ⟨⟨⟩, hvalidate, -⟩ := h
  exact hvalidate

theorem remove_root (root : Node) (expected : Value) (recovery : Bool) :
    remove hash root ROOT expected recovery = fail "invalid enclave removal path" := by
  rw [remove, split_root]
  rfl

/-- **Residue is outside every declaration and no directory above one, and is closed under what
    lies below it. In the order of publication every directory is removed when it is empty, and
    nothing else changes. At most one declaration covers a path.** -/
theorem residue_removed (tree : RepositoryTree) (adopting recovery : Bool)
    (h : inventory hash rows tree.root = .ok i)
    (hidentity : adopting = false →
      ∀ entries, tree.root.at_ (split '/' Adoption.IDENTITY) ≠ some (.dir entries)) :
    (∀ path ∈ i.removals, ∃ node, tree.root.at_ (split '/' path) = some node ∧
      (∀ row ∈ rows, covers row path = false) ∧
      (node.isDir = true → ∀ row ∈ rows, ¬Under path row.path)) ∧
    (∀ path ∈ i.removals, ∀ inside, Under path inside →
      (tree.root.at_ (split '/' inside)).isSome = true → inside ∈ i.removals) ∧
    (∀ done path rest, publishOrder adopting i.removals.keys = done ++ path :: rest → ROOT ∉ done →
      ∃ before, removeAll hash i.removals recovery tree.root done = .ok before ∧
        (path = ROOT → rows = [] ∧ remove hash before path (i.removals[path]?.getD .null) recovery =
          fail "invalid enclave removal path") ∧
        (path ≠ ROOT → ∃ node after, before.at_ (split '/' path) = some node ∧
          (node.isDir = true → node = .dir []) ∧
          remove hash before path (i.removals[path]?.getD .null) recovery = .ok after)) ∧
    (ROOT ∉ i.removals → ∃ after,
      removeAll hash i.removals recovery tree.root (publishOrder adopting i.removals.keys) =
        .ok after ∧
      ∀ path, after.view (split '/' path) =
        if path ∈ i.removals then none else tree.root.view (split '/' path)) ∧
    ∀ path, rows.Pairwise fun a b => ¬(covers a path = true ∧ covers b path = true) := by
  have hvalidate := inventory_validate h
  have hpresent : ∀ path ∈ i.removals, ∃ node, tree.root.at_ (split '/' path) = some node ∧
      Residue rows path node := fun path hpath => by
    obtain ⟨node, -, hat, hresidue, -⟩ :=
      removals_residue h (Std.ExtTreeMap.getElem?_eq_some_getElem hpath)
    exact ⟨node, hat, hresidue⟩
  refine ⟨fun path hpath => ?_, fun path hpath inside hunder hthere => ?_, ?_, fun hroot => ?_,
    validate_covers hvalidate⟩
  · obtain ⟨node, hat, huncovered, habove⟩ := hpresent path hpath
    exact ⟨node, hat, huncovered, habove⟩
  · exact removals_below h hpath hunder hthere
  · intro done path rest horder hdone
    obtain ⟨before, hbefore, hgone⟩ := removeAll_run recovery h hidentity horder hdone
    refine ⟨before, hbefore, ?_, fun hroot => ?_⟩
    · rintro rfl
      refine ⟨?_, remove_root before _ recovery⟩
      have hmem : ROOT ∈ i.removals := by
        rw [← Std.ExtTreeMap.mem_keys]
        exact ((publishOrder_split Std.ExtTreeMap.nodup_keys horder).2.2 ROOT).mpr
          (Or.inr (Or.inl rfl))
      obtain ⟨node, ⟨children, hchildren, hvisited⟩, hat, hresidue, -⟩ :=
        removals_residue h (Std.ExtTreeMap.getElem?_eq_some_getElem hmem)
      rw [split_root, hchildren] at hat
      cases hat
      -- Every declaration lies below the enclave.
      refine List.eq_nil_iff_forall_not_mem.mpr fun row hrow => ?_
      exact hresidue.2 rfl row hrow (validate_under hvalidate row hrow)
    · obtain ⟨⟨node, hat, hempty⟩, hremove⟩ :=
        removeAll_step recovery h hidentity horder hgone hdone hroot
      exact ⟨node, _, hat, hempty, hremove⟩
  · have hmem : ∀ path, path ∈ publishOrder adopting i.removals.keys ↔ path ∈ i.removals := by
      intro path
      rw [publishOrder, List.mem_insertionSort, Std.ExtTreeMap.mem_keys]
    obtain ⟨after, hafter, hgone⟩ := removeAll_run recovery h hidentity
      (List.append_nil _).symm fun hin => hroot ((hmem ROOT).mp hin)
    refine ⟨after, hafter, fun path => ?_⟩
    rw [hgone (split '/' path)]
    by_cases hpath : path ∈ i.removals
    · rw [if_pos ⟨path, (hmem path).mpr hpath, List.prefix_rfl⟩, if_pos hpath]
    · rw [if_neg hpath]
      split
      · rename_i habove
        obtain ⟨p, hp, hfront⟩ := habove
        -- What stands below something removed is removed too, so nothing stands here.
        rcases prefix_iff.mp hfront with rfl | hunder
        · exact absurd ((hmem p).mp hp) hpath
        · cases hat : tree.root.at_ (split '/' path) with
          | none => rw [Node.view, hat, Option.map_none]
          | some node =>
            exact absurd (removals_below h ((hmem p).mp hp) hunder (by rw [hat]; rfl)) hpath
      · rfl

/-! ## A small enclave -/

theorem enterUndeclared_count (path : String) (node : Node) (observed : Value) (w : Inventory) :
    (enterUndeclared rows path node observed w).count = w.count := by
  unfold enterUndeclared
  split <;> rfl

theorem walk_file {depth : Nat} {w : Inventory} {bytes : ByteArray}
    (hfree : rows.find? (covers · path) = none) (hroom : w.count + 1 ≤ 8192 ∧ depth ≤ 32)
    (hsize : bytes.size ≤ MAX_FILE) :
    ∃ w', walk hash rows path depth w (.file bytes) = .ok w' ∧ w'.count = w.count + 1 := by
  simp only [walk, Except.bind_eq_ok_iff, Except.pure_eq_ok_iff, check_eq_ok, identity,
    if_neg (Nat.not_lt.mpr hsize), enter, hfree]
  exact ⟨_, ⟨(), hroom, _, rfl, _, rfl, rfl⟩, enterUndeclared_count path _ _ _⟩

theorem walk_dir {depth : Nat} {w : Inventory} {children : List (String × Node)}
    (hfree : rows.find? (covers · path) = none) (hroom : w.count + 1 ≤ 8192 ∧ depth ≤ 32)
    (hchildren : children.length ≤ 8192)
    (hwalk : ∀ w₁ : Inventory, w₁.count = w.count + 1 →
      ∃ w', walkChildren hash rows path (depth + 1) w₁ children = .ok w') :
    ∃ w', walk hash rows path depth w (.dir children) = .ok w' := by
  obtain ⟨w', hw'⟩ := hwalk _ (enterUndeclared_count path (.dir children)
    (.object [("kind", .string "directory")]) { w with count := w.count + 1 })
  refine ⟨w', ?_⟩
  simp only [walk, Except.bind_eq_ok_iff, check_eq_ok, identity, enter, hfree]
  refine ⟨(), hroom, _, rfl, _, rfl, ?_⟩
  rw [if_pos (show Node.isDir (.dir children) = true from rfl), if_neg (Nat.not_lt.mpr hchildren)]
  exact hw'

def notesRow : Row :=
  ⟨".agentic-workspace/memory/notes", "subtree", "memory", "mutable-state", "durable"⟩

/-- A directory nobody declares, and a file where a declaration needs a directory. -/
def staleEntries : List (String × Node) :=
  [("memory", .file ⟨#[]⟩), ("old", .dir [("a", .file ⟨#[]⟩)])]

def staleTree : RepositoryTree where
  root := .dir [(".agentic-workspace", .dir staleEntries)]
  proper := by
    have hold : (Node.dir [("a", .file ⟨#[]⟩)]).Proper := by
      refine .dir (by decide) ?_ ?_
      · rw [List.forall_mem_singleton]
        exact ⟨by decide, by decide⟩
      · rw [List.forall_mem_singleton]
        exact .file _
    have hentries : (Node.dir staleEntries).Proper := by
      refine .dir (by decide) ?_ ?_
      · rw [staleEntries, List.forall_mem_cons, List.forall_mem_singleton]
        exact ⟨⟨by decide, by decide⟩, ⟨by decide, by decide⟩⟩
      · rw [staleEntries, List.forall_mem_cons, List.forall_mem_singleton]
        exact ⟨.file _, hold⟩
    refine .dir (by decide) ?_ ?_
    · rw [List.forall_mem_singleton]
      exact ⟨by decide, by decide⟩
    · rw [List.forall_mem_singleton]
      exact hentries

theorem notesRow_valid : validate [] [notesRow] = .ok () := by
  simp only [validate, checkRow, Except.bind_eq_ok_iff, check_eq_ok]
  have hunder : Under ROOT notesRow.path := ⟨"memory/notes".toList, by decide⟩
  refine ⟨(), ⟨(), ⟨startsWith_slash.mpr hunder, ?_, ?_⟩, ?_⟩, trivial⟩
  · simp [notesRow]
  · decide
  · simp

theorem staleTree_inventory :
    ∃ i, inventory (fun _ => "sha") [notesRow] staleTree.root = .ok i := by
  have hat : staleTree.root.resolve [ROOT] = .ok (some (.dir staleEntries)) := by
    have hroot : (ROOT == ".agentic-workspace") = true := by decide
    rw [staleTree, Node.resolve, List.lookup_cons, hroot]
    rfl
  have hwalk : ∃ i, walk (fun _ => "sha") [notesRow] ROOT 0 (initial [notesRow])
      (.dir staleEntries) = .ok i := by
    refine walk_dir (by decide) ⟨by decide, by decide⟩ (by decide) fun w hw => ?_
    have hmemory : ∃ w', walk (fun _ => "sha") [notesRow] (ROOT ++ "/" ++ "memory") 1 w
        (.file ⟨#[]⟩) = .ok w' ∧ w'.count = w.count + 1 :=
      walk_file (by decide) ⟨by rw [hw]; decide, by decide⟩ (by decide)
    obtain ⟨w₁, hw₁, hcount⟩ := hmemory
    have hold : ∃ i, walk (fun _ => "sha") [notesRow] (ROOT ++ "/" ++ "old") 1 w₁
        (.dir [("a", .file ⟨#[]⟩)]) = .ok i := by
      refine walk_dir (by decide) ⟨by rw [hcount, hw]; decide, by decide⟩ (by decide) ?_
      intro w₂ hw₂
      have ha : ∃ w', walk (fun _ => "sha") [notesRow] (ROOT ++ "/" ++ "old" ++ "/" ++ "a") 2 w₂
          (.file ⟨#[]⟩) = .ok w' ∧ w'.count = w₂.count + 1 :=
        walk_file (by decide) ⟨by rw [hw₂, hcount, hw]; decide, by decide⟩ (by decide)
      obtain ⟨w₃, hw₃, -⟩ := ha
      exact ⟨w₃, by rw [walkChildren, hw₃]; rfl⟩
    obtain ⟨w₂, hw₂⟩ := hold
    refine ⟨w₂, ?_⟩
    rw [staleEntries, walkChildren, hw₁]
    change (walkChildren _ _ _ _ w₁ _) = _
    rw [walkChildren, hw₂]
    rfl
  obtain ⟨i, hi⟩ := hwalk
  refine ⟨i, ?_⟩
  rw [inventory, notesRow_valid, hat]
  exact hi

/-- **A file above a declared path is residue.** -/
theorem file_above_removed : ¬∀ (hash : ByteArray → String) (rows : List Row)
    (tree : RepositoryTree) (i : Inventory), inventory hash rows tree.root = .ok i →
    ∀ path ∈ i.removals, ∀ row ∈ rows, ¬Under path row.path := by
  intro hclaim
  obtain ⟨i, hi⟩ := staleTree_inventory
  have hreached : Reached [notesRow] staleTree.root (ROOT ++ "/" ++ "memory") (.file ⟨#[]⟩) :=
    ⟨staleEntries, rfl, .inside (by decide) List.mem_cons_self (.here _ _)⟩
  have hresidue : Residue [notesRow] (ROOT ++ "/" ++ "memory") (.file ⟨#[]⟩) :=
    ⟨by decide, nofun⟩
  refine hclaim _ _ _ i hi _ ((inventory_adds hi).complete _ _ hreached hresidue) notesRow
    List.mem_cons_self ⟨"notes".toList, by decide⟩

theorem residue_removed_stale : ∃ i, inventory (fun _ => "sha") [notesRow] staleTree.root = .ok i ∧
    ∀ path ∈ i.removals, ∀ inside, Under path inside →
      (staleTree.root.at_ (split '/' inside)).isSome = true → inside ∈ i.removals := by
  obtain ⟨i, hi⟩ := staleTree_inventory
  exact ⟨i, hi, (residue_removed staleTree true false hi nofun).2.1⟩

end Enclave

end AgenticCore
