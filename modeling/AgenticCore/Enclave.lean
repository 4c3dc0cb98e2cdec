import AgenticCore.Basic

/-!
# The repository's enclave and its residue (`native_enclave.rs`)

* `Node`                    : files, links and directories.
* `Row`, `covers`           : who declares which paths of the enclave.
* `walk`, `inventory`       : what lies in the enclave, and what of it nobody declares.
* `inventory_removals`      : **residue lies outside every declaration**.
-/

set_option autoImplicit false

namespace AgenticCore

open Json Text

/-- What stands at a path. A directory's entries are listed in the order of their names. -/
inductive Node where
  | file (bytes : ByteArray)
  | link (target : String)
  | dir (entries : List (String × Node))

def Node.isDir : Node → Bool
  | .dir _ => true
  | .file _ | .link _ => false

/-- The node at a relative path. A link or a file on the way is an error, what is not there is
    none. -/
def Node.resolve : List String → Node → Result (Option Node)
  | [], node => .ok (some node)
  | part :: rest, .dir entries =>
    match entries.lookup part with
    | none => .ok none
    | some (.link target) =>
      if rest = [] then .ok (some (.link target)) else fail "linked source"
    | some node => node.resolve rest
  | _ :: _, .file _ | _ :: _, .link _ => fail "not a directory"

namespace Enclave

def ROOT : String := ".agentic-workspace"
def MAX_FILE : Nat := 1024 * 1024

structure Row where
  path : String
  scope : String
  owner : String
  cls : String
  lifetime : String
  deriving DecidableEq

def covers (row : Row) (path : String) : Bool :=
  path = row.path || (row.scope = "subtree" && startsWith (row.path ++ "/") path)

def pathPart (part : String) : Bool := part ∉ ["", ".", ".."]

def checkRow (earlier : List Row) (row : Row) : Result Unit := do
  check (startsWith (ROOT ++ "/") row.path = true ∧
      (∀ c ∈ row.path.toList, c ≠ '\\' ∧ c ≠ ':') ∧
      (∀ part ∈ split '/' row.path, pathPart part = true) ∧
      row.scope ∈ ["exact", "subtree"] ∧
      row.cls ∈ ["managed-support", "mutable-state", "customization", "local-only"] ∧
      row.owner ≠ "" ∧ row.lifetime ≠ "")
    "invalid current enclave owner/class/lifetime declaration"
  check (∀ other ∈ earlier, covers other row.path = false ∧ covers row other.path = false)
    s!"ambiguous enclave ownership: {row.path}"

/-- Every row is in order, and no two cover a common path. -/
def validate : List Row → List Row → Result Unit
  | _, [] => .ok ()
  | earlier, row :: rest => do
    checkRow earlier row
    validate (earlier ++ [row]) rest

/-- Rows of the package and of the domains, then of the host, in the order of their paths. -/
def declarations (owners payload : List Row) (hostRows : List Row → Result (List Row)) :
    Result (List Row) := do
  let rows := payload.foldl (fun rows row => if row ∈ rows then rows else rows ++ [row]) owners
  let host ← hostRows rows
  let sorted := (rows ++ host).insertionSort fun a b => a.path ≤ b.path
  validate [] sorted
  pure sorted

/-- Opaque bytes by their hash, links by their target; neither is followed. -/
def identity (hash : ByteArray → String) (path : String) : Node → Result Value
  | .link target => .ok (.object [("directory", .bool false), ("kind", .string "link"),
      ("target", .string target)])
  | .dir _ => .ok (.object [("kind", .string "directory")])
  | .file bytes =>
    if MAX_FILE < bytes.size then
      fail s!"{path}: enclave inventory requires a bounded regular file or link"
    else .ok (.object [("kind", .string "file"), ("revision", .string (hash bytes))])

structure Entry where
  owner : Option String
  cls : String
  lifetime : Option String

structure Inventory where
  entries : BTreeMap String Entry
  removals : BTreeMap String Value
  count : Nat

def container : Entry := ⟨some "workspace", "managed-support", some "current-version"⟩

def Row.entry (row : Row) : Entry := ⟨some row.owner, row.cls, some row.lifetime⟩

variable (hash : ByteArray → String) (rows : List Row)

/-- What is entered for a path nobody declares. -/
def enterUndeclared (path : String) (node : Node) (observed : Value) (w : Inventory) : Inventory :=
  if node.isDir && rows.any (fun row => startsWith (path ++ "/") row.path) then
    { w with entries := w.entries.insert path container }
  else
    { w with entries := w.entries.insert path ⟨none, "unknown-residue", none⟩
             removals := w.removals.insert path observed }

/-- Descends no subtree its owner declares as a whole. -/
def enter (path : String) (node : Node) (observed : Value) (w : Inventory) :
    Result (Inventory × Bool) :=
  match rows.find? (covers · path) with
  | none => .ok (enterUndeclared rows path node observed w, node.isDir)
  | some row =>
    let w := { w with entries := w.entries.insert path row.entry }
    if row.scope = "subtree" then .ok (w, false)
    else if node.isDir then fail s!"{path}: exact file declaration names a directory"
    else .ok (w, false)

mutual
def walk (path : String) (depth : Nat) (w : Inventory) : Node → Result Inventory
  | .dir children => do
    check (w.count + 1 ≤ 8192 ∧ depth ≤ 32) "enclave inventory exceeds bounded path/depth limit"
    let observed ← identity hash path (.dir children)
    let (w, descend) ← enter rows path (.dir children) observed { w with count := w.count + 1 }
    if descend then
      if 8192 < children.length then fail "enclave directory exceeds inventory bound"
      else walkChildren path (depth + 1) w children
    else pure w
  | .file bytes => do
    check (w.count + 1 ≤ 8192 ∧ depth ≤ 32) "enclave inventory exceeds bounded path/depth limit"
    let observed ← identity hash path (.file bytes)
    let (w, _) ← enter rows path (.file bytes) observed { w with count := w.count + 1 }
    pure w
  | .link target => do
    check (w.count + 1 ≤ 8192 ∧ depth ≤ 32) "enclave inventory exceeds bounded path/depth limit"
    let observed ← identity hash path (.link target)
    let (w, _) ← enter rows path (.link target) observed { w with count := w.count + 1 }
    pure w
def walkChildren (path : String) (depth : Nat) (w : Inventory) :
    List (String × Node) → Result Inventory
  | [] => .ok w
  | (name, node) :: rest => do
    let w ← walk (path ++ "/" ++ name) depth w node
    walkChildren path depth w rest
end

/-- Declared subtrees are entered whether or not they are there. -/
def initial : Inventory where
  entries := (rows.filter (·.scope = "subtree")).foldl (fun m row => m.insert row.path row.entry)
    (.ofList [(ROOT, container)] compare)
  removals := ∅
  count := 0

def inventory (root : Node) : Result Inventory := do
  validate [] rows
  let enclave ← root.resolve [ROOT]
  match enclave with
  | none => pure (initial rows)
  | some (.dir children) => walk hash rows ROOT 0 (initial rows) (.dir children)
  | some _ => fail "enclave root must be an unlinked directory"

/-! ## Residue -/

variable {hash rows}

theorem enter_removals {path : String} {node : Node} {observed : Value} {w : Inventory}
    {r : Inventory × Bool} (h : enter rows path node observed w = .ok r) :
    ∀ p ∈ r.1.removals, p ∈ w.removals ∨ ∀ row ∈ rows, covers row p = false := by
  unfold enter at h
  split at h
  · rename_i hfind
    cases h
    intro p hp
    unfold enterUndeclared at hp
    split at hp
    · exact Or.inl hp
    · rw [Std.ExtTreeMap.mem_insert] at hp
      rcases hp with hp | hp
      · obtain rfl := Std.LawfulEqCmp.eq_of_compare hp
        exact Or.inr fun row hrow => by simpa using List.find?_eq_none.mp hfind row hrow
      · exact Or.inl hp
  · simp only at h
    split at h
    · cases h
      exact fun p hp => Or.inl hp
    · split at h
      · cases h
      · cases h
        exact fun p hp => Or.inl hp

mutual
theorem walk_removals {path : String} {depth : Nat} {w w' : Inventory} : ∀ {node : Node},
    walk hash rows path depth w node = .ok w' →
    ∀ p ∈ w'.removals, p ∈ w.removals ∨ ∀ row ∈ rows, covers row p = false
  | .dir children, h => by
    simp only [walk, Except.bind_eq_ok_iff] at h
    obtain ⟨_, -, observed, -, ⟨w₁, descend⟩, hw₁, h⟩ := h
    have henter := enter_removals hw₁
    simp only at h
    intro p hp
    split at h
    · split at h
      · cases h
      · rcases walkChildren_removals h p hp with hp | hp
        · exact henter p hp
        · exact Or.inr hp
    · cases h
      exact henter p hp
  | .file bytes, h => by
    simp only [walk, Except.bind_eq_ok_iff, Except.pure_eq_ok_iff] at h
    obtain ⟨_, -, observed, -, r, hr, rfl⟩ := h
    exact fun p hp => enter_removals hr p hp
  | .link target, h => by
    simp only [walk, Except.bind_eq_ok_iff, Except.pure_eq_ok_iff] at h
    obtain ⟨_, -, observed, -, r, hr, rfl⟩ := h
    exact fun p hp => enter_removals hr p hp
theorem walkChildren_removals {path : String} {depth : Nat} {w w' : Inventory} :
    ∀ {children : List (String × Node)}, walkChildren hash rows path depth w children = .ok w' →
    ∀ p ∈ w'.removals, p ∈ w.removals ∨ ∀ row ∈ rows, covers row p = false
  | [], h => by
    simp only [walkChildren] at h
    cases h
    exact fun p hp => Or.inl hp
  | (name, node) :: rest, h => by
    simp only [walkChildren, Except.bind_eq_ok_iff] at h
    obtain ⟨w₁, hw₁, h⟩ := h
    intro p hp
    rcases walkChildren_removals h p hp with hp | hp
    · exact walk_removals hw₁ p hp
    · exact Or.inr hp
end

/-- **Residue lies outside every declaration.** -/
theorem inventory_removals {root : Node} {i : Inventory} (h : inventory hash rows root = .ok i) :
    ∀ p ∈ i.removals, ∀ row ∈ rows, covers row p = false := by
  have hinitial : ∀ p, p ∉ (initial rows).removals := by simp [initial]
  unfold inventory at h
  simp only [Except.bind_eq_ok_iff] at h
  obtain ⟨_, -, enclave, -, h⟩ := h
  intro p hp
  split at h
  · cases h
    exact absurd hp (hinitial p)
  · rcases walk_removals h p hp with hp | hp
    · exact absurd hp (hinitial p)
    · exact hp
  · cases h

theorem mem_foldl_rows {payload : List Row} : ∀ {rows : List Row} {row : Row},
    row ∈ rows ∨ row ∈ payload →
    row ∈ payload.foldl (fun rows row => if row ∈ rows then rows else rows ++ [row]) rows := by
  induction payload with
  | nil => simp
  | cons head payload ih =>
    intro rows row h
    rw [List.foldl_cons]
    apply ih
    rcases h with h | h
    · refine Or.inl ?_
      split
      · exact h
      · exact List.mem_append_left _ h
    · rcases List.mem_cons.mp h with rfl | h
      · refine Or.inl ?_
        split
        · assumption
        · exact List.mem_append_right _ List.mem_cons_self
      · exact Or.inr h

theorem declarations_payload {owners payload : List Row} {hostRows : List Row → Result (List Row)}
    {rows : List Row} (h : declarations owners payload hostRows = .ok rows) :
    ∀ row ∈ payload, row ∈ rows := by
  simp only [declarations, Except.bind_eq_ok_iff, Except.pure_eq_ok_iff] at h
  obtain ⟨host, -, _, -, rfl⟩ := h
  intro row hrow
  exact (List.mem_insertionSort _).mpr (List.mem_append_left _ (mem_foldl_rows (Or.inr hrow)))

end Enclave

end AgenticCore
