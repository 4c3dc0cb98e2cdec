import AgenticCore.Attempt
import AgenticCore.Interleaving
import AgenticCore.JsonText

/-!
# Immutable evidence of effects (`attempt_store.rs`)

The operations on one effect store: a map from paths to immutable files with atomic creation of
absent ones.

* `admitAttempt`, `commit`, `prepareCommit`, `inspectCommitted` : the operations, step by step.
* `exec`     : the steps on the store, which records the author of each file.
* `body`     : the program that each request runs.
-/

set_option autoImplicit false

namespace AgenticCore.AttemptStore

open Json Text Interleaving Attempt

def DIRECTORY : String := ".agentic-workspace/local/effects"

structure Evidence where
  target : String
  path : String
  owner : String
  revision : String
  deriving DecidableEq, Repr

structure Custody where
  attempt : Evidence
  committed : Option Evidence
  deriving DecidableEq, Repr

/-- The host of one effect store. `canonical` resolves a target; `digest` and `hash` are SHA-256 of
    a serialised value and of bytes, written `sha256:<hex>`. -/
structure Host where
  root : String
  canonical : String → Option String
  digest : Value → String
  hash : ByteArray → String

/-! ## The store -/

/-- A file. Its author is the program that created it, which no program can read. -/
structure File where
  bytes : ByteArray
  author : Nat

abbrev Store := String → Option File

inductive Op where
  | read (path : String)
  | present (path : String)
  | create (path : String) (bytes : ByteArray)

abbrev Answer : Op → Type
  | .read _ => Option ByteArray
  | .present _ => Bool
  | .create _ _ => Bool

def exec (id : Nat) (s : Store) : (o : Op) → Store × Answer o
  | .read path => (s, (s path).map (·.bytes))
  | .present path => (s, (s path).isSome)
  | .create path bytes =>
    if (s path).isSome then (s, false)
    else (fun p => if p = path then some ⟨bytes, id⟩ else s p, true)

abbrev StoreM (α : Type) := Prog Answer CoreError α

/-! ## Names and reads -/

variable (host : Host)

/-- `digest[7..]` of the key's hash. -/
def Host.stem (key : String) : String :=
  DIRECTORY ++ "/" ++ dropChars 7 (host.hash key.toByteArray)

def Host.attemptPath (key : String) : String := host.stem key ++ ".attempt.json"

def Host.resultPath (key : String) : String := host.stem key ++ ".result.json"

def Host.names (invocation : Value) : Result (String × String) := do
  let key ← okOr (logicalEffect invocation) "logical effect identity missing"
  pure (host.attemptPath key, host.resultPath key)

def hexDigitChar (c : Char) : Bool :=
  ('0' ≤ c && c ≤ '9') || ('a' ≤ c && c ≤ 'f') || ('A' ≤ c && c ≤ 'F')

/-- The name checks of `checked`; its link and directory checks belong to the file system. -/
def checked (path : String) : Result Unit := do
  check (startsWith (DIRECTORY ++ "/") path = true) "invalid effect evidence path"
  let name := dropChars (DIRECTORY.length + 1) path
  let (key, suffix) ← okOr (splitOnce '.' name) "invalid effect evidence name"
  check (key.utf8ByteSize = 64 ∧ key.toList.all hexDigitChar = true ∧
      suffix ∈ ["attempt.json", "result.json"]) "invalid effect evidence name"

/-- Targets that resolve elsewhere belong to another store. -/
def Host.openRoot (target : String) : Result Unit :=
  check (host.canonical target = some host.root) "target of another store"

def Host.boundRoot (target : String) (invocation : Value) : Result Unit := do
  let requested ← okOr ((invocation.field "arguments").field "target").asStr
    "stored effect requires an owner-derived target argument"
  host.openRoot target
  check (host.canonical requested = some host.root)
    "storage target differs from the exact invocation target"

def readFile (path : String) : StoreM (Option ByteArray) := Prog.step (Op.read path)

def present (path : String) : StoreM Bool := Prog.step (Op.present path)

def createFile (path : String) (bytes : ByteArray) : StoreM Bool := Prog.step (Op.create path bytes)

def Host.checkEvidence (reference : Evidence) (bytes : ByteArray) : Result Value := do
  check (host.hash bytes = reference.revision) "effect evidence differs from exact custody"
  let record ← okOr (fromSlice bytes) MALFORMED
  check (((record.field "invocation").field "source_owner").asStr = some reference.owner)
    "effect evidence has a different owner"
  pure record

def Host.read (reference : Evidence) : StoreM Value := do
  check (host.root = reference.target) "custody belongs to a different target"
  checked reference.path
  let found ← readFile reference.path
  let bytes ← okOr found "effect evidence unavailable"
  host.checkEvidence reference bytes

def Host.create (path : String) (record : Value) : StoreM Evidence := do
  checked path
  let bytes := toVec record
  let created ← createFile path bytes
  check (created = true) "existing effect evidence requires exact custody; preserved"
  let owner ← okOr ((record.field "invocation").field "source_owner").asStr "attempt owner missing"
  pure { target := host.root, path, owner, revision := host.hash bytes }

/-! ## Operations -/

structure AdmitInput where
  target : String
  decision : Value
  invocation : Value
  custody : Option Custody

/-- The retained record that custody proves. -/
def Host.retained (attemptPath resultPath : String) (custody : Custody) : StoreM Value := do
  check (custody.attempt.path = attemptPath) "custody belongs to a different effect"
  let admitted ← host.read custody.attempt
  match custody.committed with
  | none => pure admitted
  | some committed => do
    check (committed.path = resultPath) "committed custody belongs to a different effect"
    let record ← host.read committed
    check (record.field "invocation" = admitted.field "invocation" ∧
        record.field "attempt_id" = admitted.field "attempt_id")
      "commit belongs to a different attempt"
    pure record

/-- New evidence is atomically acquired only while absent. -/
def Host.acquire (attemptPath resultPath : String) (record : Attempt.Record) : StoreM Custody := do
  checked resultPath
  let exists_ ← present resultPath
  check (exists_ = false) "unowned result evidence exists; preserved"
  let attempt ← host.create attemptPath record.toValue
  pure { attempt, committed := none }

def Host.admitAttempt (input : AdmitInput) : StoreM (Admission × Custody) := do
  let (attemptPath, resultPath) ← host.names input.invocation
  host.boundRoot input.target input.invocation
  match input.custody with
  | some custody => do
    let record ← host.retained attemptPath resultPath custody
    let admission ← Attempt.admitAttempt host.digest input.decision input.invocation (some record)
    pure (admission, custody)
  | none => do
    let admission ← Attempt.admitAttempt host.digest input.decision input.invocation none
    let custody ← host.acquire attemptPath resultPath admission.record
    pure (admission, custody)

structure CommitInput where
  target : String
  custody : Custody
  outcome : Value

/-- The record with its outcome, and the path its result belongs to. -/
def Host.planned (input : CommitInput) : StoreM (Attempt.Record × String) := do
  host.openRoot input.target
  let admitted ← host.read input.custody.attempt
  host.boundRoot input.target (admitted.field "invocation")
  let (attemptPath, resultPath) ← host.names (admitted.field "invocation")
  check (input.custody.attempt.path = attemptPath) "custody belongs to a different effect"
  let record ← Attempt.commit host.digest admitted input.outcome
  pure (record, resultPath)

/-- Completion creates a separate immutable result; it never truncates or replaces the admission
    file, so an interrupted write cannot erase custody. -/
def Host.commit (input : CommitInput) : StoreM (Attempt.Record × Custody) := do
  let (record, resultPath) ← host.planned input
  let committed ← match input.custody.committed with
    | some reference => do
      check (reference.path = resultPath) "committed outcome differs"
      let found ← host.read reference
      check (found = record.toValue) "committed outcome differs"
      pure reference
    | none => host.create resultPath record.toValue
  pure (record, { attempt := input.custody.attempt, committed := some committed })

/-- Retain the exact future immutable commit identity before an owner publication. -/
def Host.prepareCommit (input : CommitInput) : StoreM (Attempt.Record × Custody) := do
  let (record, resultPath) ← host.planned input
  let expected : Evidence := {
    target := host.root, path := resultPath, owner := input.custody.attempt.owner
    revision := host.hash (toVec record.toValue) }
  checked expected.path
  let exists_ ← present expected.path
  if exists_ then
    let found ← host.read expected
    check (found = record.toValue) "existing commit differs from planned outcome"
  check (∀ existing ∈ input.custody.committed, existing = expected)
    "planned commit differs from retained committed custody"
  pure (record, { attempt := input.custody.attempt, committed := some expected })

structure InspectInput where
  target : String
  custody : Custody

/-- Inspect retained committed truth without granting a historical continuation. -/
def Host.inspectCommitted (input : InspectInput) : StoreM Value := do
  host.openRoot input.target
  let admitted ← host.read input.custody.attempt
  host.boundRoot input.target (admitted.field "invocation")
  let (attemptPath, resultPath) ← host.names (admitted.field "invocation")
  let committed ← okOr input.custody.committed "committed custody missing"
  check (input.custody.attempt.path = attemptPath ∧ committed.path = resultPath)
    "committed custody belongs to a different effect"
  let record ← host.read committed
  let expected ← Attempt.commit host.digest admitted (record.field "outcome")
  check (record = expected.toValue) "committed result differs from its retained attempt"
  pure record

inductive Request where
  | admitAttempt (input : AdmitInput)
  | commit (input : CommitInput)
  | prepareCommit (input : CommitInput)
  | inspectCommitted (input : InspectInput)

inductive Response where
  | admitted (admission : Admission) (custody : Custody)
  | committed (record : Attempt.Record) (custody : Custody)
  | prepared (record : Attempt.Record) (custody : Custody)
  | inspected (record : Value)

def Host.body : Request → StoreM Response
  | .admitAttempt input => do
    let (admission, custody) ← host.admitAttempt input
    pure (.admitted admission custody)
  | .commit input => do
    let (record, custody) ← host.commit input
    pure (.committed record custody)
  | .prepareCommit input => do
    let (record, custody) ← host.prepareCommit input
    pure (.prepared record custody)
  | .inspectCommitted input => do
    let record ← host.inspectCommitted input
    pure (.inspected record)

end AgenticCore.AttemptStore
