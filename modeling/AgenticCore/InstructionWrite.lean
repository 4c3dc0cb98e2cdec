import AgenticCore.InstructionSource
import AgenticCore.RepositoryPaths

/-!
# Owner publications of instructions (`native_instruction_write.rs`)

* `Host.held`              : the record of a prepared publication, with its attempt.
* `Host.isAdmitted`        : whether the publication is committed.
* `currentIndex`           : the revision last published of each source.
* `Host.governanceSources` : the contents of the publications that are current.
-/

set_option autoImplicit false

namespace AgenticCore.InstructionSource

open Json Text Interleaving Repository
open AttemptStore hiding StoreM Op Answer exec Host

def WRITE : String := "instructions.write"

def EFFECT : String := "instruction-source"

/-- `CURRENT` and its directory. -/
def CURRENT_DIRECTORY : String := ".agentic-workspace/local/effects/instruction-current"

def CURRENT : String := CURRENT_DIRECTORY ++ "/index.json"

/-- The arguments of the request that an invocation answers. -/
def requestOf (i : Value) : Value := ((i.field "arguments").field "request").field "arguments"

def outcome (i : Value) : Value :=
  .object [("effects", .strings [EFFECT]), ("status", .string "applied"), ("value", .object [
    ("completion_authority", .bool false), ("continuing_custody", .bool false),
    ("kind", .string "agentic-workspace/instruction-write-result/v1"),
    ("post_revision", (i.field "arguments").field "post_revision"),
    ("source", (requestOf i).field "source")])]

/-- The path checks of `attempt_store::confined`; its link checks belong to the file system. -/
def confined (path : String) : Bool :=
  path.toList.all (· ≠ '\\') && decide ((split '/' path).head? ∉ [some "", some "."]) &&
    decide (".." ∉ split '/' path)

/-- What an operation of the effect store returns on files that nothing changes. -/
def observe {α : Type} (files : Files) (p : AttemptStore.StoreM α) : Result α :=
  ((evidence p).alone exec 0 files).1

variable (host : Host) (files : Files)

def Host.marker (source post : String) : String :=
  ".agentic-workspace/local/effects/instruction-" ++
    dropChars 7 (host.digest (.array [.string source, .string post])) ++ ".prepared.json"

/-- `attempt_store::read_source`. -/
def Host.readSource (target : String) (reference : Evidence) : Result Value := do
  host.openRoot target
  check (host.canonical reference.target = some host.root)
    "source custody belongs to a different target"
  check (confined reference.path = true) "evidence path must be relative and confined"
  let bytes ← okOr files[reference.path]? "No such file or directory"
  check (host.hash bytes = reference.revision)
    "former source changed; Planning reconciliation must reopen"
  okOr (fromSlice bytes) MALFORMED

def Host.held (target source post : String) : Result (Option Value) := do
  let found ← admitted files[host.marker source post]?
  match found with
  | none => pure none
  | some bytes => do
    let record ← okOr (fromSlice bytes) MALFORMED
    let reference ← readEvidence ((record.field "custody").field "attempt")
    let attempt ← host.readSource files target reference
    let i := record.field "invocation"
    check (attempt.field "invocation" = i ∧ i.field "source_owner" = .string "scoped-instructions" ∧
        i.field "operation_id" = .string WRITE ∧
        (i.field "arguments").field "target" = .string target ∧
        (requestOf i).field "source" = .string source ∧
        (i.field "arguments").field "post_revision" = .string post ∧
        record.field "outcome" = outcome i)
      "instruction publication lacks exact owner attempt custody; preserve source"
    pure (some record)

/-- `native_instruction_write::admitted`. -/
def Host.isAdmitted (target source post : String) : Result Bool := do
  let held ← host.held files target source post
  match held with
  | none => pure false
  | some record => do
    let custody ← readCustody (record.field "custody")
    let (_, prepared) ← observe files
      (host.prepareCommit ⟨target, custody, record.field "outcome"⟩)
    let committed ← okOr prepared.committed MALFORMED
    let found ← admitted files[committed.path]?
    match found with
    | none => pure false
    | some _ => do
      let _ ← observe files (host.inspectCommitted ⟨target, prepared⟩)
      pure true

/-- `native_instruction_write::current_sources`. -/
def currentIndex : Result (List (String × String)) := do
  let found ← admitted files[CURRENT]?
  match found with
  | some bytes => do
    let value ← okOr (fromSlice bytes) MALFORMED
    let rows ← okOr value.asObject "invalid instruction current projection"
    check (rows.length ≤ 256) "instruction current source set exceeds bound"
    rows.mapM fun (path, post) => do
      check ((sourceScope path).isSome = true) "invalid instruction current source reference"
      let post ← okOr post.asStr "invalid instruction current source reference"
      pure (path, post)
  | none => do
    check (∀ path ∈ files.keys, path ≠ CURRENT_DIRECTORY ∧
        startsWith (CURRENT_DIRECTORY ++ "/") path = false)
      "instruction current projection unavailable"
    pure []

/-- The content of a publication that the index names. -/
def Host.governanceSource (target : String) (row : String × String) :
    Result (String × ByteArray) := do
  let held ← host.held files target row.1 row.2
  let record ← okOr held "current instruction custody unavailable"
  -- Missing or damaged commit custody is unresolved authority.
  let committed ← host.isAdmitted files target row.1 row.2
  check (committed = true) "current instruction publication is unresolved"
  let content ← okOr ((requestOf (record.field "invocation")).field "content").asStr
    "current instruction content unavailable"
  pure (row.1, content.toUTF8)

def Host.governanceSources (target : String) : Result (List (String × ByteArray)) := do
  let rows ← currentIndex files
  rows.mapM (host.governanceSource files target)

end AgenticCore.InstructionSource
