import AgenticCore.EffectEvidence
import AgenticCore.DecisionSource

/-!
# Patch integration (`native_patch.rs`)

An admitted patch result becomes one proposal for several files, which one effect replaces.

* `concrete`   : the paths a patch may name.
* `merge`      : a file's delta on its current text.
* `view`       : the proposal of a submitted request, also from a retained carrier.
* `execute`    : the effect, with its carrier and one temporary for each file.
-/

set_option autoImplicit false

namespace AgenticCore.NativePatch

open Json Text Interleaving Attempt Repository
open AttemptStore hiding StoreM Op Answer exec

def MAX_BYTES : Nat := 262144

def REQUEST : String := "assignment/integrate-patch/v1"

def OP : String := "assignment.integrate-patch"

def LOCK : String := ".agentic-workspace/local/effects/patch-integration.lock"

/-- `merge3` is the merge of three normalised texts (base, ours, theirs), which fails on a
    conflict. It is another package's. -/
structure Host extends AttemptStore.Host where
  merge3 : String → String → String → Option String

/-! ## Paths and texts -/

def eqIgnoreAsciiCase (a b : String) : Bool := a.toList.map Char.toLower == b.toList.map Char.toLower

def concrete (path : String) : Result Unit := do
  DecisionSource.relative path
  check (∀ first ∈ (split '/' path).head?, eqIgnoreAsciiCase first ".agentic-workspace" = false ∧
      eqIgnoreAsciiCase first ".git" = false)
    "AW-owned sources and custody require their dedicated owner operation"
  check (path.utf8ByteSize ≤ 256 ∧
      path.toList.all (· ∉ ['*', '?', '[', ']', '\r', '\t']) = true ∧
      ∀ part ∈ split '/' path, endsWith "." part = false ∧ endsWith " " part = false)
    "patch subjects require concrete relative paths, not selectors"

/-- `replace("\r\n", "\n")`. -/
def unixLines : List Char → List Char
  | '\r' :: '\n' :: rest => '\n' :: unixLines rest
  | c :: rest => c :: unixLines rest
  | [] => []

/-- `replace("\r\n", "")`. -/
def dropLineEnds : List Char → List Char
  | '\r' :: '\n' :: rest => dropLineEnds rest
  | c :: rest => c :: dropLineEnds rest
  | [] => []

/-- `replace('\n', "\r\n")`. -/
def dosLines (text : List Char) : List Char :=
  text.flatMap fun c => if c = '\n' then ['\r', '\n'] else [c]

def normalize (text : String) : Result String := do
  check (text.utf8ByteSize ≤ MAX_BYTES ∧ Char.ofNat 0 ∉ text.toList)
    "patch text exceeds the bounded UTF-8 text contract"
  let normalized := unixLines text.toList
  check ('\r' ∉ normalized) "bare carriage returns are outside the patch text contract"
  pure (String.ofList normalized)

variable (host : Host)

def Host.merge (before after current : String) : Result String := do
  let base ← normalize before
  let ours ← normalize current
  let theirs ← normalize after
  let crlf := contains "\r\n" current
  check (¬ (crlf = true ∧ '\n' ∈ dropLineEnds current.toList))
    "mixed current line endings require a bounded repair"
  let merged ← okOr (host.merge3 base ours theirs)
    "assignment delta overlaps divergent current work"
  let output := if crlf then String.ofList (dosLines merged.toList) else merged
  check (output.utf8ByteSize ≤ MAX_BYTES) "merged patch postimage exceeds the text bound"
  pure output

/-! ## Proposals -/

/-- A file of the delta: the captured baseline and the worker's text. -/
structure FileDelta where
  path : String
  before : String
  after : String
  deriving DecidableEq

/-- A file of the proposal: its current text and the merged one. -/
structure FileChange where
  path : String
  before : String
  after : String
  deriving DecidableEq

def FileChange.toValue (f : FileChange) : Value :=
  .object [("after", .string f.after), ("before", .string f.before), ("path", .string f.path)]

def FileChange.ofValue (v : Value) : Result FileChange := do
  let path ← okOr (v.field "path").asStr MALFORMED
  let before ← okOr (v.field "before").asStr MALFORMED
  let after ← okOr (v.field "after").asStr MALFORMED
  pure { path, before, after }

/-- What the admission of the patch result, the work and the contract contribute. -/
structure Context where
  work : Value
  files : List FileDelta
  deltaRevision : Value
  executionCustody : Value
  sourceRevision : Value
  judgment : Value
  ownerRevision : Value
  contractRevision : Value

namespace Context

variable (ctx : Context)

def proposal (files : List FileChange) : Value :=
  .object [("delta_revision", ctx.deltaRevision), ("execution_custody", ctx.executionCustody),
    ("files", .array (files.map FileChange.toValue))]

def source (proposal : Value) : String :=
  host.digest (.object [("admission", ctx.sourceRevision), ("judgment", ctx.judgment),
    ("proposal", proposal), ("work", ctx.work)])

def template (proposal : Value) : Value :=
  .object [("arguments", .object [("proposal_revision", .string (host.digest proposal))]),
    ("capability_revision", ctx.contractRevision), ("id", .string REQUEST),
    ("kind", .string "agentic-workspace/public-request/v1"), ("owner", .string "assignment"),
    ("owner_revision", ctx.ownerRevision), ("request_kind", .string REQUEST),
    ("source_revision", .string (ctx.source host proposal)), ("task_identity", ctx.work)]

end Context

def proposalOf (invocation : Value) : Value := (invocation.field "arguments").field "proposal"

def filesOf (invocation : Value) : List Value :=
  ((proposalOf invocation).field "files").asArray.getD []

/-- Every member is a text. -/
def changesOf (invocation : Value) : Result (List FileChange) :=
  (filesOf invocation).mapM FileChange.ofValue

def Host.marker (source : String) : String :=
  ".agentic-workspace/local/patch-integrations/" ++ dropChars 7 (host.digest (.string source)) ++
    ".json"

/-- The outcome of an invocation whose files are texts. -/
def Host.outcome (invocation : Value) : Value :=
  let postimage (file : Value) : Value := .object [("path", file.field "path"),
    ("revision", .string (host.hash ((file.field "after").asStr.getD "").toUTF8))]
  .object [("effects", .strings ["implementation"]), ("status", .string "applied"),
    ("value", .object [
      ("changed_paths", .array ((filesOf invocation).map (·.field "path"))),
      ("completion_authority", .bool false),
      ("delta_revision", (proposalOf invocation).field "delta_revision"),
      ("execution_custody", (proposalOf invocation).field "execution_custody"),
      ("kind", .string "agentic-workspace/patch-integration/v1"),
      ("postimages", .array ((filesOf invocation).map postimage)),
      ("proof_authority", .bool false), ("status", .string "integrated")])]

/-! ## The carrier -/

structure Held where
  custody : Custody
  invocation : Value
  outcome : Value

def Held.toValue (held : Held) : Value :=
  .object [("custody", custodyValue held.custody), ("invocation", held.invocation),
    ("outcome", held.outcome)]

def Held.ofValue (v : Value) : Result Held := do
  let custody ← readCustody (v.field "custody")
  pure { custody, invocation := v.field "invocation", outcome := v.field "outcome" }

/-- The carrier that a source names, with the custody of the result once that is there. -/
def Host.retained (target source : String) : StoreM (Option Held) := do
  let found ← Verification.read (host.marker source)
  match found with
  | none => pure none
  | some bytes => do
    let value ← okOr (fromSlice bytes) MALFORMED
    let held ← Held.ofValue value
    let (record, custody) ← evidence (host.prepareCommit ⟨target, held.custody, held.outcome⟩)
    check (record.invocation = held.invocation ∧
        held.invocation.field "source_owner" = .string "assignment" ∧
        held.invocation.field "operation_id" = .string OP ∧
        held.outcome = host.outcome held.invocation)
      "patch recovery lacks exact producer custody; preserved"
    let committed ← okOr custody.committed MALFORMED
    let result ← Verification.read committed.path
    match result with
    | none => pure (some held)
    | some _ => do
      let _ ← evidence (host.inspectCommitted ⟨target, custody⟩)
      pure (some { held with custody := custody })

/-! ## The view of a submitted request -/

/-- The change a delta makes to the file as it is; with a carrier, as it was. -/
def Host.propose (held : Option Held) (file : FileDelta) (found : Option ByteArray) :
    Result FileChange := do
  let bytes ← okOr found "patch target disappeared; source preserved"
  let current ← okOr (String.fromUTF8? bytes) "invalid utf-8"
  let after ← host.merge file.before file.after current
  match held with
  | none => pure ⟨file.path, current, after⟩
  | some held => do
    let retained ← okOr ((filesOf held.invocation).find? (·.field "path" = .string file.path))
      "patch recovery subject changed"
    check (retained.field "after" = .string after ∧
        (retained.field "before" = .string current ∨ retained.field "after" = .string current) ∧
        (held.custody.committed.isSome = true → retained.field "after" = .string current))
      "patch recovery target differs from exact before/postimage; preserved"
    let before ← okOr (retained.field "before").asStr "patch recovery before image missing"
    pure ⟨file.path, before, after⟩

def Host.change (held : Option Held) (file : FileDelta) : StoreM FileChange := do
  let bytes ← Verification.read file.path
  host.propose held file bytes

def requestOf (submitted : List Value) : Option Value :=
  submitted.find? (·.field "request_kind" = .string REQUEST)

/-- The proposal of the submitted request, while its effect executes. -/
def Host.view (ctx : Context) (target : String) (submitted : List Value) : StoreM Value := do
  let request ← okOr (requestOf submitted)
    "current admitted patch result required before integration"
  let held ← host.retained target ((request.field "source_revision").asStr.getD "")
  let files ← ctx.files.mapM (host.change held)
  let proposal := ctx.proposal files
  check (request = ctx.template host proposal) "patch integration proposal or authority changed"
  pure proposal

def requestsOf (invocation : Value) : List Value :=
  (invocation.field "source_requests").asArray.getD []

/-- A fresh decision returns the invocation when the view proposes what it carries. What the rest
    of the resolution contributes does not change. -/
def Host.revalidate (ctx : Context) (target : String) (invocation : Value) : StoreM Unit := do
  let proposal ← host.view ctx target (requestsOf invocation)
  check (proposal = proposalOf invocation)
    "invocation is stale or differs from the exact returned action"

/-! ## The effect -/

structure Executed where
  outcome : Value
  custody : Custody

def Host.temporary (invocation : Value) (path : String) : String :=
  path ++ "." ++ dropChars 7 (host.digest invocation) ++ ".tmp"

/-- The temporary of a file, written or recognised. -/
def stage (resumed : Bool) (temporary : String) (after : ByteArray) : StoreM Unit := do
  let found ← Verification.read temporary
  match found with
  | some bytes => check (resumed = true ∧ bytes = after) "unowned patch temporary preserved"
  | none => createNew temporary after

/-- The file at its new text. -/
def Host.publish (revalidate : StoreM Unit) (resumed : Bool) (invocation : Value)
    (file : FileChange) : StoreM Unit := do
  let found ← Verification.read file.path
  let current ← okOr found "patch target disappeared"
  if current = file.after.toUTF8 then pure () else do
    check (current = file.before.toUTF8) "patch target changed before publication; preserved"
    stage resumed (host.temporary invocation file.path) file.after.toUTF8
    revalidate
    let found ← Verification.read file.path
    check (found = some file.before.toUTF8) "patch target changed at publication; preserved"
    rename (host.temporary invocation file.path) file.path

/-- Every file is at its new text. -/
def verify (file : FileChange) : StoreM Unit := do
  let found ← Verification.read file.path
  check (found = some file.after.toUTF8) "patch postimage changed before completion; preserved"

/-- The carrier, unless it is there. -/
def Host.carry (source : String) (held : Option Held) (carrier : Held) : StoreM Unit :=
  match held with
  | some _ => pure ()
  | none => do
    let bytes := toVec carrier.toValue
    check (bytes.size ≤ Verification.MAX_SOURCE_BYTES) "patch recovery carrier exceeds reader bound"
    createNew (host.marker source) bytes

def envelope (target : String) (invocation outcome : Value) : Nat :=
  (toVec (.object [("invocation", invocation), ("outcome", outcome)])).size +
    3 * (toVec (.string target)).size + 16384

/-- After the carrier: every file, then the commit. -/
def Host.replaceFiles (target : String) (invocation : Value) (revalidate : StoreM Unit)
    (resumed : Bool) (custody : Custody) : StoreM Executed := do
  let files ← changesOf invocation
  files.forM (host.publish revalidate resumed invocation)
  revalidate
  files.forM verify
  let (_, committed) ← evidence (host.commit ⟨target, custody, host.outcome invocation⟩)
  pure ⟨host.outcome invocation, committed⟩

/-- After admission. -/
def Host.integrate (target : String) (invocation : Value) (revalidate : StoreM Unit)
    (source : String) (held : Option Held) (custody : Custody) : StoreM Executed := do
  host.carry source held ⟨custody, invocation, host.outcome invocation⟩
  host.replaceFiles target invocation revalidate held.isSome custody

def Host.execute (target : String) (decision invocation : Value) (revalidate : StoreM Unit) :
    StoreM Executed := do
  openLock LOCK "unrecognized patch integration lock preserved"
  revalidate
  let request ← okOr (requestOf (requestsOf invocation)) "exact integration request missing"
  let source ← okOr (request.field "source_revision").asStr "integration source revision missing"
  let held ← host.retained target source
  check (envelope target invocation (host.outcome invocation) ≤ Verification.MAX_SOURCE_BYTES)
    "complete patch recovery carrier exceeds its bounded reader"
  check (∀ h ∈ held, h.invocation = invocation) "patch integration custody collision; preserved"
  let (admission, custody) ← evidence
    (host.admitAttempt ⟨target, decision, invocation, held.map (·.custody)⟩)
  match admission.disposition with
  | .replay => pure ⟨.orNull admission.record.outcome, custody⟩
  | .execute => host.integrate target invocation revalidate source held custody
  | .uncertain => do
    check (held.isSome = true) "patch integration requires exact recovery"
    host.integrate target invocation revalidate source held custody

end AgenticCore.NativePatch
