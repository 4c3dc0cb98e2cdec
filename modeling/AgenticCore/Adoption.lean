import AgenticCore.Enclave

/-!
# Repository adoption (`native_adoption.rs`)

* `Surfaces`      : the artifact's host surfaces: package files, instruction fence, retired files.
* `instruction`   : the instruction file with its fence entered, renewed or taken out.
* `held`          : the adoption record this checkout holds, if it is authentic.
* `observe`       : the updates a mode proposes, and what blocks them.
* `editView`      : when a proposal becomes an action.
-/

set_option autoImplicit false

namespace AgenticCore.Adoption

open Json Text

def OP : String := "configuration.repository-adoption"
def RECORD : String := ".agentic-workspace/local/effects/adoption.prepared.json"
def IDENTITY : String := ".agentic-workspace/adoption.json"
def LEDGER : String := ".agentic-workspace/OWNERSHIP.toml"
def PROFILE : String := ".agentic-workspace/READING.json"
def PROVENANCE : String := ".agentic-workspace/payload-provenance.json"
def IDENTITY_KIND : String := "agentic-workspace/adopted-repository/v1"
def MAX_SOURCE_BYTES : Nat := 262144
/-- `native_verification::MAX_SOURCE_BYTES`. -/
def MAX_RECORD_BYTES : Nat := 1048576

inductive Mode where
  | adopt
  | remove
  | recover
  | reconcilePayload
  deriving DecidableEq

def Mode.name : Mode → String
  | .adopt => "adopt"
  | .remove => "remove"
  | .recover => "recover"
  | .reconcilePayload => "reconcile-payload"

inductive Materialization where
  | packageVerbatim
  | hostComposed
  | targetDerived
  deriving DecidableEq

/-- A package file, with the bytes it ships with. -/
structure PackageFile where
  path : String
  owner : String
  materialization : Materialization
  shipped : String

structure Retired where
  path : String
  sha256 : String

/-- The artifact's declaration of its host surfaces. Each is declared once: the adoption identity,
    the instruction file and the local ignore rule are no package files. -/
structure Surfaces where
  contract : Value
  package : List PackageFile
  instructionPath : String
  fenceStart : String
  fenceEnd : String
  localIgnore : String
  retired : List Retired
  preservedClasses : List (String × List String)
  enclaveRows : List Enclave.Row
  identity_apart : ∀ path ∈ instructionPath :: (package.map (·.path) ++ retired.map (·.path)),
    path ≠ IDENTITY
  package_apart : ∀ path ∈ package.map (·.path), path ≠ instructionPath ∧ path ≠ localIgnore

def Surfaces.paths (s : Surfaces) : List String := s.package.map (·.path)

/-- The other parts of the program an observation consults, and the libraries. -/
structure Host where
  hash : ByteArray → String
  digest : Value → String
  parse : String → Option Value
  pretty : Value → String
  /-- The attempt `attempt_store::read_source` finds for a record's evidence. -/
  attempt : Value → Result Value
  /-- The custody `committed` finds for a record. -/
  committed : Value → Result Bool
  ownershipBaseline : Result Value
  baseline : Value
  hasHostMeaning : String → Bool
  compose : Option String → Value → Result String
  profile : String → Result String
  profileMatches : String → String → Bool
  admitProfile : Option String → Result Unit
  /-- What the host's own ledger and configuration declare. -/
  hostRows : List Enclave.Row → Result (List Enclave.Row)
  /-- `native_payload::desired`. -/
  desired : String → Result String
  recognisedPayload : Value → Bool
  refreshActions : List String → Result Value
  custodyRecovery : Result Value

variable (host : Host) (s : Surfaces) (target : String) (root : Node)

/-- Every ancestor is a directory, the file bounded and UTF-8. -/
def bytes (path : String) : Result (Option String) := do
  let node ← root.resolve (split '/' path)
  match node with
  | none => pure none
  | some (.file content) => do
    check (content.size ≤ if path = RECORD then MAX_RECORD_BYTES else MAX_SOURCE_BYTES)
      "decision source exceeds bounded read"
    let text ← okOr (String.fromUTF8? content) "stream did not contain valid UTF-8"
    pure (some text)
  | some (.link _) => fail "linked source is not admitted"
  | some (.dir _) => fail "Is a directory"

def Host.hashText (text : String) : String := host.hash text.toUTF8

def revision (text : Option String) : Value :=
  (text.map fun s => Value.string (host.hashText s)).getD .null

/-! ## The instruction file -/

/-- `text.find(pat)`. -/
def find (pat : List Char) : List Char → Option Nat
  | [] => if pat = [] then some 0 else none
  | c :: cs => if pat.isPrefixOf (c :: cs) then some 0 else (find pat cs).map (· + 1)

/-- `text.matches(pat).count()`: matches that do not overlap. -/
def matchCount (pat : List Char) : Nat → List Char → Nat
  | 0, _ => 0
  | fuel + 1, cs =>
    match find pat cs with
    | none => 0
    | some start => 1 + matchCount pat fuel (cs.drop (start + pat.length))

def Surfaces.fence (s : Surfaces) : String :=
  s.fenceStart ++ "\nBefore repository work in each new or resumed context, you must follow " ++
    "`.agentic-workspace/skills/workspace-startup/SKILL.md`. If native skill discovery is " ++
    "unavailable, read that file directly.\n" ++ s.fenceEnd

def instruction (before : Option String) (removing : Bool) : Result (Option String) :=
  let text := (before.getD "").toList
  let opening := s.fenceStart.toList
  let closing := s.fenceEnd.toList
  match find opening text, find closing text with
  | none, none =>
    if removing then pure before
    else
      let gap := if text = [] ∨ text.getLast? = some '\n' then "" else "\n"
      pure (some (before.getD "" ++ gap ++ s.fence ++ "\n"))
  | some a, some b =>
    if matchCount opening (text.length + 1) text ≠ 1 ∨
        matchCount closing (text.length + 1) text ≠ 1 ∨ b ≤ a then
      fail "AGENTS.md has a conflicting managed fence; preserve and reconcile its source"
    else
      let middle := if removing then [] else s.fence.toList
      pure (some (String.ofList (text.take a ++ middle ++ text.drop (b + closing.length))))
  | _, _ => fail "AGENTS.md has a conflicting managed fence; preserve and reconcile its source"

/-! ## The held record -/

def recordState (record : Value) : Value :=
  (((record.field "invocation").field "arguments").field "binding").field "state"

/-- The revision a record's adoption installed at a path. -/
def installedRevision (record : Option Value) (path : String) : Option Value :=
  record.bind fun r => ((recordState r).field "installed").get? path

def held : Result (Option Value) := do
  let raw ← bytes root RECORD
  match raw with
  | none => pure none
  | some raw => do
    let record ← okOr (host.parse raw) "invalid adoption record"
    let attempt ← host.attempt ((record.field "custody").field "attempt")
    let invocation := record.field "invocation"
    check (attempt.field "invocation" = invocation ∧
        invocation.field "operation_id" = .string OP ∧
        invocation.field "source_owner" = .string "configuration" ∧
        (invocation.field "arguments").field "target" = .string target)
      "repository adoption custody is unavailable; preserve all surfaces"
    pure (some record)

/-- The record of an adoption that was interrupted. -/
def pending (record : Option Value) : Result (Option Value) :=
  match record with
  | none => pure none
  | some record => do
    let committed ← host.committed record
    pure (if committed then none else some record)

/-! ## Observation -/

structure Update where
  before : Value
  after : Option String
  residue : Bool

structure Changes where
  observations : BTreeMap String Value
  updates : BTreeMap String Update
  blockers : List String

/-- Existing package content needs exact prior adoption custody. -/
def add (mode : Mode) (record : Option Value) (path : String) (after : Option String)
    (package : Bool) (c : Changes) : Result Changes := do
  let before ← bytes root path
  let c := { c with observations := c.observations.insert path (revision host before) }
  if before = after then pure c
  else if package = true ∧ before.isSome = true ∧ mode = .adopt ∧ path ∉ [LEDGER, PROFILE] ∧
      installedRevision record path ≠ some (revision host before) then
    pure { c with blockers := c.blockers ++
      [s!"{path}: existing content lacks current package custody"] }
  else pure { c with updates := c.updates.insert path ⟨revision host before, after, false⟩ }

/-- What the loop over the package files works with. -/
structure Composition where
  mode : Mode
  record : Option Value
  preserveOwnership : Bool
  composed : Option String
  profile : Option String
  ledgerBefore : Option String

def Composition.removing (k : Composition) : Bool := k.mode = .remove

/-- The bytes a package file is to have. -/
def shippedBytes (k : Composition) (file : PackageFile) : Result String := do
  let current ← bytes root file.path
  let shipped := match file.materialization with
    | .packageVerbatim => file.shipped
    | .hostComposed => (k.composed.or k.ledgerBefore).getD ""
    | .targetDerived => (k.profile.or current).getD ""
  match current with
  | some text =>
    pure (if k.removing = false ∧ file.materialization = .targetDerived ∧
      host.profileMatches text shipped = true then text else shipped)
  | none => pure shipped

/-- The file is there, and not as the held record installed it. -/
def unowned (record : Option Value) (path : String) (current : Option String) : Bool :=
  current.isSome && installedRevision record path ≠ some (revision host current)

/-- One package file. -/
def addPackage (k : Composition) (acc : Changes × BTreeMap String Value) (file : PackageFile) :
    Result (Changes × BTreeMap String Value) := do
  let current ← bytes root file.path
  if k.preserveOwnership = true ∧ file.path ∈ [LEDGER, PROFILE] then
    let c ← add host root k.mode k.record file.path current true acc.1
    pure (c, acc.2)
  else do
    let shipped ← shippedBytes host root k file
    let installed := acc.2.insert file.path (.string (host.hashText shipped))
    let after :=
      if k.removing then if unowned host k.record file.path current then current else none
      else some shipped
    let c ← add host root k.mode k.record file.path after true acc.1
    pure (c, installed)

/-- A package file that removal preserves. -/
def unownedBlocker (record : Option Value) (path : String) : Result (List String) := do
  let current ← bytes root path
  pure (if unowned host record path current then
    [s!"{path}: edited or unowned package surface preserved"] else [])

/-- A retired file goes when its newline-normalised bytes have the contract's digest. -/
def addRetired (acc : Changes × List Value) (row : Retired) : Result (Changes × List Value) := do
  let current ← bytes root row.path
  match current with
  | none => pure acc
  | some text =>
    let c := { acc.1 with
      observations := acc.1.observations.insert row.path (revision host (some text)) }
    if host.hashText (text.replace "\r\n" "\n") = "sha256:" ++ row.sha256 then
      let update : Update := ⟨revision host (some text), none, false⟩
      pure ({ c with updates := c.updates.insert row.path update }, acc.2)
    else pure (c, acc.2 ++ [.object [("path", .string row.path),
      ("reason", .string "edited or unknown retired surface")]])

def enterResidue (m : BTreeMap String Update) (e : String × Value) : BTreeMap String Update :=
  m.insert e.1 ⟨e.2, none, true⟩

def addResidue (c : Changes) (removals : BTreeMap String Value) : Changes :=
  { c with updates := removals.toList.foldl enterResidue c.updates }

structure State where
  contractRevision : String
  mode : Mode
  enclave : Option Enclave.Inventory
  observations : BTreeMap String Value
  updates : BTreeMap String Update
  hostRefresh : Value
  installed : BTreeMap String Value
  ownershipBaseline : Value
  preserved : List Value
  blockers : List String
  custodyRecovery : Value
  identity : Value
  priorCustody : Option String
  pending : Option Value

def payloadRows : List Enclave.Row :=
  s.package.map fun file =>
    ⟨file.path, "exact", file.owner, "managed-support", "current-version"⟩

def identityText (installed : BTreeMap String Value) : String :=
  host.pretty (.object [("contract_revision", .string (host.digest s.contract)),
    ("instruction_fence", .string s.fence), ("kind", .string IDENTITY_KIND),
    ("package_files", .object installed.toList)]) ++ "\n"

/-- What the ownership ledger becomes, and what stands against it. -/
def composition (mode : Mode) (record : Option Value) : Result (Composition × List String) := do
  let ledgerBefore ← bytes root LEDGER
  if mode = .remove then
    let preserve := ledgerBefore.any host.hasHostMeaning
    pure (⟨mode, record, preserve, none, none, ledgerBefore⟩,
      if preserve then ["host ownership declarations and their read profile are preserved; " ++
        "removal has no host-policy custody"] else [])
  else do
    let baseline ← host.ownershipBaseline
    let (composed, blockers) := match host.compose ledgerBefore baseline with
      | .ok ledger => (some ledger, [])
      | .error e => (none, [s!"{LEDGER}: {e.message}"])
    let profile ← transposeM host.profile composed
    let profileBefore ← bytes root PROFILE
    let blockers := match host.admitProfile profileBefore with
      | .ok _ => blockers
      | .error e => blockers ++ [s!"{PROFILE}: {e.message}"]
    pure (⟨mode, record, false, composed, profile, ledgerBefore⟩, blockers)

/-- What stands against a removal, or against the identity found. -/
def custodyBlockers (mode : Mode) (record : Option Value) (identity instructions : Option String) :
    Result (List String) := do
  if mode = .remove then
    let unowned ← s.paths.mapM (unownedBlocker host root record)
    let fence := if record = none ∧ contains s.fenceStart (instructions.getD "") = true then
      ["AGENTS.md fence has no authenticated adoption custody; preserve"] else []
    let identity := if identity.isSome = true ∧ record = none then
      ["adoption identity has no authenticated local producer custody; preserve and explicitly " ++
        "adopt current matching surfaces first"] else []
    pure (unowned.flatten ++ fence ++ identity)
  else
    pure (match identity, record with
      | some text, none =>
        if ((host.parse text).getD .null).field "kind" ≠ .string IDENTITY_KIND then
          ["adoption identity is unknown; preserve and reconcile its source"] else []
      | _, _ => [])

/-- `target.join(path).exists()`. -/
def exists_ (path : String) : Bool :=
  match root.resolve (split '/' path) with
  | .ok node => node.isSome
  | .error _ => false

def preservedClass (removing : Bool) (cls : String) (path : String) : List Value :=
  if removing = true ∧ (cls = "local-only" ∨ exists_ root path = true) then
    [.object [("class", .string cls), ("disposition", .string "preserve"), ("path", .string path)]]
  else []

def preservedEntry (path : String) (entry : Enclave.Entry) : List Value :=
  if entry.cls ∈ ["mutable-state", "customization", "local-only"] then
    [.object [("class", .string entry.cls), ("disposition", .string "preserve"),
      ("lifetime", .orNull (entry.lifetime.map .string)),
      ("owner", .orNull (entry.owner.map .string)), ("path", .string path)]]
  else []

def classesPreserved (removing : Bool) : List Value :=
  s.preservedClasses.flatMap fun (cls, paths) => paths.flatMap (preservedClass root removing cls)

/-- The enclave's inventory, which removal does not take. -/
def enclaveOf (mode : Mode) : Result (Option Enclave.Inventory) :=
  if mode = .remove then pure none
  else do
    let rows ← Enclave.declarations s.enclaveRows (payloadRows s) host.hostRows
    let enclave ← Enclave.inventory host.hash rows root
    pure (some enclave)

/-- The ignore rule of the local directory, when adoption finds none. -/
def addIgnore (k : Composition) (c : Changes) : Result Changes := do
  let ignore ← bytes root s.localIgnore
  if k.mode = .adopt ∧ ignore = none then
    add host root k.mode k.record s.localIgnore (some "*\n") false c
  else pure c

/-- The enclave's residue enters the updates. -/
def withResidue (enclave : Option Enclave.Inventory) (c : Changes) : Changes :=
  match enclave with
  | some enclave => addResidue c enclave.removals
  | none => c

/-- All updates, with the revisions installed and what is preserved. -/
def changes (k : Composition) (blockers : List String) (identity instructions : Option String)
    (enclave : Option Enclave.Inventory) :
    Result (Changes × BTreeMap String Value × List Value) := do
  let (c, installed) ← s.package.foldlM (addPackage host root k) (⟨∅, ∅, blockers⟩, ∅)
  let after ← instruction s instructions k.removing
  let c ← add host root k.mode k.record s.instructionPath after false c
  let desired := if k.removing then none else some (identityText host s installed)
  let c ← add host root k.mode k.record IDENTITY desired false c
  let c ← addIgnore host s root k c
  let custody ← custodyBlockers host s root k.mode k.record identity instructions
  let c := { c with blockers := c.blockers ++ custody }
  let (c, preserved) ← (if k.removing then s.retired else []).foldlM (addRetired host root) (c, [])
  let preserved := preserved ++ classesPreserved s root k.removing ++
    (match enclave with
      | some enclave => enclave.entries.toList.flatMap fun e => preservedEntry e.1 e.2
      | none => [])
  pure (withResidue enclave c, installed, preserved)

/-- `reconcile-payload`: only the artifact's own identity is refreshed, once every installed file
    has its exact bytes. -/
def payloadBlockers (path : String) : Result (Value × List String) := do
  let observed ← bytes root path
  match host.desired path with
  | .error e => pure (revision host observed, [s!"{path}: {e.message}; preserve content"])
  | .ok expected =>
    pure (revision host observed,
      if observed.map (·.replace "\r\n" "\n") ≠ some (expected.replace "\r\n" "\n") then
        [s!"{path}: current artifact bytes not established; preserve content"] else [])

def reconcilePayload (identity : Option String) (record : Option Value) : Result State := do
  let before ← bytes root PROVENANCE
  let current := (before.bind host.parse).getD .null
  let files := s.paths.filter (· ≠ PROVENANCE)
  let observed ← files.mapM (payloadBlockers host root)
  let after ← okOr ((s.package.find? (·.path = PROVENANCE)).map (·.shipped))
    "source is not in the artifact's payload declaration"
  let pending ← pending host record
  let baseline ← host.ownershipBaseline
  let installed := match record with
    | some record => match (recordState record).field "installed" with
      | .object members => members
      | _ => []
    | none => []
  pure {
    contractRevision := host.digest s.contract
    mode := .reconcilePayload
    enclave := none
    observations := (Std.ExtTreeMap.ofList (files.zip (observed.map Prod.fst)) compare).insert PROVENANCE
      (revision host before)
    updates := if before = some after then ∅
      else .ofList [(PROVENANCE, ⟨revision host before, some after, false⟩)] compare
    hostRefresh := .null
    installed := (Std.ExtTreeMap.ofList installed compare).insert PROVENANCE (revision host (some after))
    ownershipBaseline := baseline
    preserved := []
    blockers := (if host.recognisedPayload current then []
        else ["unrecognized payload identity preserved"]) ++ (observed.flatMap Prod.snd) ++
      (if pending.isSome then ["interrupted adoption effect requires exact recovery"] else [])
    custodyRecovery := .null
    identity := revision host identity
    priorCustody := record.map host.digest
    pending }

/-- A fresh checkout that cannot adopt is told what its custody lacks. -/
def recoveryAdvice (mode : Mode) (record : Option Value) (blockers : List String) : Result Value :=
  if mode ≠ .remove ∧ record = none ∧ blockers ≠ [] then host.custodyRecovery else pure .null

def observe (mode : Mode) : Result State := do
  let identity ← bytes root IDENTITY
  let record ← held host target root
  if mode = .reconcilePayload then reconcilePayload host s root identity record
  else do
    let enclave ← enclaveOf host s root mode
    let (k, blockers) ← composition host root mode record
    let instructions ← bytes root s.instructionPath
    let (c, installed, preserved) ← changes host s root k blockers identity instructions enclave
    let pending ← pending host record
    let blockers := c.blockers ++
      (if pending.isSome = true ∧ mode ≠ .recover then
        ["interrupted adoption effect requires exact recover request"] else [])
    let hostRefresh ← host.refreshActions c.updates.keys
    let custodyRecovery ← recoveryAdvice host mode record blockers
    pure {
      contractRevision := host.digest s.contract
      mode, enclave
      observations := c.observations
      updates := c.updates
      hostRefresh, installed
      ownershipBaseline := host.baseline
      preserved, blockers, custodyRecovery
      identity := revision host identity
      priorCustody := record.map host.digest
      pending }

/-! ## Proposals -/

structure EditRequest where
  mode : Mode
  expectedRevision : String
  authorized : Bool
  preserving : Bool

inductive Proposal where
  | preservedBlocked
  | alreadyCurrent
  | authorizationRequired
  | writeReady (updates : BTreeMap String Update)

/-- The path stands at its exact preimage or its exact postimage. -/
def checkRecovery (hash : ByteArray → String) (path : String) (update : Update) : Result Unit := do
  if update.residue then do
    let node ← root.resolve (split '/' path)
    let current ← match node with
      | none => pure .null
      | some node => Enclave.identity hash path node
    check (current = .null ∨ current = update.before) s!"{path}: recovery residue changed"
  else do
    let current ← bytes root path
    check (revision host current = update.before ∨ current = update.after)
      s!"{path}: recovery source differs from both exact preimage and postimage"

/-- The updates of an interrupted adoption, read from its record. -/
def readUpdates (updates : Value) : BTreeMap String Update :=
  .ofList (((updates.asObject).getD []).map fun (path, u) =>
    (path, ⟨u.field "before", (u.field "after").asStr, u.field "enclave_residue" = .bool true⟩))
    compare

/-- `view` of an edit request, once the state it names has been observed; `policy` says whether the
    configuration an interrupted adoption was bound to still governs. -/
def editView (request : EditRequest) (state : State) (revisionOf : State → String)
    (policy : Value → Bool) : Result Proposal := do
  check (request.expectedRevision = revisionOf state)
    "adoption source changed; reobserve exact current surfaces"
  if request.mode ≠ .recover ∧ state.blockers ≠ [] then pure .preservedBlocked
  else do
    let updates ←
      if request.mode = .recover then do
        let record ← okOr state.pending "no interrupted adoption effect"
        check (policy record = true) "adoption recovery governing configuration changed; preserve"
        let updates := readUpdates ((recordState record).field "updates")
        updates.toList.forM fun (path, update) => checkRecovery host root host.hash path update
        pure updates
      else pure state.updates
    if request.mode ≠ .recover ∧ updates.isEmpty = true ∧
        (state.priorCustody.isSome = true ∨ request.mode = .remove) then pure .alreadyCurrent
    else if request.authorized = false ∨ (request.mode = .remove ∧ request.preserving = false) then
      pure .authorizationRequired
    else pure (.writeReady updates)

end AgenticCore.Adoption
