import AgenticCore.InstructionWrite
import AgenticCore.JsonUpdate
import AgenticCore.NativeClaimReview

/-!
# Repository observations of native proof (`repository_proof.rs`)

* `Host.committedPublication` : the committed execution of a receipt (`native_proof.rs`).
* `Host.consumer`             : the plan that holds a receipt.
* `Host.project`              : the portable observation of a receipt.
* `Host.validate`             : what is accepted as such an observation.
* `Host.published`            : the observation that a promotion publishes.
* `Host.publicationOriginal`  : the receipt that was published.
* `subject_settled`           : a portable subject is its own portable subject.
* `Host.Drafted.validate`     : what is left to check of a projection.
* `committedPublication_ran`  : **the committed execution of a receipt is found.**
-/

set_option autoImplicit false

namespace AgenticCore.RepositoryProof

open Json Text
open Repository (Files HashText admitted)
open NativeClaimReview (itemsOf asStrOr PANIC)
open InstructionSource (observe)

def KIND : String := "agentic-workspace/repository-proof/v1"

def RUNS : String := ".agentic-workspace/local/proof-receipts/runs"

def RECEIPTS : String := ".agentic-workspace/proof/receipts/"

def PLANS : String := ".agentic-workspace/planning/execplans/"

/-- `store` keeps the attempts. `digest` is SHA-256 of a serialised value and `hash` of bytes,
    written `sha256:<hex>`; `fingerprint` is `proof_subject::fingerprint`; `lossy` reads bytes as
    text. `inspected` is Planning's inspection of the provenance of a plan. -/
structure Host where
  target : String
  store : AttemptStore.Host
  digest : Value → String
  hash : ByteArray → String
  fingerprint : Value → Result String
  lossy : ByteArray → String
  inspected : Files → String → Value → Result Bool

def isRepository (receipt : Value) : Bool :=
  (receipt.field "repository_proof").field "kind" = .string KIND

/-- `native_planning::read`. -/
def read (files : Files) (path : String) : Result (Option ByteArray) := do
  DecisionSource.relative path
  admitted files[path]?

/-- `native_verification::read`. -/
def readVerification (files : Files) (path : String) : Result (Option ByteArray) := do
  check (Repository.Verification.repositoryRelative path = true)
    "Verification path must be repository-relative"
  match files[path]? with
  | none => pure none
  | some bytes => do
    check (bytes.size ≤ Repository.Verification.MAX_SOURCE_BYTES)
      "Verification source exceeds bounded read"
    pure (some bytes)

/-- `f(&mut value[key])`: a null value is made an object, and a missing member a null. -/
def modify (value : Value) (key : String) (f : Value → Value) : Result Value := do
  check (value.isObject ∨ value = .null) "cannot access key in JSON value"
  pure (value.insert key (f (value.field key)))

/-! ## Proof subjects -/

def withoutPath (v : Value) : Value := v.remove "path"

/-- The executor without its daemon and the path of its transport. -/
def portable (executor : Value) : Value :=
  let executor := executor.remove "daemon"
  if (executor.get? "transport").isSome then
    executor.insert "transport" (withoutPath (executor.field "transport"))
  else executor

/-- The runtime without its machine paths. -/
def runtime (value : Value) : Result Value := do
  let value ← modify value "producer" withoutPath
  let value ← modify value "shell" withoutPath
  modify value "executor" portable

def IDENTITY : List String :=
  ["claim_classes", "effect_scope", "source_inputs", "command_sha256", "runtime",
    "identity_complete",
    "unavailable_inputs"]

/-- What a fingerprint is taken of. -/
def identity (value : Value) : Value :=
  IDENTITY.foldl (fun identity key => identity.insert key (value.field key)) (.object [])

def asciiHexDigit (c : Char) : Bool :=
  ('0' ≤ c && c ≤ '9') || ('a' ≤ c && c ≤ 'f') || ('A' ≤ c && c ≤ 'F')

variable (host : Host)

def Host.subject (value : Value) : Result Value := do
  let runtime ← runtime (value.field "runtime")
  let value ← modify value "runtime" fun _ => runtime
  let fingerprint ← host.fingerprint (identity value)
  let short := String.ofList (fingerprint.toList.take 20)
  pure ((value.insert "id" (.string ("proof-subject:" ++ short))).insert "fingerprint"
    (.string fingerprint))

/-! ## Machine paths -/

def SEPARATORS : List Char := [' ', '\t', '\n', '"', '\'', '=']

/-- A part between separators starts with a slash. -/
def rooted : Bool → List Char → Bool
  | _, [] => false
  | fresh, c :: cs => (fresh && c == '/') || rooted (decide (c ∈ SEPARATORS)) cs

def asciiAlphabetic (c : Char) : Bool := ('a' ≤ c && c ≤ 'z') || ('A' ≤ c && c ≤ 'Z')

/-- A drive letter that no letter or digit precedes. -/
def drive : Bool → List Char → Bool
  | preceded, a :: b :: c :: rest =>
    (!preceded && asciiAlphabetic a && b == ':' && (c == '/' || c == '\\')) ||
      drive (asciiAlphabetic a || ('0' ≤ a && a ≤ '9')) (b :: c :: rest)
  | _, _ => false

def absoluteText (s : String) : Bool :=
  rooted true s.toList || startsWith "\\\\" s || drive false s.toList

mutual
def absolute : Value → Bool
  | .string s => absoluteText s
  | .array items => absoluteItems items
  | .object members => absoluteMembers members
  | _ => false

def absoluteItems : List Value → Bool
  | [] => false
  | v :: rest => absolute v || absoluteItems rest

def absoluteMembers : List (String × Value) → Bool
  | [] => false
  | (_, v) :: rest => absolute v || absoluteMembers rest
end

/-! ## The committed execution -/

def selectionOf (invocation : Value) : Value := (invocation.field "arguments").field "selection"

def Host.runPath (invocation : Value) : String :=
  RUNS ++ "/native-" ++
    String.ofList ((host.digest (invocation.field "idempotency_key")).toList.map fun c =>
      if c = ':' then '-' else c) ++ "/run.json"

/-- A retained carrier, with its completion where that is written. -/
def retained (files : Files) (path : String) (invocation : Value) : Result (Option Value) := do
  let found ← readVerification files path
  match found with
  | none => pure none
  | some bytes => do
    let run ← okOr (fromSlice bytes) MALFORMED
    check (run.field "kind" = .string "agentic-workspace/proof-execution-run/v1" ∧
        run.field "invocation" = invocation ∧ (run.field "custody").isObject = true)
      "existing proof run has no exact current producer custody; preserved"
    let completion ← readVerification files (path ++ ".completed.json")
    match completion with
    | none => pure (some run)
    | some bytes => do
      let complete ← okOr (fromSlice bytes) MALFORMED
      check (complete.field "invocation" = invocation ∧
          (complete.field "custody").field "attempt" = (run.field "custody").field "attempt")
        "proof completion does not belong to retained admission; preserved"
      pure (some complete)

/-- `local_reference`. -/
def localReference (receipt : Value) : Result String := do
  let path ← okOr (receipt.field "source_ref").asStr "missing local proof custody"
  let id ← okOr (((stripPrefix (RUNS ++ "/native-sha256-") path).bind
    (stripSuffix "/run.json")).filter fun s => s.length == 64 && s.toList.all asciiHexDigit)
    "invalid local proof custody"
  pure ("proof://local/" ++ id)

def receiptReference (receipt : Value) : String :=
  "proof://receipts/" ++ asStrOr (receipt.field "receipt_id")

/-- The committed outcome names the receipt: by its reference, by its run, or in full. -/
def namesReceipt (committed receipt : Value) : Result Bool := do
  let value := (committed.field "outcome").field "value"
  let publication := (value.field "publication").field "reference"
  if publication = .string (receiptReference receipt) then pure true
  else do
    let reference ← localReference receipt
    pure (publication = .string reference ||
      (value.field "observation").field "reference" = .string reference ||
      value.field "receipt" = receipt)

def Host.committedPublication (files : Files) (receipt : Value) : Result (Option Value) := do
  match (receipt.field "source_ref").asStr with
  | none => pure none
  | some reference =>
    if !(startsWith (RUNS ++ "/native-sha256-") reference && endsWith "/run.json" reference) then
      pure none
    else do
      let found ← readVerification files reference
      match found with
      | none => pure none
      | some bytes => do
        let initial ← okOr (fromSlice bytes) MALFORMED
        let invocation := initial.field "invocation"
        if invocation.field "source_owner" ≠ .string "verification" ∨
            invocation.field "operation_id" ≠ .string "proof.report" ∨
            host.runPath invocation ≠ reference ∨
            receipt.field "proof_subject" ≠ (selectionOf invocation).field "proof_subject" ∨
            receipt.field "command" ≠ ((selectionOf invocation).field "choice").field "command" then
          pure none
        else do
          let held ← retained files reference invocation
          match held with
          | none => pure none
          | some held => do
            let custody ← Repository.readCustody (held.field "custody")
            let committed ← observe files (host.store.inspectCommitted ⟨host.target, custody⟩)
            if committed.field "invocation" ≠ invocation ∨
                ((committed.field "outcome").field "value").field "proof_subject" ≠
                  receipt.field "proof_subject" then
              pure none
            else do
              let named ← namesReceipt committed receipt
              pure (if named then some committed else none)

/-! ## The plan that holds a receipt -/

def Host.consumer (files : Files) (path reference : String) : Result Value := do
  DecisionSource.relative path
  check (startsWith PLANS path = true ∧ endsWith ".plan.json" path = true)
    "durable consumer requires an admitted Planning owner"
  let found ← read files path
  let bytes ← okOr found "durable consumer missing"
  let body ← okOr (fromSlice bytes) MALFORMED
  let current ← host.inspected files path body
  check (current = true ∧ (.string reference ∈ itemsOf (body.field "references") ∨
      contains reference (text (body.field "proof")) = true))
    "durable consumer requires a current owner-admitted exact proof reference"
  pure (.object [("id", body.field "id"), ("owner", .string "planning"), ("path", .string path),
    ("reference", .string reference), ("revision", .string (host.digest body))])

/-! ## Projection -/

/-- What a revision is taken of. -/
def payload (receipt : Value) : Value :=
  (receipt.insert "repository_proof" ((receipt.field "repository_proof").remove "revision")).remove
    "publication_custody"

def KEPT : List String :=
  ["kind", "command", "result", "changed_paths", "recorded_at", "revision", "producer_class",
    "authority", "receipt_id", "publication_id", "source_ref"]

/-- The members that a projection keeps as they are. -/
def kept (receipt : Value) : Value :=
  KEPT.foldl (fun projected key => projected.insert key (receipt.field key)) (.object [])

def Host.observation (receipt committed consumer detail : Value) : Value :=
  let selection := selectionOf (committed.field "invocation")
  .object [
    ("authority",
      .string "repository-owned observation; no independent review or local effect recovery"),
    ("consumer", consumer), ("kind", .string KIND),
    ("origin", .object [("receipt_id", receipt.field "receipt_id"),
      ("receipt_revision", .string (host.digest receipt)),
      ("runtime_revision", .string (host.digest ((receipt.field "proof_subject").field "runtime"))),
      ("subject_fingerprint", (receipt.field "proof_subject").field "fingerprint")]),
    ("owner", .string "verification"),
    ("process", .object [("exit_code", detail.field "exit_code"), ("status", detail.field "status"),
      ("timed_out", detail.field "timed_out")]),
    ("producer", .object [
      ("invocation_revision", .string (host.digest (committed.field "invocation"))),
      ("outcome_revision", .string (host.digest (committed.field "outcome")))]),
    ("selection", .object [("choice", selection.field "choice"),
      ("strategy", selection.field "strategy"), ("work", selection.field "work")])]

/-- The projection before its revision. -/
def Host.draft (receipt committed consumer detail subject : Value) : Value :=
  (((kept receipt).insert "proof_subject" subject).insert "execution_artifact"
    (.object [("scope", .string "repository-summary"),
      ("sha256", (receipt.field "execution_artifact").field "sha256")])).insert
    "repository_proof" (host.observation receipt committed consumer detail)

/-- The revision of a projection, set in it. -/
def Host.sealed (projected : Value) : Value :=
  projected.insert "repository_proof" ((projected.field "repository_proof").insert "revision"
    (.string (host.digest (payload projected))))

def Host.project (files : Files) (receipt consumer : Value) : Result Value := do
  let found ← host.committedPublication files receipt
  let committed ← okOr found "repository proof requires committed original execution"
  let artifact := receipt.field "execution_artifact"
  let path ← okOr (artifact.field "path").asStr "execution detail missing"
  let found ← read files path
  let bytes ← okOr found "execution detail unavailable"
  check (host.hash bytes = "sha256:" ++ asStrOr (artifact.field "sha256"))
    "execution detail changed before repository promotion"
  let detail ← okOr (fromSlice bytes) MALFORMED
  let subject ← host.subject (receipt.field "proof_subject")
  let projected := host.draft receipt committed consumer detail subject
  check (detail.field "status" = receipt.field "result" ∧ absolute projected = false)
    "repository proof projection is inconsistent or contains machine paths"
  pure (host.sealed projected)

/-! ## Validation -/

def receiptId (v : Value) : Bool :=
  match v.asStr with
  | none => false
  | some id => id.length == 16 && id.toList.all asciiHexDigit

/-- `sha256:` and 64 digits. -/
def digestShaped (v : Value) : Bool :=
  match v.asStr with
  | none => false
  | some s => startsWith "sha256:" s && s.length == 71 && (s.toList.drop 7).all asciiHexDigit

def chainAdmitted (consumer : Value) : Bool :=
  match (consumer.field "dependencies").asArray with
  | none => true
  | some chain => decide (chain.length ≤ 32) && chain.all receiptId

def Host.validate (receipt : Value) : Result Unit := do
  let held := receipt.field "repository_proof"
  check (isRepository receipt = true ∧ receiptId (receipt.field "receipt_id") = true ∧
      (held.field "consumer").isObject = true ∧ chainAdmitted (held.field "consumer") = true ∧
      held.field "owner" = .string "verification" ∧
      held.field "revision" = .string (host.digest (payload receipt)) ∧
      (held.field "origin").field "receipt_id" = receipt.field "receipt_id" ∧
      ((held.field "selection").field "choice").field "command" = receipt.field "command" ∧
      (held.field "process").field "status" = receipt.field "result")
    "repository proof owner projection invalid"
  let subject ← host.subject (receipt.field "proof_subject")
  check (subject = receipt.field "proof_subject" ∧ absolute (payload receipt) = false)
    "repository proof owner projection invalid"
  check (∀ v ∈ [(held.field "producer").field "invocation_revision",
      (held.field "producer").field "outcome_revision",
      (held.field "origin").field "receipt_revision",
      (held.field "origin").field "runtime_revision"], digestShaped v = true)
    "repository proof producer identity missing"

/-! ## Publication -/

/-- `custody[field]["target"] = "."` for both references. -/
def relocated (custody : Value) : Result Value := do
  let attempt ← modify (custody.field "attempt") "target" fun _ => .string "."
  let custody ← modify custody "attempt" fun _ => attempt
  let committed ← modify (custody.field "committed") "target" fun _ => .string "."
  modify custody "committed" fun _ => committed

def Host.published (files : Files) (original invocation : Value) : Result Value := do
  let projected ← host.project files original
    (((selectionOf invocation).field "promotion").field "consumer")
  let held := original.field "publication_custody"
  let custody ← relocated (held.field "custody")
  let index := (((held.field "outcome").field "value").field "publication").field "index_sha256"
  let projected := projected.insert "publication_custody" (.object [("custody", custody),
    ("index_sha256", index), ("kind", .string "agentic-workspace/proof-publication-custody/v2"),
    ("local_carrier", .string (host.runPath invocation ++ ".publication.json")),
    ("local_revision", .string (host.digest original))])
  let projected := projected.insert "repository_proof"
    ((projected.field "repository_proof").insert "index_sha256" index)
  pure (host.sealed projected)

def Host.publicationOriginal (files : Files) (receipt : Value) : Result Value := do
  host.validate receipt
  let held := receipt.field "publication_custody"
  let path ← okOr (held.field "local_carrier").asStr "publication recovery carrier missing"
  check (startsWith (RUNS ++ "/native-") path = true ∧
      endsWith "/run.json.publication.json" path = true) "publication recovery carrier invalid"
  let found ← read files path
  let bytes ← okOr found "local publication recovery unavailable"
  let original ← okOr (fromSlice bytes) MALFORMED
  check (.string (host.digest original) = held.field "local_revision" ∧
      original.field "receipt_id" = receipt.field "receipt_id") "local publication recovery changed"
  pure original

/-! ## What a projection is made of -/

theorem absoluteMembers_eq_false {members : List (String × Value)} :
    absoluteMembers members = false ↔ ∀ member ∈ members, absolute member.2 = false := by
  induction members with
  | nil => simp [absoluteMembers]
  | cons member rest ih =>
    obtain ⟨name, v⟩ := member
    rw [absoluteMembers, Bool.or_eq_false_iff, ih, List.forall_mem_cons]

theorem absolute_insert {obj v : Value} (hobj : absolute obj = false) (hv : absolute v = false)
    (key : String) : absolute (obj.insert key v) = false := by
  cases obj with
  | object members =>
    rw [absolute] at hobj
    rw [Value.insert, absolute, absoluteMembers_eq_false]
    intro member hmember
    rcases mem_insertMember hmember with rfl | hmember
    · exact hv
    · exact absoluteMembers_eq_false.mp hobj member hmember
  | null => simp [Value.insert, absolute, absoluteMembers, hv]
  | bool | number | string | array => exact hobj

theorem absolute_remove {obj : Value} (hobj : absolute obj = false) (key : String) :
    absolute (obj.remove key) = false := by
  cases obj with
  | object members =>
    rw [absolute] at hobj
    rw [Value.remove, absolute, absoluteMembers_eq_false]
    intro member hmember
    exact absoluteMembers_eq_false.mp hobj member (List.mem_filter.mp hmember).1
  | null | bool | number | string | array => exact hobj

theorem absolute_get? {obj v : Value} {key : String} (hobj : absolute obj = false)
    (h : obj.get? key = some v) : absolute v = false := by
  cases obj with
  | object members =>
    rw [absolute] at hobj
    exact absoluteMembers_eq_false.mp hobj (key, v) (mem_of_lookup h)
  | null | bool | number | string | array => cases h

/-! ## Subjects are portable already -/

theorem modify_ok {value w : Value} {key : String} {f : Value → Value} :
    modify value key f = .ok w ↔ value.Writable ∧ value.insert key (f (value.field key)) = w := by
  simp only [modify, Except.bind_eq_ok_iff, check_eq_ok, Except.pure_eq_ok_iff, Value.Writable]
  constructor
  · rintro ⟨-, h, hw⟩
    exact ⟨h, hw⟩
  · rintro ⟨h, hw⟩
    exact ⟨(), h, hw⟩

/-- The member is what a change of it makes of it. -/
def Settled (value : Value) (key : String) (f : Value → Value) : Prop :=
  modify value key f = .ok value

theorem settled_modify {value w : Value} {key : String} {f : Value → Value}
    (hf : ∀ v, f (f v) = f v) (h : modify value key f = .ok w) : Settled w key f := by
  obtain ⟨hvalue, rfl⟩ := modify_ok.mp h
  refine modify_ok.mpr ⟨Or.inl (hvalue.insert_isObject key _), ?_⟩
  rw [hvalue.field_insert_self, hf]
  exact held_insert value key _

theorem Settled.modify {value w : Value} {key other : String} {f g : Value → Value}
    (hs : Settled value key f) (hne : key ≠ other) (h : modify value other g = .ok w) :
    Settled w key f := by
  obtain ⟨hvalue, hheld⟩ := modify_ok.mp hs
  obtain ⟨-, rfl⟩ := modify_ok.mp h
  refine modify_ok.mpr ⟨Or.inl (hvalue.insert_isObject other _), ?_⟩
  rw [Value.field_insert_of_ne hne]
  exact Held.insert hheld hne _

theorem withoutPath_withoutPath (v : Value) : withoutPath (withoutPath v) = withoutPath v :=
  v.remove_remove "path"

theorem portable_portable (v : Value) : portable (portable v) = portable v := by
  have hdaemon : (v.remove "daemon").get? "daemon" = none := v.get?_remove_self "daemon"
  by_cases h : ((v.remove "daemon").get? "transport").isSome
  · have hobject : (v.remove "daemon").Writable := by
      cases v with
      | object members => exact Or.inl rfl
      | null | bool | number | string | array => cases h
    have hp : portable v = (v.remove "daemon").insert "transport"
        (withoutPath ((v.remove "daemon").field "transport")) := by
      rw [portable, if_pos h]
    have hsame : (portable v).remove "daemon" = portable v := by
      refine Value.remove_absent ?_
      rw [hp, Value.get?_insert_of_ne (by decide), hdaemon]
    rw [portable, hsame, if_pos (by rw [hp, hobject.get?_insert_self]; rfl), hp,
      hobject.field_insert_self, withoutPath_withoutPath]
    exact held_insert _ _ _
  · have hp : portable v = v.remove "daemon" := by rw [portable, if_neg h]
    rw [hp, portable, Value.remove_absent hdaemon, if_neg h]

theorem runtime_settled {value r : Value} (h : runtime value = .ok r) : runtime r = .ok r := by
  simp only [runtime, Except.bind_eq_ok_iff] at h ⊢
  obtain ⟨v, hproducer, w, hshell, hexecutor⟩ := h
  have hv := settled_modify withoutPath_withoutPath hproducer
  have hw := settled_modify withoutPath_withoutPath hshell
  have hr := settled_modify portable_portable hexecutor
  exact ⟨r, (hv.modify (by decide) hshell).modify (by decide) hexecutor, r,
    hw.modify (by decide) hexecutor, hr⟩

theorem identity_congr {v w : Value} (h : ∀ key ∈ IDENTITY, v.field key = w.field key) :
    identity v = identity w := by
  unfold identity
  refine List.foldl_ext _ _ _ fun acc key hkey => ?_
  rw [h key hkey]

theorem subject_settled {value s : Value} (h : host.subject value = .ok s) :
    host.subject s = .ok s := by
  simp only [Host.subject, Except.bind_eq_ok_iff, Except.pure_eq_ok_iff] at h ⊢
  obtain ⟨r, hr, v, hv, fingerprint, hfingerprint, rfl⟩ := h
  obtain ⟨hvalue, rfl⟩ := modify_ok.mp hv
  have hobject : ∀ key w, ((value.insert "runtime" r).insert key w).Writable := fun key w =>
    Or.inl (Value.Writable.insert_isObject (Or.inl (hvalue.insert_isObject _ _)) key w)
  generalize hid :
    Value.string ("proof-subject:" ++ String.ofList (fingerprint.toList.take 20)) = id
  have hruntime : (((value.insert "runtime" r).insert "id" id).insert "fingerprint"
      (.string fingerprint)).field "runtime" = r := by
    rw [Value.field_insert_of_ne (by decide), Value.field_insert_of_ne (by decide),
      hvalue.field_insert_self]
  have hheld : Held (((value.insert "runtime" r).insert "id" id).insert "fingerprint"
      (.string fingerprint)) "runtime" r :=
    ((held_insert value "runtime" r).insert (by decide) id).insert (by decide) _
  have hids : Held (((value.insert "runtime" r).insert "id" id).insert "fingerprint"
      (.string fingerprint)) "id" id := (held_insert _ "id" id).insert (by decide) _
  refine ⟨r, by rw [hruntime]; exact runtime_settled hr, _,
    modify_ok.mpr ⟨Or.inl ((hobject _ _).insert_isObject _ _), hheld⟩, fingerprint, ?_, ?_⟩
  · rw [← hfingerprint]
    refine congrArg host.fingerprint (identity_congr fun key hkey => ?_)
    have hne : key ≠ "fingerprint" ∧ key ≠ "id" := by
      revert key
      decide
    rw [Value.field_insert_of_ne hne.1, Value.field_insert_of_ne hne.2]
  · rw [hid, hids]
    exact held_insert _ _ _

/-! ## Sealing -/

/-- A projection that lacks only its revision. -/
structure Host.Drafted (p : Value) : Prop where
  object : p.isObject = true
  held : (p.field "repository_proof").isObject = true
  kind : isRepository p = true
  owner : (p.field "repository_proof").field "owner" = .string "verification"
  origin : ((p.field "repository_proof").field "origin").field "receipt_id" = p.field "receipt_id"
  command : (((p.field "repository_proof").field "selection").field "choice").field "command" =
    p.field "command"
  status : ((p.field "repository_proof").field "process").field "status" = p.field "result"
  subject : host.subject (p.field "proof_subject") = .ok (p.field "proof_subject")
  producer : ∀ v ∈ [((p.field "repository_proof").field "producer").field "invocation_revision",
    ((p.field "repository_proof").field "producer").field "outcome_revision",
    ((p.field "repository_proof").field "origin").field "receipt_revision",
    ((p.field "repository_proof").field "origin").field "runtime_revision"],
      ∃ w, v = .string (host.digest w)

variable {host}

theorem payload_sealed {p : Value} (hobject : p.isObject = true)
    (hheld : (p.field "repository_proof").isObject = true) :
    payload (host.sealed p) = payload p := by
  rw [payload, Host.sealed, Value.Writable.field_insert_self (Or.inl hobject),
    Value.remove_insert hheld, Value.insert_insert, payload]

theorem sealed_field {p : Value} {key : String} (hkey : key ≠ "repository_proof") :
    (host.sealed p).field key = p.field key :=
  Value.field_insert_of_ne hkey _ _

theorem sealed_held {p : Value} {key : String} (hobject : p.isObject = true)
    (hkey : key ≠ "revision") :
    ((host.sealed p).field "repository_proof").field key =
      (p.field "repository_proof").field key := by
  rw [Host.sealed, Value.Writable.field_insert_self (Or.inl hobject), Value.field_insert_of_ne hkey]

/-- What is left to check of a projection. -/
theorem Host.Drafted.validate {p : Value} (h : host.Drafted p)
    (hdigest : ∀ v, digestShaped (.string (host.digest v)) = true) :
    host.validate (host.sealed p) = .ok () ↔ receiptId (p.field "receipt_id") = true ∧
      ((p.field "repository_proof").field "consumer").isObject = true ∧
      chainAdmitted ((p.field "repository_proof").field "consumer") = true ∧
      absolute (payload p) = false := by
  have hkind : isRepository (host.sealed p) = true := by
    rw [isRepository, sealed_held h.object (by decide)]
    exact h.kind
  have hrevision : ((host.sealed p).field "repository_proof").field "revision" =
      .string (host.digest (payload (host.sealed p))) := by
    rw [payload_sealed h.object h.held, Host.sealed,
      Value.Writable.field_insert_self (Or.inl h.object),
      Value.Writable.field_insert_self (Or.inl h.held)]
  simp only [Host.validate, Except.bind_eq_ok_iff, check_eq_ok, hkind, hrevision, true_and]
  rw [sealed_held h.object (by decide), sealed_held h.object (by decide),
    sealed_held h.object (by decide), sealed_held h.object (by decide),
    sealed_held h.object (by decide), sealed_held h.object (by decide),
    sealed_field (by decide), sealed_field (by decide), sealed_field (by decide),
    sealed_field (by decide), payload_sealed h.object h.held]
  constructor
  · rintro ⟨-, ⟨hid, hconsumer, hchain, -⟩, subject, -, -, ⟨-, habsolute⟩, -⟩
    exact ⟨hid, hconsumer, hchain, habsolute⟩
  · rintro ⟨hid, hconsumer, hchain, habsolute⟩
    refine ⟨(), ⟨hid, hconsumer, hchain, h.owner, h.origin, h.command, h.status⟩, _, h.subject, (),
      ⟨rfl, habsolute⟩, ?_⟩
    intro v hv
    obtain ⟨w, rfl⟩ := h.producer v hv
    exact hdigest w

/-! ## Committed executions are recognised -/

variable {files : Files} {receipt : Value}

/-- Where the runs of committed executions lie. -/
def LOCAL : String := RUNS ++ "/native-sha256-"

variable (host) in
/-- The digits of a run. -/
def Host.digits (invocation : Value) : String :=
  dropChars 7 (host.digest (invocation.field "idempotency_key"))

theorem sha256_digits {d : String} (h : sha256Revision d = true) :
    d.toList = "sha256:".toList ++ (dropChars 7 d).toList := by
  simp only [sha256Revision, Bool.and_eq_true] at h
  obtain ⟨rest, rfl⟩ := startsWith_iff.mp h.1.2
  simp only [dropChars, String.toList_append, String.toList_ofList]
  have hlength : 7 = "sha256:".toList.length := by decide
  rw [hlength, List.drop_left]

theorem runPath_local {invocation : Value}
    (h : sha256Revision (host.digest (invocation.field "idempotency_key")) = true) :
    host.runPath invocation = LOCAL ++ host.digits invocation ++ ("/" ++ "run.json") := by
  have hkept : (host.digits invocation).toList.map (fun c => if c = ':' then '-' else c) =
      (host.digits invocation).toList := by
    refine List.map_congr_left (g := id) (fun c hc => ?_) |>.trans (List.map_id _)
    refine if_neg ?_
    rintro rfl
    have hhex := List.all_eq_true.mp (Repository.dropChars_sha256 h).2 _ hc
    revert hhex
    decide
  have hmap : (host.digest (invocation.field "idempotency_key")).toList.map
      (fun c => if c = ':' then '-' else c) =
        "sha256-".toList ++ (host.digits invocation).toList := by
    rw [sha256_digits h, List.map_append]
    exact congrArg _ hkept
  rw [← String.toList_inj, Host.runPath, hmap, LOCAL]
  simp only [String.toList_append, String.toList_ofList, List.append_assoc]
  rfl

theorem run_read {invocation : Value} {leaf : String}
    (h : sha256Revision (host.digest (invocation.field "idempotency_key")) = true)
    (hleaf : Repository.Verification.repositoryRelative leaf = true) :
    Repository.Verification.repositoryRelative
      (LOCAL ++ host.digits invocation ++ ("/" ++ leaf)) = true := by
  refine Repository.join_read (Repository.append_read (by decide) (by decide) (by decide)
    (Repository.digits_name h) ?_) hleaf
  have hlength := (Repository.dropChars_sha256 h).1
  rw [Host.digits, hlength]
  decide

variable (host) in
/-- The run of a committed execution, as it is retained. -/
def Host.carrier (e : Repository.Effect host.store) (outcome : Value) : Value :=
  .object [("custody", Repository.custodyValue (e.settled outcome)), ("invocation", e.invocation),
    ("kind", .string "agentic-workspace/proof-execution-run/v1")]

/-- The run, its attempt and its result are there, and no completion. -/
structure Host.Ran (host : Host) (files : Files) (e : Repository.Effect host.store)
    (outcome : Value) : Prop where
  target : host.target = e.requested
  hash : HashText host.store
  digest : sha256Revision (host.digest (e.invocation.field "idempotency_key")) = true
  owner : e.invocation.field "source_owner" = .string "verification"
  operation : e.invocation.field "operation_id" = .string "proof.report"
  allows : e.Allows outcome
  attempted : e.Attempted files
  committed : e.Committed outcome files
  run : files[host.runPath e.invocation]? = some (toVec (host.carrier e outcome))
  size : (toVec (host.carrier e outcome)).size ≤ Repository.Verification.MAX_SOURCE_BYTES
  completion : files[host.runPath e.invocation ++ ".completed.json"]? = none

theorem readVerification_some {path : String} {bytes : ByteArray}
    (hpath : Repository.Verification.repositoryRelative path = true)
    (hfile : files[path]? = some bytes)
    (hsize : bytes.size ≤ Repository.Verification.MAX_SOURCE_BYTES) :
    readVerification files path = .ok (some bytes) := by
  simp only [readVerification, Except.bind_eq_ok_iff, check_eq_ok]
  refine ⟨(), hpath, ?_⟩
  rw [hfile]
  simp only [Except.bind_eq_ok_iff, check_eq_ok, Except.pure_eq_ok_iff]
  exact ⟨(), hsize, trivial⟩

theorem readVerification_none {path : String}
    (hpath : Repository.Verification.repositoryRelative path = true) (hfile : files[path]? = none) :
    readVerification files path = .ok none := by
  simp only [readVerification, Except.bind_eq_ok_iff, check_eq_ok]
  refine ⟨(), hpath, ?_⟩
  rw [hfile]
  rfl

/-- **The committed execution of a receipt that its outcome names is found.** -/
theorem committedPublication_ran {e : Repository.Effect host.store} {outcome : Value}
    (h : host.Ran files e outcome)
    (hsource : receipt.field "source_ref" = .string (host.runPath e.invocation))
    (hsubject : receipt.field "proof_subject" = (selectionOf e.invocation).field "proof_subject")
    (hcommand : receipt.field "command" =
      ((selectionOf e.invocation).field "choice").field "command")
    (hvalue : (outcome.field "value").field "proof_subject" = receipt.field "proof_subject")
    (hnamed : namesReceipt (e.completed outcome).toValue receipt = .ok true) :
    host.committedPublication files receipt = .ok (some (e.completed outcome).toValue) := by
  have hfields : (e.completed outcome).toValue.field "invocation" = e.invocation ∧
      (e.completed outcome).toValue.field "outcome" = outcome := ⟨rfl, rfl⟩
  have hrun := readVerification_some (by
    rw [runPath_local h.digest]
    exact run_read h.digest (by decide)) h.run h.size
  have hcompletion : readVerification files (host.runPath e.invocation ++ ".completed.json") =
      .ok none := by
    have hname : ("/" ++ "run.json" ++ ".completed.json" : String) =
        "/" ++ "run.json.completed.json" := by decide
    refine readVerification_none ?_ h.completion
    rw [runPath_local h.digest, String.append_assoc, hname]
    exact run_read h.digest (by decide)
  have hretained : retained files (host.runPath e.invocation) e.invocation =
      .ok (some (host.carrier e outcome)) := by
    unfold retained
    refine Except.bind_eq_ok_iff.mpr ⟨_, hrun, ?_⟩
    refine Except.bind_eq_ok_iff.mpr ⟨_, okOr_eq_ok.mpr (fromSlice_toVec _), ?_⟩
    refine Except.bind_eq_ok_iff.mpr ⟨(), check_eq_ok.mpr ⟨rfl, rfl, rfl⟩, ?_⟩
    exact Except.bind_eq_ok_iff.mpr ⟨_, hcompletion, rfl⟩
  have hinspect : observe files (host.store.inspectCommitted ⟨host.target, e.settled outcome⟩) =
      .ok (e.completed outcome).toValue := by
    rw [h.target, observe, (Repository.reads_inspectCommitted h.hash h.attempted h.allows
      h.committed).alone]
  have hpath : (!(startsWith (RUNS ++ "/native-sha256-") (host.runPath e.invocation) &&
      endsWith "/run.json" (host.runPath e.invocation))) = false := by
    have hfront : startsWith LOCAL (host.runPath e.invocation) = true := by
      rw [runPath_local h.digest, String.append_assoc, startsWith, List.isPrefixOf_iff_prefix,
        String.toList_append]
      exact List.prefix_append _ _
    have hback : endsWith "/run.json" (host.runPath e.invocation) = true := by
      rw [Host.runPath, endsWith, List.isSuffixOf_iff_suffix, String.toList_append]
      exact List.suffix_append _ _
    rw [LOCAL] at hfront
    rw [hfront, hback]
    rfl
  unfold Host.committedPublication
  rw [hsource]
  simp only [Value.asStr]
  rw [hpath, if_neg Bool.false_ne_true]
  refine Except.bind_eq_ok_iff.mpr ⟨_, hrun, ?_⟩
  refine Except.bind_eq_ok_iff.mpr ⟨_, okOr_eq_ok.mpr (fromSlice_toVec _), ?_⟩
  have hinvocation : (host.carrier e outcome).field "invocation" = e.invocation := rfl
  rw [hinvocation, if_neg]
  · refine Except.bind_eq_ok_iff.mpr ⟨_, hretained, ?_⟩
    refine Except.bind_eq_ok_iff.mpr ⟨_, Repository.readCustody_value (e.settled outcome), ?_⟩
    refine Except.bind_eq_ok_iff.mpr ⟨_, hinspect, ?_⟩
    rw [hfields.1, hfields.2, if_neg]
    · exact Except.bind_eq_ok_iff.mpr ⟨true, hnamed, rfl⟩
    · rintro (hother | hother)
      · exact hother rfl
      · exact hother hvalue
  · rintro (hother | hother | hother | hother | hother)
    · exact hother h.owner
    · exact hother h.operation
    · exact hother rfl
    · exact hother hsubject
    · exact hother hcommand

theorem startsWith_trans {pre mid path : String} (hmid : startsWith pre mid = true)
    (hpath : startsWith mid path = true) : startsWith pre path = true := by
  rw [startsWith, List.isPrefixOf_iff_prefix] at hmid hpath ⊢
  exact hmid.trans hpath

theorem runPath_runs (invocation : Value) : startsWith RUNS (host.runPath invocation) = true := by
  unfold Host.runPath
  exact Repository.startsWith_append (Repository.startsWith_append
    (Repository.startsWith_append (by decide)))

/-- Files outside the workspace's local directory are no part of an execution. -/
theorem Host.Ran.insert {e : Repository.Effect host.store} {outcome : Value}
    {path : String} {bytes : ByteArray}
    (h : host.Ran files e outcome)
    (hpath : startsWith ".agentic-workspace/local/" path = false) :
    host.Ran (files.insert path bytes) e outcome := by
  have hlocal : ∀ {pre other : String}, startsWith pre other = true →
      startsWith ".agentic-workspace/local/" pre = true → other ≠ path := by
    intro pre other hother hpre
    exact Repository.ne_of_startsWith (startsWith_trans hpre hother) hpath
  have hrun : startsWith RUNS (host.runPath e.invocation) = true := runPath_runs e.invocation
  have hevidence := Repository.evidence_prefix (e := e)
  refine { h with attempted := ?_, committed := ?_, run := ?_, completion := ?_ }
  · rw [Repository.Effect.Attempted, Repository.getElem?_insert_of_ne
      (hlocal hevidence.1 (by decide))]
    exact h.attempted
  · rw [Repository.Effect.Committed, Repository.getElem?_insert_of_ne
      (hlocal hevidence.2 (by decide))]
    exact h.committed
  · rw [Repository.getElem?_insert_of_ne (hlocal hrun (by decide))]
    exact h.run
  · rw [Repository.getElem?_insert_of_ne
      (hlocal (Repository.startsWith_append hrun) (by decide))]
    exact h.completion

end AgenticCore.RepositoryProof
