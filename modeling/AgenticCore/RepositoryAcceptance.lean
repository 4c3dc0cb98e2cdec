import AgenticCore.RepositoryProof

/-!
# What the repository accepts as an observation of a proof (`repository_proof.rs`)

* `Host.Admits`        : a consumer, taken over through any chain of receipts.
* `project_keeps`      : what a projection takes from its receipt and its execution.
* `project_validate`   : **what is projected is accepted, if its receipt id has sixteen digits.**
* `published_validate` : **so is what is published, if its index checksum is no path.**
* `published_original` : **what is published leads back to its receipt.**
* `validate_agree`     : **a revision determines everything but the publication custody.**
-/

set_option autoImplicit false

namespace AgenticCore.RepositoryProof

open Json Text
open Repository (Files admitted)
open NativeClaimReview (itemsOf asStrOr PANIC)

variable {host : Host}

/-! ## What a projection holds -/

/-- The owner, with the chain of receipts that leads from the one it holds. -/
def inherited (owner : Value) (chain : List String) : Value :=
  if chain = [] then owner else owner.insert "dependencies" (.strings chain)

variable (host) in
/-- A consumer that projections are made for: a plan that held a receipt, with a chain. -/
def Host.Admits (consumer : Value) : Prop :=
  ∃ files path reference owner, host.consumer files path reference = .ok owner ∧
    ∃ chain : List String, chain.length ≤ 32 ∧ (∀ id ∈ chain, receiptId (.string id) = true) ∧
      consumer = inherited owner chain

theorem consumer_ok {files : Files} {path reference : String} {owner : Value}
    (h : host.consumer files path reference = .ok owner) :
    ∃ bytes body, read files path = .ok (some bytes) ∧ fromSlice bytes = some body ∧
      owner = .object [("id", body.field "id"), ("owner", .string "planning"),
        ("path", .string path), ("reference", .string reference),
        ("revision", .string (host.digest body))] := by
  simp only [Host.consumer, Except.bind_eq_ok_iff, check_eq_ok, okOr_eq_ok,
    Except.pure_eq_ok_iff] at h
  obtain ⟨-, -, -, -, found, hfound, bytes, rfl, body, hbody, -, -, -, -, rfl⟩ := h
  exact ⟨bytes, body, hfound, hbody, rfl⟩

theorem inherited_isObject {owner : Value} (h : owner.isObject = true) (chain : List String) :
    (inherited owner chain).isObject = true := by
  rw [inherited]
  split
  · exact h
  · exact Value.Writable.insert_isObject (Or.inl h) _ _

theorem chainAdmitted_inherited {owner : Value} (hobject : owner.isObject = true)
    (hnone : owner.get? "dependencies" = none) {chain : List String} (hlength : chain.length ≤ 32)
    (hids : ∀ id ∈ chain, receiptId (.string id) = true) :
    chainAdmitted (inherited owner chain) = true := by
  by_cases hchain : chain = []
  · rw [chainAdmitted, inherited, if_pos hchain, Value.field, hnone]
    rfl
  · rw [chainAdmitted, inherited, if_neg hchain, Value.Writable.field_insert_self (Or.inl hobject)]
    show (decide ((chain.map Value.string).length ≤ 32) &&
      (chain.map Value.string).all receiptId) = true
    rw [List.length_map, List.all_map, Bool.and_eq_true, decide_eq_true_eq, List.all_eq_true]
    exact ⟨hlength, hids⟩

theorem Host.Admits.accepted {consumer : Value} (h : host.Admits consumer) :
    consumer.isObject = true ∧ chainAdmitted consumer = true := by
  obtain ⟨files, path, reference, owner, howner, chain, hlength, hids, rfl⟩ := h
  obtain ⟨bytes, body, -, -, rfl⟩ := consumer_ok howner
  exact ⟨inherited_isObject rfl chain, chainAdmitted_inherited rfl rfl hlength hids⟩

variable {files : Files} {receipt committed consumer detail subject projected : Value}

theorem kept_isObject : (kept receipt).isObject = true :=
  isObject_foldl_insert rfl

theorem kept_field {key : String} (h : key ∈ KEPT) :
    (kept receipt).field key = receipt.field key := by
  rw [kept, Value.Writable.field_foldl_insert (Or.inl rfl), if_pos h]

theorem draft_isObject :
    (host.draft receipt committed consumer detail subject).isObject = true := by
  have hkept : (kept receipt).isObject = true := kept_isObject
  exact Value.Writable.insert_isObject (Or.inl (Value.Writable.insert_isObject
    (Or.inl (Value.Writable.insert_isObject (Or.inl hkept) _ _)) _ _)) _ _

theorem draft_held : (host.draft receipt committed consumer detail subject).field
    "repository_proof" = host.observation receipt committed consumer detail := by
  have hkept : (kept receipt).isObject = true := kept_isObject
  exact Value.Writable.field_insert_self (Or.inl (Value.Writable.insert_isObject
    (Or.inl (Value.Writable.insert_isObject (Or.inl hkept) _ _)) _ _)) _ _

theorem draft_subject : (host.draft receipt committed consumer detail subject).field
    "proof_subject" = subject := by
  rw [Host.draft, Value.field_insert_of_ne (by decide), Value.field_insert_of_ne (by decide)]
  exact Value.Writable.field_insert_self (Or.inl kept_isObject) _ _

theorem draft_field {key : String} (h : key ∈ KEPT) :
    (host.draft receipt committed consumer detail subject).field key = receipt.field key := by
  have hne : key ≠ "repository_proof" ∧ key ≠ "execution_artifact" ∧ key ≠ "proof_subject" := by
    revert key
    decide
  rw [Host.draft, Value.field_insert_of_ne hne.1, Value.field_insert_of_ne hne.2.1,
    Value.field_insert_of_ne hne.2.2, kept_field h]

/-- What a success of `committedPublication` has checked. -/
theorem committedPublication_ok {files : Files} {receipt committed : Value}
    (h : host.committedPublication files receipt = .ok (some committed)) :
    receipt.field "proof_subject" =
        (selectionOf (committed.field "invocation")).field "proof_subject" ∧
      receipt.field "command" =
        ((selectionOf (committed.field "invocation")).field "choice").field "command" := by
  unfold Host.committedPublication at h
  split at h
  · cases h
  split at h
  · cases h
  obtain ⟨found, -, h⟩ := Except.bind_eq_ok_iff.mp h
  cases found with
  | none => cases h
  | some bytes =>
    obtain ⟨initial, -, h⟩ := Except.bind_eq_ok_iff.mp h
    dsimp only at h
    split at h
    · cases h
    rename_i hbound
    obtain ⟨held, -, h⟩ := Except.bind_eq_ok_iff.mp h
    cases held with
    | none => cases h
    | some held =>
      obtain ⟨custody, -, h⟩ := Except.bind_eq_ok_iff.mp h
      obtain ⟨found, -, h⟩ := Except.bind_eq_ok_iff.mp h
      split at h
      · cases h
      rename_i hsame
      obtain ⟨named, -, h⟩ := Except.bind_eq_ok_iff.mp h
      cases named with
      | false => cases h
      | true =>
        cases h
        simp only [not_or, ne_eq, not_not] at hbound hsame
        rw [hsame.1]
        exact ⟨hbound.2.2.2.1, hbound.2.2.2.2⟩

/-- What a projection consists of. -/
theorem project_ok (h : host.project files receipt consumer = .ok projected) :
    ∃ committed detail subject, host.committedPublication files receipt = .ok (some committed) ∧
      host.subject (receipt.field "proof_subject") = .ok subject ∧
      detail.field "status" = receipt.field "result" ∧
      absolute (host.draft receipt committed consumer detail subject) = false ∧
      projected = host.sealed (host.draft receipt committed consumer detail subject) := by
  simp only [Host.project, Except.bind_eq_ok_iff, check_eq_ok, okOr_eq_ok,
    Except.pure_eq_ok_iff] at h
  obtain ⟨found, hfound, committed, rfl, -, -, -, -, -, -, -, -, detail, -, subject, hsubject, -,
    ⟨hstatus, habsolute⟩, rfl⟩ := h
  exact ⟨committed, detail, subject, hfound, hsubject, hstatus, habsolute, rfl⟩

theorem drafted (hcommitted : host.committedPublication files receipt = .ok (some committed))
    (hsubject : host.subject (receipt.field "proof_subject") = .ok subject)
    (hstatus : detail.field "status" = receipt.field "result") :
    host.Drafted (host.draft receipt committed consumer detail subject) := by
  have hcommand := (committedPublication_ok hcommitted).2
  refine ⟨draft_isObject, ?_, ?_, ?_, ?_, ?_, ?_, ?_, ?_⟩
  · rw [draft_held]
    rfl
  · rw [isRepository, draft_held]
    rfl
  · rw [draft_held]
    rfl
  · rw [draft_held, draft_field (by decide)]
    rfl
  · rw [draft_held, draft_field (by decide)]
    exact hcommand.symm
  · rw [draft_held, draft_field (by decide)]
    exact hstatus
  · rw [draft_subject]
    exact subject_settled host hsubject
  · rw [draft_held]
    intro v hv
    simp only [List.mem_cons, List.not_mem_nil, or_false] at hv
    rcases hv with rfl | rfl | rfl | rfl
    · exact ⟨_, rfl⟩
    · exact ⟨_, rfl⟩
    · exact ⟨_, rfl⟩
    · exact ⟨_, rfl⟩

theorem absolute_payload {p : Value} (h : absolute p = false) : absolute (payload p) = false := by
  have hheld : absolute (p.field "repository_proof") = false := by
    rw [Value.field]
    cases hget : p.get? "repository_proof" with
    | none => rfl
    | some v => exact absolute_get? h hget
  exact absolute_remove (absolute_insert h (absolute_remove hheld _) _) _

/-- The selection that an observation holds of an execution. -/
def heldSelection (committed : Value) : Value :=
  .object [("choice", (selectionOf (committed.field "invocation")).field "choice"),
    ("strategy", (selectionOf (committed.field "invocation")).field "strategy"),
    ("work", (selectionOf (committed.field "invocation")).field "work")]

theorem project_keeps (h : host.project files receipt consumer = .ok projected) :
    (∀ key ∈ KEPT, projected.field key = receipt.field key) ∧
      (projected.field "repository_proof").field "consumer" = consumer ∧
      ∃ committed, host.committedPublication files receipt = .ok (some committed) ∧
        (projected.field "repository_proof").field "selection" = heldSelection committed := by
  obtain ⟨committed, detail, subject, hcommitted, hsubject, hstatus, habsolute, rfl⟩ := project_ok h
  refine ⟨?_, ?_, committed, hcommitted, ?_⟩
  · intro key hkey
    rw [sealed_field (by rintro rfl; revert hkey; decide), draft_field hkey]
  · rw [sealed_held draft_isObject (by decide), draft_held]
    rfl
  · rw [sealed_held draft_isObject (by decide), draft_held]
    rfl

/-! ## What is free of machine paths -/

theorem rooted_separated : ∀ {cs : List Char}, (∀ c ∈ cs, c ∉ SEPARATORS) → rooted false cs = false
  | [], _ => rfl
  | c :: cs, h => by
    rw [rooted, decide_eq_false (h c List.mem_cons_self), Bool.false_and, Bool.false_or]
    exact rooted_separated fun d hd => h d (List.mem_cons_of_mem c hd)

theorem rooted_plain : ∀ {cs : List Char} {fresh : Bool}, (∀ c ∈ cs, c ≠ '/') →
    rooted fresh cs = false
  | [], _, _ => by rw [rooted]
  | c :: cs, fresh, h => by
    have hc : (c == '/') = false := by simpa using h c List.mem_cons_self
    rw [rooted, hc, Bool.and_false, Bool.false_or]
    exact rooted_plain fun d hd => h d (List.mem_cons_of_mem c hd)

theorem drive_plain : ∀ {cs : List Char} {preceded : Bool},
    ((∀ c ∈ cs, c ≠ ':') ∨ ∀ c ∈ cs, c ≠ '/' ∧ c ≠ '\\') → drive preceded cs = false
  | [], _, _ => by rw [drive]; simp
  | [_], _, _ => by rw [drive]; simp
  | [_, _], _, _ => by rw [drive]; simp
  | a :: b :: c :: rest, preceded, h => by
    have hrest : drive (asciiAlphabetic a || ('0' ≤ a && a ≤ '9')) (b :: c :: rest) = false := by
      refine drive_plain (h.imp ?_ ?_)
      · exact fun h d hd => h d (List.mem_cons_of_mem a hd)
      · exact fun h d hd => h d (List.mem_cons_of_mem a hd)
    have hmark : (b == ':' && (c == '/' || c == '\\')) = false := by
      rcases h with h | h
      · have hb := h b (by simp)
        simp [hb]
      · have hc := h c (by simp)
        simp [hc.1, hc.2]
    rw [drive, hrest, Bool.or_false, Bool.and_assoc, hmark, Bool.and_false]

/-- A character that starts no machine path. -/
def slashless (c : Char) : Bool := c != '/' && c != '\\'

/-- A character of a path from the root of the repository. -/
def pathChar (c : Char) : Bool := decide (c ∉ SEPARATORS) && c != ':' && c != '\\'

/-- A text without slashes is no machine path. -/
theorem absoluteText_plain {s : String} (h : s.toList.all slashless = true) :
    absoluteText s = false := by
  have hchars : ∀ c ∈ s.toList, c ≠ '/' ∧ c ≠ '\\' := by
    intro c hc
    simpa [slashless] using List.all_eq_true.mp h c hc
  have hfront : startsWith "\\\\" s = false := by
    rw [Bool.eq_false_iff]
    intro hstart
    obtain ⟨rest, rfl⟩ := startsWith_iff.mp hstart
    exact (hchars '\\' (by simp)).2 rfl
  rw [absoluteText, rooted_plain fun c hc => (hchars c hc).1, hfront, drive_plain (Or.inr hchars)]
  rfl

/-- A path from the root of the repository is none. -/
theorem absoluteText_relative {s : String} (hfirst : s.toList.head? ≠ some '/')
    (h : s.toList.all pathChar = true) : absoluteText s = false := by
  have hchars : ∀ c ∈ s.toList, c ∉ SEPARATORS ∧ c ≠ ':' ∧ c ≠ '\\' := by
    intro c hc
    simpa [pathChar, and_assoc] using List.all_eq_true.mp h c hc
  have hfront : startsWith "\\\\" s = false := by
    rw [Bool.eq_false_iff]
    intro hstart
    obtain ⟨rest, rfl⟩ := startsWith_iff.mp hstart
    exact (hchars '\\' (by simp)).2.2 rfl
  have hrooted : rooted true s.toList = false := by
    cases hs : s.toList with
    | nil => rfl
    | cons c cs =>
      rw [hs] at hchars hfirst
      have hc : (c == '/') = false := by simpa using hfirst
      rw [rooted, hc, Bool.and_false, Bool.false_or,
        decide_eq_false (hchars c List.mem_cons_self).1]
      exact rooted_separated fun d hd => (hchars d (List.mem_cons_of_mem c hd)).1
  rw [absoluteText, hrooted, hfront, drive_plain (Or.inl fun c hc => (hchars c hc).2.1)]
  rfl

theorem lowerHexDigit_portable {c : Char} (h : lowerHexDigit c = true) :
    slashless c = true ∧ pathChar c = true := by
  have hne : ∀ d, lowerHexDigit d = false → c ≠ d := by
    rintro d hd rfl
    rw [hd] at h
    cases h
  have hslash := hne '/' (by decide)
  have hback := hne '\\' (by decide)
  have hcolon := hne ':' (by decide)
  have hseparators : c ∉ SEPARATORS := by
    simp only [SEPARATORS, List.mem_cons, List.not_mem_nil, or_false, not_or]
    exact ⟨hne ' ' (by decide), hne '\t' (by decide), hne '\n' (by decide), hne '"' (by decide),
      hne '\'' (by decide), hne '=' (by decide)⟩
  simp [slashless, pathChar, hslash, hback, hcolon, hseparators]

theorem absoluteText_digest {d : String} (h : sha256Revision d = true) :
    absoluteText d = false := by
  have hname : "sha256:".toList.all slashless = true := by decide
  refine absoluteText_plain ?_
  rw [sha256_digits h, List.all_append, hname, Bool.true_and, List.all_eq_true]
  intro c hc
  exact (lowerHexDigit_portable (List.all_eq_true.mp (Repository.dropChars_sha256 h).2 c hc)).1

/-- The path of a run is no machine path. -/
theorem runPath_portable {invocation : Value}
    (h : sha256Revision (host.digest (invocation.field "idempotency_key")) = true) :
    absoluteText (host.runPath invocation) = false := by
  have hruns : RUNS.toList.all pathChar = true := by decide
  have hname : "/native-sha256-".toList.all pathChar = true := by decide
  have hleaf : ("/" ++ "run.json").toList.all pathChar = true := by decide
  have hdigits : (host.digits invocation).toList.all pathChar = true := by
    rw [List.all_eq_true]
    intro c hc
    exact (lowerHexDigit_portable (List.all_eq_true.mp (Repository.dropChars_sha256 h).2 c hc)).2
  rw [runPath_local h]
  refine absoluteText_relative ?_ ?_
  · rw [LOCAL, String.toList_append, String.toList_append, String.toList_append]
    exact (by decide : (some '.' : Option Char) ≠ some '/')
  · rw [LOCAL, String.toList_append, String.toList_append, String.toList_append, List.all_append,
      List.all_append, List.all_append, hruns, hname, hdigits, hleaf]
    rfl

theorem absolute_field {v : Value} (h : absolute v = false) (key : String) :
    absolute (v.field key) = false := by
  rw [Value.field]
  cases hget : v.get? key with
  | none => rfl
  | some w => exact absolute_get? h hget

theorem absolute_foldl {f : String → Value} : ∀ {names : List String} {obj : Value},
    absolute obj = false → (∀ name ∈ names, absolute (f name) = false) →
      absolute (names.foldl (fun obj name => obj.insert name (f name)) obj) = false
  | [], _, hobj, _ => hobj
  | name :: names, obj, hobj, h => by
    rw [List.foldl_cons]
    exact absolute_foldl (absolute_insert hobj (h name List.mem_cons_self) name)
      fun other hother => h other (List.mem_cons_of_mem name hother)

/-- A projection has no machine path where what it is made of has none. -/
theorem absolute_draft {receipt committed consumer detail subject : Value}
    (hdigest : ∀ v, sha256Revision (host.digest v) = true) (hreceipt : absolute receipt = false)
    (hselection : absolute (selectionOf (committed.field "invocation")) = false)
    (hconsumer : absolute consumer = false) (hdetail : absolute detail = false)
    (hsubject : absolute subject = false) :
    absolute (host.draft receipt committed consumer detail subject) = false := by
  have hrevision : ∀ v, absolute (.string (host.digest v)) = false := fun v => by
    rw [absolute]
    exact absoluteText_digest (hdigest v)
  have hartifact := absolute_field hreceipt "execution_artifact"
  have hscope : absolute (.string "repository-summary") = false := by decide
  have hauthority : absolute (.string
      "repository-owned observation; no independent review or local effect recovery") = false := by
    decide
  have hkind : absolute (.string KIND) = false := by decide
  have howner : absolute (.string "verification") = false := by decide
  refine absolute_insert (absolute_insert (absolute_insert (absolute_foldl rfl fun name _ =>
    absolute_field hreceipt name) hsubject _) ?_ _) ?_ _
  · simp only [absolute, absoluteMembers, Bool.or_eq_false_iff]
    exact ⟨hscope, absolute_field hartifact _, trivial⟩
  · simp only [Host.observation, absolute, absoluteMembers, Bool.or_eq_false_iff]
    refine ⟨hauthority, hconsumer, hkind, ⟨absolute_field hreceipt _, hrevision _, hrevision _,
      absolute_field (absolute_field hreceipt _) _, trivial⟩, howner, ⟨absolute_field hdetail _,
      absolute_field hdetail _, absolute_field hdetail _, trivial⟩,
      ⟨hrevision _, hrevision _, trivial⟩, ⟨absolute_field hselection _,
      absolute_field hselection _, absolute_field hselection _, trivial⟩,
      trivial⟩

theorem localReference_run {invocation : Value}
    (h : sha256Revision (host.digest (invocation.field "idempotency_key")) = true)
    (hsource : receipt.field "source_ref" = .string (host.runPath invocation)) :
    localReference receipt = .ok ("proof://local/" ++ host.digits invocation) := by
  have hdigits := Repository.dropChars_sha256 h
  have hid : (((stripPrefix (RUNS ++ "/native-sha256-") (host.runPath invocation)).bind
      (stripSuffix "/run.json")).filter fun s => s.length == 64 && s.toList.all asciiHexDigit) =
      some (host.digits invocation) := by
    have hsplit : host.runPath invocation =
        (RUNS ++ "/native-sha256-") ++ (host.digits invocation ++ "/run.json") := by
      rw [runPath_local h, LOCAL, String.append_assoc]
      rfl
    rw [stripPrefix_eq_some.mpr hsplit, Option.bind_some, stripSuffix_eq_some.mpr rfl,
      Option.filter_eq_some_iff]
    refine ⟨rfl, ?_⟩
    rw [Bool.and_eq_true, beq_iff_eq, ← String.length_toList, List.all_eq_true]
    refine ⟨hdigits.1, fun c hc => ?_⟩
    have hhex := List.all_eq_true.mp hdigits.2 c hc
    simp only [lowerHexDigit, asciiHexDigit, Bool.or_eq_true] at hhex ⊢
    exact Or.inl hhex
  simp only [localReference, hsource, Except.bind_eq_ok_iff, okOr_eq_ok, Except.pure_eq_ok_iff]
  exact ⟨_, rfl, _, hid, rfl⟩

theorem namesReceipt_local {committed invocation : Value}
    (h : sha256Revision (host.digest (invocation.field "idempotency_key")) = true)
    (hsource : receipt.field "source_ref" = .string (host.runPath invocation))
    (hnamed : (((committed.field "outcome").field "value").field "publication").field "reference" =
      .string ("proof://local/" ++ host.digits invocation)) :
    namesReceipt committed receipt = .ok true := by
  unfold namesReceipt
  dsimp only
  split
  · rfl
  · rw [localReference_run h hsource, hnamed]
    simp [bind, Except.bind, pure, Except.pure]

/-! ## A sample: a receipt of one committed execution, held by a plan -/

def sampleRevision : String :=
  "sha256:8242aff64cf97f463495ab886666f6109bda59be3268da84e24e36056fd04a6c"

/-- The digest of the sample's effect key. -/
def sampleKeyRevision : String :=
  "sha256:b9a0413d980e9ed472e62b47c6e14ba0cad8fbfbabcedeb8ab2faf58d310f121"

def sampleStore : AttemptStore.Host where
  root := "/work"
  canonical := some
  digest _ := sampleRevision
  hash _ := sampleRevision

def sampleHost : Host where
  target := "/work"
  store := sampleStore
  digest
    | .string _ => sampleKeyRevision
    | _ => sampleRevision
  hash _ := sampleRevision
  fingerprint _ := .ok "b9a0413d980e9ed472e62b47c6e14ba0cad8fbfbabcedeb8ab2faf58d310f121"
  lossy bytes := (String.fromUTF8? bytes).getD ""
  inspected _ _ _ := .ok true

def samplePlan : Value :=
  .object [("id", .string "plan-1"),
    ("references", .strings ["proof://receipts/0123456789abcdef"])]

def samplePlanPath : String := PLANS ++ "a.plan.json"

def sampleConsumer : Value :=
  .object [("id", .string "plan-1"), ("owner", .string "planning"),
    ("path", .string samplePlanPath),
    ("reference", .string "proof://receipts/0123456789abcdef"),
    ("revision", .string sampleRevision)]

def sampleSubject : Value :=
  .object [
    ("fingerprint", .string "b9a0413d980e9ed472e62b47c6e14ba0cad8fbfbabcedeb8ab2faf58d310f121"),
    ("id", .string "proof-subject:b9a0413d980e9ed472e6"),
    ("runtime", .object [("executor", .object []), ("producer", .object []),
      ("shell", .object [])])]

def sampleSelection : Value :=
  .object [("choice", .object [("command", .string "cargo test")]),
    ("promotion", .object [("consumer", sampleConsumer)]), ("proof_subject", sampleSubject),
    ("strategy", .string "local"), ("work", .string "work-1")]

def sampleInvocation : Value :=
  .object [("arguments", .object [("selection", sampleSelection), ("target", .string "/work")]),
    ("effects", .array []), ("idempotency_key", .string "send-1"),
    ("operation_id", .string "proof.report"), ("source_owner", .string "verification")]

def sampleEffect : Repository.Effect sampleHost.store where
  invocation := sampleInvocation
  key := "send-1"
  owner := "verification"
  requested := "/work"
  key_eq := rfl
  owner_eq := rfl
  requested_eq := rfl
  bound := rfl

def sampleOutcome : Value :=
  .object [("effects", .array []), ("status", .string "applied"),
    ("value", .object [("proof_subject", sampleSubject), ("publication", .object [("reference",
      .string ("proof://local/" ++ sampleHost.digits sampleInvocation))])])]

/-- What the sample's publication retained. -/
def sampleCustody : Value :=
  .object [("custody", .object [("attempt", .object []), ("committed", .object [])]),
    ("outcome", .object [("value", .object [("publication", .object [("index_sha256",
      .string "5891b5b522d5df086d0ff0b110fbd9d21bb4fc7163af34d08286a2e846f6be03")])])])]

def sampleReceipt (id : String) (paths : List String) : Value :=
  .object [("changed_paths", .strings paths), ("command", .string "cargo test"),
    ("execution_artifact", .object [("path", .string "detail.json"),
      ("sha256", .string "8242aff64cf97f463495ab886666f6109bda59be3268da84e24e36056fd04a6c")]),
    ("proof_subject", sampleSubject), ("publication_custody", sampleCustody),
    ("receipt_id", .string id), ("result", .string "passed"),
    ("source_ref", .string (sampleHost.runPath sampleInvocation))]

def sampleDetail : Value :=
  .object [("exit_code", .ofNat 0), ("status", .string "passed"), ("timed_out", .bool false)]

def sampleRunPath : String := sampleHost.runPath sampleInvocation

/-- The files of the execution: its run, its attempt, its result and its detail. -/
def sampleRan : Files :=
  ((((∅ : Files).insert sampleEffect.attemptPath (toVec sampleEffect.attempted.toValue)).insert
    sampleEffect.resultPath (toVec (sampleEffect.completed sampleOutcome).toValue)).insert
    "detail.json" (toVec sampleDetail)).insert sampleRunPath
      (toVec (sampleHost.carrier sampleEffect sampleOutcome))

theorem sampleRevision_sha256 : sha256Revision sampleRevision = true := by decide

theorem sampleHost_digest (v : Value) : sha256Revision (sampleHost.digest v) = true := by
  have hkey : sha256Revision sampleKeyRevision = true := by decide
  cases v with
  | string s => exact hkey
  | null | bool | number | array | object => exact sampleRevision_sha256

theorem sampleHost_shaped (v : Value) : digestShaped (.string (sampleHost.digest v)) = true := by
  have hkey : digestShaped (.string sampleKeyRevision) = true := by decide
  have hother : digestShaped (.string sampleRevision) = true := by decide
  cases v with
  | string s => exact hkey
  | null | bool | number | array | object => exact hother

/-- Paths under different directories are different. -/
theorem apart_of_prefixes {a b s t : String} (hs : startsWith a s = true)
    (ht : startsWith b t = true) (hle : a.toList.length ≤ b.toList.length)
    (hapart : startsWith a b = false) : s ≠ t := by
  rintro rfl
  rw [startsWith, List.isPrefixOf_iff_prefix] at hs ht
  have hprefix := List.prefix_of_prefix_length_le hs ht hle
  rw [startsWith, List.isPrefixOf_iff_prefix.mpr hprefix] at hapart
  cases hapart

theorem sampleRunPath_runs : startsWith RUNS sampleRunPath = true :=
  runPath_runs sampleInvocation

theorem sample_evidence_apart {path : String} (h : startsWith RUNS path = true) :
    path ≠ sampleEffect.attemptPath ∧ path ≠ sampleEffect.resultPath := by
  have hevidence := Repository.evidence_prefix (e := sampleEffect)
  exact ⟨(apart_of_prefixes hevidence.1 h (by decide) (by decide)).symm,
    (apart_of_prefixes hevidence.2 h (by decide) (by decide)).symm⟩

theorem sample_detail_apart {path : String} (h : startsWith Repository.OWNED path = true) :
    path ≠ "detail.json" :=
  Repository.ne_of_startsWith h (by decide)

/-- A value that is written is read back. -/
theorem read_toVec {files : Files} {path : String} {v : Value}
    (hpath : DecisionSource.relative path = .ok ()) (hfile : files[path]? = some (toVec v))
    (hsize : (toVec v).size ≤ Repository.MAX_SOURCE_BYTES) :
    read files path = .ok (some (toVec v)) := by
  simp only [read, Except.bind_eq_ok_iff]
  refine ⟨(), hpath, ?_⟩
  rw [hfile]
  simp only [admitted, Except.bind_eq_ok_iff, check_eq_ok, Except.pure_eq_ok_iff]
  exact ⟨(), hsize, (), fromUTF8_toVec v, trivial⟩

theorem sampleRan_ran : sampleHost.Ran sampleRan sampleEffect sampleOutcome := by
  have hrun := sample_evidence_apart sampleRunPath_runs
  have howned : ∀ {path}, startsWith RUNS path = true →
      startsWith Repository.OWNED path = true := by
    intro path h
    exact startsWith_trans (by decide) h
  have hevidence := Repository.evidence_apart (e := sampleEffect)
    (by decide : startsWith Repository.OWNED "detail.json" = false)
  have hcompleted : startsWith RUNS (sampleRunPath ++ ".completed.json") = true :=
    Repository.startsWith_append sampleRunPath_runs
  refine ⟨rfl, fun _ => sampleRevision_sha256, sampleHost_digest _, rfl, rfl, ⟨_, rfl⟩, ?_, ?_, ?_,
    ?_, ?_⟩
  · rw [Repository.Effect.Attempted, sampleRan, Repository.getElem?_insert_of_ne hrun.1.symm,
      Repository.getElem?_insert_of_ne hevidence.1.symm,
      Repository.getElem?_insert_of_ne Repository.Effect.attemptPath_ne_resultPath]
    exact Std.ExtTreeMap.getElem?_insert_self
  · rw [Repository.Effect.Committed, sampleRan, Repository.getElem?_insert_of_ne hrun.2.symm,
      Repository.getElem?_insert_of_ne hevidence.2.symm]
    exact Std.ExtTreeMap.getElem?_insert_self
  · exact Std.ExtTreeMap.getElem?_insert_self
  · refine size_le_of_bound ?_
    decide +kernel
  · have hne : sampleRunPath ++ ".completed.json" ≠ sampleRunPath := by
      intro h
      have hlength := congrArg (fun s : String => s.toList.length) h
      simp [String.toList_append] at hlength
    have happart := sample_evidence_apart hcompleted
    show sampleRan[sampleRunPath ++ ".completed.json"]? = none
    rw [sampleRan, Repository.getElem?_insert_of_ne hne,
      Repository.getElem?_insert_of_ne (sample_detail_apart (howned hcompleted)),
      Repository.getElem?_insert_of_ne happart.2, Repository.getElem?_insert_of_ne happart.1]
    rfl

theorem sampleReceipt_portable {id : String} {paths : List String} (hid : absoluteText id = false)
    (hpaths : absoluteItems (paths.map .string) = false) :
    absolute (sampleReceipt id paths) = false := by
  have hsubject : absolute sampleSubject = false := by decide +kernel
  have hartifact : absoluteText "detail.json" = false ∧
      absoluteText "8242aff64cf97f463495ab886666f6109bda59be3268da84e24e36056fd04a6c" = false := by
    decide +kernel
  have hcommand : absoluteText "cargo test" = false ∧ absoluteText "passed" = false := by decide
  have hcustody : absolute sampleCustody = false := by decide +kernel
  simp only [sampleReceipt, Value.strings, absolute, absoluteMembers, Bool.or_eq_false_iff]
  exact ⟨hpaths, hcommand.1, ⟨hartifact.1, hartifact.2, trivial⟩, hsubject, hcustody, hid,
    hcommand.2, runPath_portable (sampleHost_digest _), trivial⟩

theorem sampleRan_detail : sampleRan["detail.json"]? = some (toVec sampleDetail) := by
  have howned : startsWith Repository.OWNED sampleRunPath = true :=
    startsWith_trans (by decide) sampleRunPath_runs
  rw [sampleRan, Repository.getElem?_insert_of_ne (sample_detail_apart howned).symm]
  exact Std.ExtTreeMap.getElem?_insert_self

theorem sample_committed {files : Files}
    (hran : sampleHost.Ran files sampleEffect sampleOutcome) {id : String} {paths : List String} :
    sampleHost.committedPublication files (sampleReceipt id paths) =
      .ok (some (sampleEffect.completed sampleOutcome).toValue) :=
  committedPublication_ran hran rfl rfl rfl rfl
    (namesReceipt_local (sampleHost_digest (sampleInvocation.field "idempotency_key")) rfl rfl)

def sampleProjection (id : String) (paths : List String) (consumer : Value) : Value :=
  sampleHost.sealed (sampleHost.draft (sampleReceipt id paths)
    (sampleEffect.completed sampleOutcome).toValue consumer sampleDetail sampleSubject)

/-- The receipts of the sample's execution are projected, for any portable consumer. -/
theorem sample_project {files : Files} (hran : sampleHost.Ran files sampleEffect sampleOutcome)
    (hdetail : files["detail.json"]? = some (toVec sampleDetail)) {id : String}
    {paths : List String} (hreceipt : absolute (sampleReceipt id paths) = false)
    {consumer : Value} (hconsumer : absolute consumer = false) :
    sampleHost.project files (sampleReceipt id paths) consumer =
      .ok (sampleProjection id paths consumer) := by
  have hread : read files "detail.json" = .ok (some (toVec sampleDetail)) :=
    read_toVec (by decide) hdetail (size_le_of_bound (by decide))
  have hsubject : sampleHost.subject sampleSubject = .ok sampleSubject := by rfl
  have hselection : absolute sampleSelection = false := by decide +kernel
  have hdraft : absolute (sampleHost.draft (sampleReceipt id paths)
      (sampleEffect.completed sampleOutcome).toValue consumer sampleDetail sampleSubject) = false :=
    absolute_draft sampleHost_digest hreceipt hselection hconsumer (by decide)
      (by decide +kernel : absolute sampleSubject = false)
  simp only [Host.project, Except.bind_eq_ok_iff, check_eq_ok, okOr_eq_ok, Except.pure_eq_ok_iff]
  exact ⟨_, sample_committed hran, _, rfl, "detail.json", rfl, _, hread, _, rfl, (), rfl,
    sampleDetail, fromSlice_toVec _, sampleSubject, hsubject, (), ⟨rfl, hdraft⟩, rfl⟩

theorem sampleConsumer_held {files : Files}
    (hplan : files[samplePlanPath]? = some (toVec samplePlan)) :
    sampleHost.consumer files samplePlanPath "proof://receipts/0123456789abcdef" =
      .ok sampleConsumer := by
  have hpath : DecisionSource.relative samplePlanPath = .ok () := by decide
  have hname : startsWith PLANS samplePlanPath = true ∧
      endsWith ".plan.json" samplePlanPath = true := by
    decide
  have hread := read_toVec hpath hplan (size_le_of_bound (by decide))
  simp only [Host.consumer, Except.bind_eq_ok_iff, check_eq_ok, okOr_eq_ok, Except.pure_eq_ok_iff]
  exact ⟨(), hpath, (), hname, _, hread, _, rfl, samplePlan, fromSlice_toVec _, true, rfl, (),
    ⟨rfl, Or.inl (List.mem_singleton_self _)⟩, rfl⟩

theorem sampleConsumer_admitted : sampleHost.Admits sampleConsumer :=
  ⟨_, _, _, _, @sampleConsumer_held ((∅ : Files).insert samplePlanPath (toVec samplePlan))
    Std.ExtTreeMap.getElem?_insert_self, [], Nat.zero_le _,
    fun _ hid => absurd hid List.not_mem_nil, rfl⟩

theorem sampleConsumer_portable : absolute sampleConsumer = false := by
  have hrevision : absoluteText sampleRevision = false :=
    absoluteText_digest sampleRevision_sha256
  have hpath : absoluteText samplePlanPath = false := by decide
  have hothers : absoluteText "plan-1" = false ∧ absoluteText "planning" = false ∧
      absoluteText "proof://receipts/0123456789abcdef" = false := by decide
  simp only [sampleConsumer, absolute, absoluteMembers, Bool.or_eq_false_iff]
  exact ⟨hothers.1, hothers.2.1, hpath, hothers.2.2, hrevision, trivial⟩

def sampleOriginal : Value := sampleReceipt "0123456789abcdef" []

theorem sampleOriginal_project :
    ∃ projected, sampleHost.project sampleRan sampleOriginal sampleConsumer = .ok projected :=
  ⟨_, sample_project sampleRan_ran sampleRan_detail
    (sampleReceipt_portable (by decide) rfl) sampleConsumer_portable⟩

/-! ## Projections are accepted -/

/-- **A projection for an admitted consumer is accepted exactly if the receipt's id has sixteen
hexadecimal digits, and it keeps what the receipt says and what its execution selected.** -/
theorem project_validate (hdigest : ∀ v, digestShaped (.string (host.digest v)) = true)
    (hconsumer : host.Admits consumer) (h : host.project files receipt consumer = .ok projected) :
    (host.validate projected = .ok () ↔ receiptId (receipt.field "receipt_id") = true) ∧
      (∀ key ∈ KEPT, projected.field key = receipt.field key) ∧
      (projected.field "repository_proof").field "consumer" = consumer ∧
      ∃ committed, host.committedPublication files receipt = .ok (some committed) ∧
        (projected.field "repository_proof").field "selection" = heldSelection committed := by
  refine ⟨?_, project_keeps h⟩
  obtain ⟨committed, detail, subject, hcommitted, hsubject, hstatus, habsolute, rfl⟩ := project_ok h
  obtain ⟨hobject, hchain⟩ := hconsumer.accepted
  have hdraft : host.Drafted (host.draft receipt committed consumer detail subject) :=
    drafted hcommitted hsubject hstatus
  rw [hdraft.validate hdigest, draft_field (by decide), draft_held]
  constructor
  · rintro ⟨hid, -⟩
    exact hid
  · intro hid
    exact ⟨hid, hobject, hchain, absolute_payload habsolute⟩

theorem project_validate_sample :
    ∃ projected, sampleHost.project sampleRan sampleOriginal sampleConsumer = .ok projected ∧
      sampleHost.validate projected = .ok () := by
  obtain ⟨projected, hprojected⟩ := sampleOriginal_project
  exact ⟨projected, hprojected,
    (project_validate sampleHost_shaped sampleConsumer_admitted hprojected).1.mpr (by decide)⟩

/-! ## Publications are accepted -/

variable {original invocation published : Value}

/-- The checksum of the index that a publication takes over. -/
def indexOf (original : Value) : Value :=
  ((((original.field "publication_custody").field "outcome").field "value").field
    "publication").field "index_sha256"

/-- The consumer that a promotion names. -/
def promotedTo (invocation : Value) : Value :=
  ((selectionOf invocation).field "promotion").field "consumer"

/-- A projection with a publication custody and an index checksum. -/
def withCustody (projected custody index : Value) : Value :=
  (projected.insert "publication_custody" custody).insert "repository_proof"
    (((projected.insert "publication_custody" custody).field "repository_proof").insert
      "index_sha256" index)

theorem published_ok (h : host.published files original invocation = .ok published) :
    ∃ projected custody, host.project files original (promotedTo invocation) = .ok projected ∧
      custody.field "local_carrier" =
        .string (host.runPath invocation ++ ".publication.json") ∧
      custody.field "local_revision" = .string (host.digest original) ∧
      published = host.sealed (withCustody projected custody (indexOf original)) := by
  simp only [Host.published, Except.bind_eq_ok_iff, Except.pure_eq_ok_iff] at h
  obtain ⟨projected, hprojected, custody, -, rfl⟩ := h
  exact ⟨projected, _, hprojected, rfl, rfl, rfl⟩

theorem withCustody_held {p custody index : Value} (hobject : p.isObject = true) :
    (withCustody p custody index).field "repository_proof" =
      (p.field "repository_proof").insert "index_sha256" index := by
  rw [withCustody, Value.Writable.field_insert_self
    (Or.inl (Value.Writable.insert_isObject (Or.inl hobject) _ _)),
    Value.field_insert_of_ne (by decide)]

theorem withCustody_field {p custody index : Value} {key : String}
    (hkey : key ≠ "repository_proof") (hne : key ≠ "publication_custody") :
    (withCustody p custody index).field key = p.field key := by
  rw [withCustody, Value.field_insert_of_ne hkey, Value.field_insert_of_ne hne]

theorem withCustody_isObject {p custody index : Value} (hobject : p.isObject = true) :
    (withCustody p custody index).isObject = true :=
  Value.Writable.insert_isObject (Or.inl (Value.Writable.insert_isObject (Or.inl hobject) _ _)) _ _

theorem Host.Drafted.withCustody {p : Value} (h : host.Drafted p) (custody index : Value) :
    host.Drafted (withCustody (host.sealed p) custody index) := by
  have hsealed : (host.sealed p).isObject = true :=
    Value.Writable.insert_isObject (Or.inl h.object) _ _
  have hheld : ((host.sealed p).field "repository_proof").isObject = true := by
    rw [Host.sealed, Value.Writable.field_insert_self (Or.inl h.object)]
    exact Value.Writable.insert_isObject (Or.inl h.held) _ _
  have hsame : ∀ key, key ≠ "index_sha256" → key ≠ "revision" →
      ((RepositoryProof.withCustody (host.sealed p) custody index).field "repository_proof").field
        key = (p.field "repository_proof").field key := by
    intro key hindex hrevision
    rw [withCustody_held hsealed, Value.field_insert_of_ne hindex, sealed_held h.object hrevision]
  have hfield : ∀ key, key ≠ "repository_proof" → key ≠ "publication_custody" →
      (RepositoryProof.withCustody (host.sealed p) custody index).field key = p.field key := by
    intro key hkey hne
    rw [withCustody_field hkey hne, sealed_field hkey]
  refine ⟨withCustody_isObject hsealed, ?_, ?_, ?_, ?_, ?_, ?_, ?_, ?_⟩
  · rw [withCustody_held hsealed]
    exact Value.Writable.insert_isObject (Or.inl hheld) _ _
  · rw [isRepository, hsame _ (by decide) (by decide)]
    exact h.kind
  · rw [hsame _ (by decide) (by decide)]
    exact h.owner
  · rw [hsame _ (by decide) (by decide), hfield _ (by decide) (by decide)]
    exact h.origin
  · rw [hsame _ (by decide) (by decide), hfield _ (by decide) (by decide)]
    exact h.command
  · rw [hsame _ (by decide) (by decide), hfield _ (by decide) (by decide)]
    exact h.status
  · rw [hfield _ (by decide) (by decide)]
    exact h.subject
  · rw [hsame _ (by decide) (by decide), hsame _ (by decide) (by decide)]
    exact h.producer

theorem absolute_remove_insert {obj v : Value} {key other : String}
    (hobj : absolute (obj.remove key) = false) (hv : absolute v = false) :
    absolute ((obj.insert other v).remove key) = false := by
  cases obj with
  | object members =>
    rw [Value.remove, absolute, absoluteMembers_eq_false] at hobj
    rw [Value.insert, Value.remove, absolute, absoluteMembers_eq_false]
    intro member hmember
    obtain ⟨hmember, hkept⟩ := List.mem_filter.mp hmember
    rcases mem_insertMember hmember with rfl | hmember
    · exact hv
    · exact hobj member (List.mem_filter.mpr ⟨hmember, hkept⟩)
  | null =>
    rw [Value.insert, Value.remove, absolute, absoluteMembers_eq_false]
    intro member hmember
    rw [List.mem_singleton.mp (List.mem_filter.mp hmember).1]
    exact hv
  | bool | number | string | array => exact hobj

/-- Of what a publication adds, a revision is taken of the index checksum only. -/
theorem payload_withCustody {p custody index : Value} (hobject : p.isObject = true) :
    payload (withCustody (host.sealed p) custody index) =
      (p.insert "repository_proof" ((((p.field "repository_proof").insert "revision"
        (.string (host.digest (payload p)))).insert "index_sha256" index).remove
          "revision")).remove "publication_custody" := by
  have hsealed : (host.sealed p).isObject = true :=
    Value.Writable.insert_isObject (Or.inl hobject) _ _
  rw [payload, withCustody_held hsealed, withCustody, Value.insert_insert, Host.sealed,
    Value.Writable.field_insert_self (Or.inl hobject),
    Value.insert_through (by decide)]
  exact Value.remove_insert (Value.Writable.insert_isObject (Or.inl hobject) _ _) _ _

theorem absolute_withCustody {p custody index : Value} (hobject : p.isObject = true)
    (hheld : (p.field "repository_proof").isObject = true) (hp : absolute p = false) :
    absolute (payload (withCustody (host.sealed p) custody index)) = false ↔
      absolute index = false := by
  rw [payload_withCustody hobject]
  have hinner : absolute ((p.field "repository_proof").remove "revision") = false := by
    refine absolute_remove ?_ _
    rw [Value.field]
    cases hget : p.get? "repository_proof" with
    | none => rfl
    | some v => exact absolute_get? hp hget
  constructor
  · intro h
    have hfound := Value.Writable.get?_insert_self (Or.inl hobject : p.Writable)
      "repository_proof" ((((p.field "repository_proof").insert "revision"
        (.string (host.digest (payload p)))).insert "index_sha256" index).remove "revision")
    rw [← Value.get?_remove_of_ne _ (by decide : "repository_proof" ≠ "publication_custody")]
      at hfound
    have hindex := Value.Writable.get?_insert_self
      (Or.inl (Value.Writable.insert_isObject (Or.inl hheld) "revision"
        (.string (host.digest (payload p))))) "index_sha256" index
    rw [← Value.get?_remove_of_ne _ (by decide : "index_sha256" ≠ "revision")] at hindex
    exact absolute_get? (absolute_get? h hfound) hindex
  · intro h
    refine absolute_remove (absolute_insert hp (absolute_remove_insert ?_ h) _) _
    rw [Value.remove_insert hheld]
    exact hinner

/-- **What is published for an admitted consumer is accepted exactly if the receipt's id has sixteen
hexadecimal digits and the index checksum, which nothing else checks, is no machine path.** -/
theorem published_validate (hdigest : ∀ v, digestShaped (.string (host.digest v)) = true)
    (hconsumer : host.Admits (promotedTo invocation))
    (h : host.published files original invocation = .ok published) :
    (host.validate published = .ok () ↔
        receiptId (original.field "receipt_id") = true ∧ absolute (indexOf original) = false) ∧
      (∀ key ∈ KEPT, published.field key = original.field key) ∧
      ∃ committed, host.committedPublication files original = .ok (some committed) ∧
        (published.field "repository_proof").field "selection" = heldSelection committed := by
  obtain ⟨projected, custody, hprojected, -, -, rfl⟩ := published_ok h
  obtain ⟨committed, detail, subject, hcommitted, hsubject, hstatus, habsolute, rfl⟩ :=
    project_ok hprojected
  obtain ⟨hobject, hchain⟩ := hconsumer.accepted
  have hdraft : host.Drafted (host.draft original committed (promotedTo invocation) detail
      subject) := drafted hcommitted hsubject hstatus
  have hcustody := hdraft.withCustody custody (indexOf original)
  have hsealed : (host.sealed (host.draft original committed (promotedTo invocation) detail
      subject)).isObject = true := Value.Writable.insert_isObject (Or.inl hdraft.object) _ _
  have hheld : ∀ key, key ≠ "index_sha256" → key ≠ "revision" → ((withCustody (host.sealed
      (host.draft original committed (promotedTo invocation) detail subject)) custody
        (indexOf original)).field "repository_proof").field key =
      (host.observation original committed (promotedTo invocation) detail).field key := by
    intro key hindex hrevision
    rw [withCustody_held hsealed, Value.field_insert_of_ne hindex,
      sealed_held hdraft.object hrevision, draft_held]
  have hfield : ∀ key ∈ KEPT, (withCustody (host.sealed (host.draft original committed
      (promotedTo invocation) detail subject)) custody (indexOf original)).field key =
        original.field key := by
    intro key hkey
    have hne : key ≠ "repository_proof" ∧ key ≠ "publication_custody" := by
      revert key
      decide
    rw [withCustody_field hne.1 hne.2, sealed_field hne.1, draft_field hkey]
  refine ⟨?_, ?_, committed, hcommitted, ?_⟩
  · rw [hcustody.validate hdigest, hfield _ (by decide), hheld _ (by decide) (by decide),
      absolute_withCustody hdraft.object hdraft.held habsolute]
    constructor
    · rintro ⟨hid, -, -, hindex⟩
      exact ⟨hid, hindex⟩
    · rintro ⟨hid, hindex⟩
      exact ⟨hid, hobject, hchain, hindex⟩
  · intro key hkey
    have hne : key ≠ "repository_proof" := by
      rintro rfl
      revert hkey
      decide
    rw [sealed_field hne, hfield key hkey]
  · rw [sealed_held hcustody.object (by decide), hheld _ (by decide) (by decide)]
    rfl

theorem samplePromoted_admitted : sampleHost.Admits (promotedTo sampleInvocation) := by
  have hpromoted : promotedTo sampleInvocation = sampleConsumer := by rfl
  rw [hpromoted]
  exact sampleConsumer_admitted

theorem sampleOriginal_published :
    ∃ published,
      sampleHost.published sampleRan sampleOriginal sampleInvocation = .ok published := by
  obtain ⟨projected, hprojected⟩ := sampleOriginal_project
  refine ⟨sampleHost.sealed (withCustody projected (.object [("custody",
    .object [("attempt", .object [("target", .string ".")]),
      ("committed", .object [("target", .string ".")])]), ("index_sha256", indexOf sampleOriginal),
    ("kind", .string "agentic-workspace/proof-publication-custody/v2"),
    ("local_carrier", .string (sampleRunPath ++ ".publication.json")),
    ("local_revision", .string (sampleHost.digest sampleOriginal))]) (indexOf sampleOriginal)), ?_⟩
  simp only [Host.published, Except.bind_eq_ok_iff, Except.pure_eq_ok_iff]
  exact ⟨projected, hprojected, _, rfl, rfl⟩

theorem published_validate_sample :
    ∃ published, sampleHost.published sampleRan sampleOriginal sampleInvocation = .ok published ∧
      sampleHost.validate published = .ok () := by
  obtain ⟨published, hpublished⟩ := sampleOriginal_published
  exact ⟨published, hpublished, (published_validate sampleHost_shaped samplePromoted_admitted
    hpublished).1.mpr ⟨by decide, by decide +kernel⟩⟩

theorem runPath_carrier (invocation : Value) :
    startsWith (RUNS ++ "/native-") (host.runPath invocation ++ ".publication.json") = true ∧
      endsWith "/run.json.publication.json"
        (host.runPath invocation ++ ".publication.json") = true := by
  constructor
  · rw [startsWith, List.isPrefixOf_iff_prefix, Host.runPath, String.append_assoc,
      String.append_assoc, String.toList_append (s := RUNS ++ "/native-")]
    exact List.prefix_append _ _
  · have hlast : ("/run.json" ++ ".publication.json" : String) = "/run.json.publication.json" := by
      decide
    rw [endsWith, List.isSuffixOf_iff_suffix, Host.runPath, String.append_assoc, hlast,
      String.toList_append]
    exact List.suffix_append _ _

/-- **What is published leads back to the receipt in the local carrier, and to nothing with another
digest or another id.** -/
theorem published_original {later : Files} {bytes : ByteArray} {other : Value}
    (h : host.published files original invocation = .ok published)
    (hvalid : host.validate published = .ok ())
    (hread : read later (host.runPath invocation ++ ".publication.json") = .ok (some bytes)) :
    host.publicationOriginal later published = .ok other ↔
      fromSlice bytes = some other ∧ host.digest other = host.digest original ∧
        other.field "receipt_id" = original.field "receipt_id" := by
  obtain ⟨projected, custody, hprojected, hcarrier, hrevision, rfl⟩ := published_ok h
  obtain ⟨committed, detail, subject, -, -, -, -, rfl⟩ := project_ok hprojected
  have hsealed : (host.sealed (host.draft original committed (promotedTo invocation) detail
      subject)).isObject = true := Value.Writable.insert_isObject (Or.inl draft_isObject) _ _
  generalize hp : host.sealed (withCustody (host.sealed (host.draft original committed
    (promotedTo invocation) detail subject)) custody (indexOf original)) = p at hvalid ⊢
  have hcustody : p.field "publication_custody" = custody := by
    rw [← hp, sealed_field (by decide), withCustody, Value.field_insert_of_ne (by decide),
      Value.Writable.field_insert_self (Or.inl hsealed)]
  have hid : p.field "receipt_id" = original.field "receipt_id" := by
    rw [← hp, sealed_field (by decide), withCustody_field (by decide) (by decide),
      sealed_field (by decide), draft_field (by decide)]
  simp only [Host.publicationOriginal, Except.bind_eq_ok_iff, check_eq_ok, okOr_eq_ok,
    Except.pure_eq_ok_iff, hvalid, hcustody, hid, hcarrier, hrevision]
  constructor
  · rintro ⟨-, -, path, hpath, -, -, found, hfound, bytes', rfl, body, hbody, -,
      ⟨hdigest, hsame⟩, rfl⟩
    cases hpath
    rw [hread] at hfound
    cases hfound
    exact ⟨hbody, Value.string.inj hdigest, hsame⟩
  · rintro ⟨hbody, hdigest, hsame⟩
    exact ⟨(), trivial, _, rfl, (), runPath_carrier invocation, _, hread, bytes, rfl, other, hbody,
      (), ⟨congrArg Value.string hdigest, hsame⟩, rfl⟩

theorem sampleCarrier_read :
    read ((∅ : Files).insert (sampleRunPath ++ ".publication.json") (toVec sampleOriginal))
      (sampleRunPath ++ ".publication.json") = .ok (some (toVec sampleOriginal)) := by
  have hname : ("/" ++ "run.json" ++ ".publication.json" : String) =
      "/" ++ "run.json.publication.json" := by decide
  have hlocal : DecisionSource.relative LOCAL = .ok () := by decide +kernel
  have hpath : DecisionSource.relative (sampleRunPath ++ ".publication.json") = .ok () := by
    rw [sampleRunPath, runPath_local (sampleHost_digest _), String.append_assoc, hname]
    exact Repository.relative_join (Repository.relative_digits hlocal (sampleHost_digest _))
      (by decide)
  exact read_toVec hpath Std.ExtTreeMap.getElem?_insert_self (size_le_of_bound (by decide +kernel))

theorem published_original_sample :
    ∃ published, sampleHost.published sampleRan sampleOriginal sampleInvocation = .ok published ∧
      sampleHost.publicationOriginal
        ((∅ : Files).insert (sampleRunPath ++ ".publication.json") (toVec sampleOriginal))
          published = .ok sampleOriginal := by
  obtain ⟨published, hpublished⟩ := sampleOriginal_published
  have hvalid := (published_validate sampleHost_shaped samplePromoted_admitted
    hpublished).1.mpr ⟨by decide, by decide +kernel⟩
  exact ⟨published, hpublished, (published_original hpublished hvalid sampleCarrier_read).mpr
    ⟨fromSlice_toVec _, rfl, rfl⟩⟩

/-! ## What a revision determines -/

theorem validate_ok {r : Value} (h : host.validate r = .ok ()) :
    r.isObject = true ∧ (r.field "repository_proof").isObject = true ∧
      receiptId (r.field "receipt_id") = true ∧
      (r.field "repository_proof").field "revision" = .string (host.digest (payload r)) := by
  simp only [Host.validate, Except.bind_eq_ok_iff, check_eq_ok] at h
  obtain ⟨-, ⟨hkind, hid, -, -, -, hrevision, -⟩, -⟩ := h
  have hmember : ∀ {v w : Value} {key : String}, v.field key = w → w ≠ .null →
      v.isObject = true := by
    intro v w key hv hw
    cases v with
    | object members => rfl
    | null | bool | number | string | array => exact absurd hv.symm hw
  have hheld : (r.field "repository_proof").isObject = true :=
    hmember (of_decide_eq_true hkind) (by decide)
  refine ⟨hmember (rfl : r.field "repository_proof" = _) ?_, hheld, hid, hrevision⟩
  intro hnull
  rw [hnull] at hheld
  cases hheld

theorem payload_get? {r : Value} {key : String} (hkey : key ≠ "repository_proof")
    (hne : key ≠ "publication_custody") : (payload r).get? key = r.get? key := by
  rw [payload, Value.get?_remove_of_ne _ hne, Value.get?_insert_of_ne hkey]

theorem payload_held {r : Value} (h : r.isObject = true) :
    (payload r).get? "repository_proof" =
      some ((r.field "repository_proof").remove "revision") := by
  rw [payload, Value.get?_remove_of_ne _ (by decide), Value.Writable.get?_insert_self (Or.inl h)]

theorem payload_without {r : Value} : payload (r.remove "publication_custody") = payload r := by
  have hheld : (r.remove "publication_custody").field "repository_proof" =
      r.field "repository_proof" := Value.field_remove_of_ne _ (by decide)
  rw [payload, payload, hheld, Value.insert_remove (by decide), Value.remove_remove]

theorem validate_without {r : Value} :
    host.validate (r.remove "publication_custody") = host.validate r := by
  have hfield : ∀ key, key ≠ "publication_custody" →
      (r.remove "publication_custody").field key = r.field key := fun key hkey =>
    Value.field_remove_of_ne _ hkey
  unfold Host.validate
  rw [payload_without, isRepository, isRepository, hfield "repository_proof" (by decide),
    hfield "receipt_id" (by decide), hfield "command" (by decide), hfield "result" (by decide),
    hfield "proof_subject" (by decide)]

/-- **Two accepted observations of one revision say the same everywhere outside their publication
custody**, unless the digest collides on what they say. -/
theorem validate_agree {r other : Value} (h : host.validate r = .ok ())
    (hother : host.validate other = .ok ())
    (hsame : (r.field "repository_proof").field "revision" =
      (other.field "repository_proof").field "revision")
    (hcollision : host.digest (payload r) = host.digest (payload other) →
      payload r = payload other) :
    (∀ key, key ≠ "repository_proof" → key ≠ "publication_custody" → r.get? key = other.get? key) ∧
      ∀ key, (r.field "repository_proof").get? key = (other.field "repository_proof").get? key := by
  obtain ⟨hobject, hheld, -, hrevision⟩ := validate_ok h
  obtain ⟨hobject', hheld', -, hrevision'⟩ := validate_ok hother
  have hpayload : payload r = payload other := by
    refine hcollision ?_
    rw [hrevision, hrevision'] at hsame
    exact Value.string.inj hsame
  constructor
  · intro key hkey hne
    rw [← payload_get? hkey hne, hpayload, payload_get? hkey hne]
  · intro key
    have hinner : (r.field "repository_proof").remove "revision" =
        (other.field "repository_proof").remove "revision" := by
      have heq := payload_held hobject
      rw [hpayload, payload_held hobject'] at heq
      exact (Option.some.inj heq).symm
    by_cases hkey : key = "revision"
    · subst hkey
      have hsome : ∀ {v : Value} {s : String}, v.field "revision" = .string s →
          v.get? "revision" = some (.string s) := by
        intro v s hv
        rw [Value.field] at hv
        cases hget : v.get? "revision" with
        | none =>
          rw [hget] at hv
          cases hv
        | some w =>
          rw [hget] at hv
          exact congrArg some hv
      rw [hsome hrevision, hsome (hsame ▸ hrevision)]
    · rw [← Value.get?_remove_of_ne _ hkey, hinner, Value.get?_remove_of_ne _ hkey]

theorem validate_agree_sample :
    ∃ published, sampleHost.published sampleRan sampleOriginal sampleInvocation = .ok published ∧
      published.get? "changed_paths" =
        (published.remove "publication_custody").get? "changed_paths" := by
  obtain ⟨published, hpublished⟩ := sampleOriginal_published
  have hvalid := (published_validate sampleHost_shaped samplePromoted_admitted
    hpublished).1.mpr ⟨by decide, by decide +kernel⟩
  have hother : sampleHost.validate (published.remove "publication_custody") = .ok () := by
    rw [validate_without]
    exact hvalid
  exact ⟨published, hpublished, (validate_agree hvalid hother
    (by rw [Value.field_remove_of_ne _ (by decide)]) fun _ => payload_without.symm).1 _ (by decide)
      (by decide)⟩

end AgenticCore.RepositoryProof
