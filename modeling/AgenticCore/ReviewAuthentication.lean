import AgenticCore.CompactJson

/-!
# Authentication of independent reviews (`review_authentication.rs`)

* `Library`              : the hash, key, base64 and time functions of the libraries behind it.
* `view`                 : the verdict on a signed host result, an empty object when rejected.
* `Admits`               : the checks that an admitted input has passed.
* `view_admitted_iff`    : an input is admitted exactly when it passes them.
* `unadmitted_eq`        : one signed payload admits one body.
* `authenticated_review` : **what an admitted verdict says of key, signature, payload and body.**
-/

set_option autoImplicit false

namespace AgenticCore

open Json Text

namespace ReviewAuthentication

/-- What the libraries compute. A digest is a list of bytes, a time a number of microseconds. -/
structure Library (Key : Type) where
  sha256 : String → List UInt8
  /-- `BigUint::parse_bytes(_, 16)`. -/
  parseHex : String → Option Nat
  /-- `RsaPublicKey::new`, from modulus and exponent. -/
  newKey : Nat → Nat → Option Key
  /-- `STANDARD.decode`. -/
  decode : String → Option (List UInt8)
  /-- `public.verify`, of a digest and a signature. -/
  verify : Key → List UInt8 → List UInt8 → Bool
  /-- `DateTime::parse_from_rfc3339`. -/
  parseFromRfc3339 : String → Option Int
  /-- Whether the schema library takes a number like `1.0` for an integer. -/
  isInteger : FloatText → Bool

/-- `{:x}` of a digest. -/
def lowerHex (bytes : List UInt8) : String :=
  String.ofList (bytes.flatMap fun b => [hexDigit (b.toNat / 16), hexDigit (b.toNat % 16)])

def text (value : Value) : String := value.asStr.getD ""

/-- `as_i64`. -/
def asI64 : Value → Option Int
  | .number (.int i) => if -2 ^ 63 ≤ i ∧ i < 2 ^ 63 then some i else none
  | _ => none

/-- `str::parse::<u64>`: decimal digits, with an optional sign `+` before them. -/
def parseU64 (s : String) : Option Nat :=
  let digits := if s.toList.head? = some '+' then s.toList.tail else s.toList
  let n := Nat.ofDigitChars 10 digits 0
  if digits ≠ [] ∧ digits.all Char.isDigit = true ∧ n < 2 ^ 64 then some n else none

/-- `replacen(' ', "T", 1)`. -/
def replaceSpace : List Char → List Char
  | [] => []
  | c :: cs => if c = ' ' then 'T' :: cs else c :: replaceSpace cs

/-- `value.is_null()`, or a text that is blank. -/
def blank (value : Value) : Bool :=
  match value with
  | .null => true
  | .string s => trim s = ""
  | _ => false

def INPUTS : List String :=
  ["host_result", "host_result_ref", "now_unix_micros", "public_keys", "workspace_ref"]

/-- What the schema asks of the input. -/
def accepted {Key : Type} (library : Library Key) (input : Value) : Bool :=
  match input with
  | .object members =>
    members.all (·.1 ∈ INPUTS) &&
      (input.field "host_result_ref").asStr.isSome &&
      (input.field "host_result").isObject &&
      (match input.field "workspace_ref" with
      | .string s => s ≠ ""
      | _ => false) &&
      (match input.field "now_unix_micros" with
      | .number (.int _) => true
      | .number (.float text) => library.isInteger text
      | _ => false) &&
      (match input.get? "public_keys" with
      | some keys => keys.isObject || keys = .null
      | none => false)
  | _ => false

def INVALID : String := "invalid review authentication input"

/-- The program ends where the clock is not a 64-bit integer. -/
def PANIC : String := "called `Option::unwrap()` on a `None` value"

/-- `release_keys`. -/
def releaseKeys : Value :=
  .object [("github-review-adapter:release-2026-08", .object [
    ("algorithm", .string "RS256"),
    ("authority", .string "pinned-host-runtime"),
    ("e", .number (.int 65537)),
    ("expires_at", .string "2027-08-01T00:00:00Z"),
    ("issuer", .string "github-review-webhook"),
    ("key_id", .string "github-review-adapter:release-2026-08"),
    ("key_revision", .string "github-review-adapter-key/2026-08-01"),
    ("n", .string ("d00a7cb961b3e2d0719371dd5821eedef6bde01ad436ceb25d533ced12e83fd0" ++
      "786a09f4b840a05f6372964ebcd56d6b61504c5d16cb9e995e4d460206eda4ba" ++
      "03c8fdca73f63c564c4746cb88946e4558ff8a654cc493212ead218e7d447f0e" ++
      "c206db41488551c57a50149367274144fdc8c5c6a0b2005daf1ecc5c810ce74f" ++
      "f198997acdbd1e2a0ed0514a5dc31b6468cf0afe67b724d02d093ddfa1826b77" ++
      "3f476ed62bac7fb5549638481112e3b4b5a20ab857f2cf4c5cb632d470fd41c4" ++
      "3cbc5b248614a57a334ae0a98ba844ad55f98923b01f12472f05db0a6e653afa" ++
      "4223b84a9a99babe5898bb237e9f4ff448bbf8e970dac3e9d7d670164f0b157b")),
    ("not_before", .string "2026-08-01T00:00:00Z"),
    ("producer", .string "github-review-adapter"),
    ("status", .string "current"),
    ("trusted_channel", .string "github-review-webhook")])]

/-! ## The parts of an input -/

def hostResult (input : Value) : Value := input.field "host_result"

def admission (input : Value) : Value := (hostResult input).field "host_admission"

def payload (input : Value) : Value := (admission input).field "signed_payload"

def keyId (input : Value) : String := trim (text ((admission input).field "key_id"))

/-- The key table: the release keys where the input has none. -/
def keys (input : Value) : Value :=
  match input.field "public_keys" with
  | .null => releaseKeys
  | table => table

def selectedKey (input : Value) : Value := (keys input).field (keyId input)

/-- The host result without its admission fields. -/
def body (input : Value) : Value :=
  (((hostResult input).remove "host_admission").remove "host_admission_ref").remove
    "host_admission_verdict"

/-- The fields that the payload has to repeat. -/
def expected (input : Value) (digest : String) : List (String × String) :=
  let custody := (hostResult input).field "custody"
  let review := (hostResult input).field "review_result"
  [("assignment_revision", text (review.field "assignment_revision")),
    ("audience", "agentic-workspace.independent-review"),
    ("host_result_body_digest", digest),
    ("host_result_ref", text (input.field "host_result_ref")),
    ("key_revision", text ((selectedKey input).field "key_revision")),
    ("operation", "assignment.admit.independent-review"),
    ("producer", text (custody.field "producer")),
    ("proof_subject_revision", text (review.field "proof_subject_revision")),
    ("trusted_channel", text (custody.field "trusted_channel")),
    ("workspace_ref", text (input.field "workspace_ref"))]

/-- The verdict before the expected fields are added. -/
def reported (input : Value) : Value :=
  let key := selectedKey input
  .object [
    ("authority", .string "host-adapter-resolver"),
    ("expires_at", .string (text ((payload input).field "expires_at"))),
    ("issued_at", .string (text ((payload input).field "issued_at"))),
    ("kind", .string "agentic-workspace/independent-review-host-result-verdict/v1"),
    ("nonce", .string (text ((payload input).field "nonce"))),
    ("registry_authority", .string (text (key.field "authority"))),
    ("revoked_at", .string (text ((payload input).field "revoked_at"))),
    ("status", .string "admitted"),
    ("superseded_by", .string (text ((payload input).field "superseded_by"))),
    ("verifier_revision", .string
      (if text (key.field "key_revision") = "" then keyId input
        else text (key.field "key_revision")))]

def extend (v : Value) (fields : List (String × String)) : Value :=
  fields.foldl (fun v field => v.insert field.1 (.string field.2)) v

section View

variable {Key : Type} (library : Library Key)

def timestamp (value : Value) : Option Int :=
  library.parseFromRfc3339 (String.ofList (replaceSpace (trim (text value)).toList))

def signatureValid (signature payload key : Value) : Bool :=
  match library.parseHex (text (key.field "n")) with
  | none => false
  | some modulus =>
    match (key.field "e").asU64.or (parseU64 (text (key.field "e"))) with
    | none => false
    | some exponent =>
      match library.newKey modulus exponent with
      | none => false
      | some key =>
        match library.decode (text signature) with
        | none => false
        | some signature =>
          match compactJson payload with
          | .error _ => false
          | .ok encoded => library.verify key (library.sha256 encoded) signature

/-- The first group of comparisons: the admission, and the key selected for it. -/
def selects (input : Value) : Bool :=
  let key := selectedKey input
  let custody := (hostResult input).field "custody"
  (admission input).field "kind" =
      .string "agentic-workspace/independent-review-host-result-admission/v1" &&
    (admission input).field "status" = .string "current" &&
    (admission input).field "algorithm" = .string "RS256" &&
    keyId input ≠ "" &&
    key.field "status" = .string "current" &&
    key.field "algorithm" = .string "RS256" &&
    key.field "authority" = .string "pinned-host-runtime" &&
    text (key.field "producer") = text (custody.field "producer") &&
    text (key.field "trusted_channel") = text (custody.field "trusted_channel") &&
    text (key.field "issuer") = text ((payload input).field "issuer")

def inWorkspace (input : Value) : Bool :=
  let workspace := text ((selectedKey input).field "workspace_ref")
  workspace = "" || workspace = text (input.field "workspace_ref")

/-- A bound of the key's window that is given can be read. -/
def readable (input : Value) : Bool :=
  ["not_before", "expires_at"].all fun field =>
    let value := (selectedKey input).field field
    blank value || (timestamp library value).isSome

/-- The second group: the key's window and marks, the signature, and the kind of the payload. -/
def current (input : Value) (now : Int) : Bool :=
  let key := selectedKey input
  (timestamp library (key.field "not_before")).all (fun t => t ≤ now) &&
    (timestamp library (key.field "expires_at")).all (fun t => now < t) &&
    trim (text (key.field "revoked_at")) = "" &&
    trim (text (key.field "superseded_by")) = "" &&
    signatureValid library ((admission input).field "signature") (payload input) key &&
    (payload input).field "kind" =
      .string "agentic-workspace/independent-review-host-result-admission-payload/v1"

/-- The payload's window: not empty, and inside the key's. -/
def insideKey (input : Value) (issued expiry : Int) : Bool :=
  let key := selectedKey input
  decide (issued < expiry) &&
    (timestamp library (key.field "not_before")).all (fun t => t ≤ issued) &&
    (timestamp library (key.field "expires_at")).all (fun t => expiry ≤ t)

def view (input : Value) : Result Value := do
  check (accepted library input = true) INVALID
  if ¬selects input then pure (.object [])
  else if ¬inWorkspace input then pure (.object [])
  else do
    let now ← okOr (asI64 (input.field "now_unix_micros")) PANIC
    if ¬readable library input then pure (.object [])
    else if ¬current library input now then pure (.object [])
    else
      match timestamp library ((payload input).field "issued_at"),
          timestamp library ((payload input).field "expires_at") with
      | some issued, some expiry =>
        if ¬insideKey library input issued expiry then pure (.object [])
        else do
          let encoded ← compactJson (body input)
          let expected := expected input (lowerHex (library.sha256 encoded))
          if expected.all fun field => text ((payload input).field field.1) = field.2 then
            pure (extend (reported input) expected)
          else pure (.object [])
      | _, _ => pure (.object [])

end View

/-! ## What an admitted input has passed -/

section Checks

variable {Key : Type} {library : Library Key}

/-- The checks that lead to a verdict, at the clock value and the body text of the input. -/
structure Admits (library : Library Key) (input : Value) (now : Int) (encoded : String) :
    Prop where
  accepted : accepted library input = true
  selects : selects input = true
  workspace : inWorkspace input = true
  clock : asI64 (input.field "now_unix_micros") = some now
  readable : readable library input = true
  current : current library input now = true
  window : ∃ issued expiry, timestamp library ((payload input).field "issued_at") = some issued ∧
    timestamp library ((payload input).field "expires_at") = some expiry ∧
    insideKey library input issued expiry = true
  body : compactJson (body input) = .ok encoded
  repeated : ∀ field ∈ expected input (lowerHex (library.sha256 encoded)),
    text ((payload input).field field.1) = field.2

theorem field_extend {key : String} : ∀ {fields : List (String × String)} {v : Value},
    key ∉ fields.map Prod.fst → (extend v fields).field key = v.field key
  | [], _, _ => rfl
  | field :: fields, v, h => by
    rw [List.map_cons, List.mem_cons, not_or] at h
    have hrest := field_extend (v := v.insert field.1 (.string field.2)) h.2
    rw [Value.field_insert_of_ne h.1] at hrest
    exact hrest

/-- The expected fields replace none of those reported beside them. -/
theorem field_verdict {key : String} (hkey : key ∉ ["assignment_revision", "audience",
      "host_result_body_digest", "host_result_ref", "key_revision", "operation", "producer",
      "proof_subject_revision", "trusted_channel", "workspace_ref"]) (input : Value)
    (digest : String) :
    (extend (reported input) (expected input digest)).field key = (reported input).field key :=
  field_extend hkey

/-- The verdict of an admitted input. -/
def verdict (library : Library Key) (input : Value) (encoded : String) : Value :=
  extend (reported input) (expected input (lowerHex (library.sha256 encoded)))

theorem rejected_status : (Value.object []).field "status" ≠ .string "admitted" := by
  intro h
  cases h

theorem view_admitted {input v : Value} (h : view library input = .ok v)
    (hstatus : v.field "status" = .string "admitted") :
    ∃ now encoded, Admits library input now encoded ∧ v = verdict library input encoded := by
  have hrejected : ∀ {w : Value}, (pure (Value.object []) : Result Value) = .ok w →
      w.field "status" ≠ .string "admitted" := by
    intro w hw
    cases hw
    exact rejected_status
  unfold view at h
  rw [Except.bind_eq_ok_iff] at h
  obtain ⟨⟨⟩, haccepted, h⟩ := h
  rw [check_eq_ok] at haccepted
  split at h
  · exact absurd hstatus (hrejected h)
  rename_i hselects
  split at h
  · exact absurd hstatus (hrejected h)
  rename_i hworkspace
  rw [Except.bind_eq_ok_iff] at h
  obtain ⟨now, hclock, h⟩ := h
  rw [okOr_eq_ok] at hclock
  split at h
  · exact absurd hstatus (hrejected h)
  rename_i hreadable
  split at h
  · exact absurd hstatus (hrejected h)
  rename_i hcurrent
  split at h
  · rename_i issued expiry hissued hexpiry
    split at h
    · exact absurd hstatus (hrejected h)
    rename_i hwindow
    rw [Except.bind_eq_ok_iff] at h
    obtain ⟨encoded, hbody, h⟩ := h
    dsimp only at h
    split at h
    · rename_i hrepeated
      cases h
      refine ⟨now, encoded, ⟨haccepted, by simpa using hselects, by simpa using hworkspace, hclock,
        by simpa using hreadable, by simpa using hcurrent,
        ⟨issued, expiry, hissued, hexpiry, by simpa using hwindow⟩, hbody, ?_⟩, rfl⟩
      intro field hfield
      exact of_decide_eq_true (List.all_eq_true.mp hrepeated field hfield)
    · exact absurd hstatus (hrejected h)
  · exact absurd hstatus (hrejected h)

theorem Admits.view {input : Value} {now : Int} {encoded : String}
    (A : Admits library input now encoded) :
    view library input = .ok (verdict library input encoded) := by
  obtain ⟨issued, expiry, hissued, hexpiry, hwindow⟩ := A.window
  have hrepeated : (expected input (lowerHex (library.sha256 encoded))).all
      (fun field => text ((payload input).field field.1) = field.2) = true :=
    List.all_eq_true.mpr fun field hfield => decide_eq_true (A.repeated field hfield)
  have haccepted : check (ReviewAuthentication.accepted library input = true) INVALID = .ok () :=
    check_eq_ok.mpr A.accepted
  unfold ReviewAuthentication.view
  simp only [haccepted, A.selects, A.workspace, A.clock, A.readable, A.current, hissued, hexpiry,
    hwindow, A.body, hrepeated, okOr, bind, Except.bind, not_true_eq_false, if_false, if_true]
  rfl

theorem verdict_status (input : Value) (encoded : String) :
    (verdict library input encoded).field "status" = .string "admitted" :=
  field_verdict (by decide) input _

/-- An input is admitted exactly when it passes every check, with the verdict built from it. -/
theorem view_admitted_iff {input v : Value} :
    view library input = .ok v ∧ v.field "status" = .string "admitted" ↔
      ∃ now encoded, Admits library input now encoded ∧ v = verdict library input encoded := by
  constructor
  · rintro ⟨h, hstatus⟩
    exact view_admitted h hstatus
  · rintro ⟨now, encoded, A, rfl⟩
    exact ⟨A.view, verdict_status input encoded⟩

/-! ## One payload, one body -/

theorem hexDigit_inj {m n : Nat} (hm : m < 16) (hn : n < 16) (h : hexDigit m = hexDigit n) :
    m = n := by
  have hm' := hexValue_hexDigit m hm
  rw [h, hexValue_hexDigit n hn] at hm'
  exact (Option.some.inj hm').symm

theorem lowerHex_injective : Function.Injective lowerHex := by
  intro a b h
  have hchars := String.ofList_injective h
  clear h
  induction a generalizing b with
  | nil =>
    cases b with
    | nil => rfl
    | cons y b => simp at hchars
  | cons x a ih =>
    cases b with
    | nil => simp at hchars
    | cons y b =>
      simp only [List.flatMap_cons, List.cons_append, List.nil_append, List.cons.injEq] at hchars
      obtain ⟨hhigh, hlow, hrest⟩ := hchars
      have hx := x.toNat_lt
      have hy := y.toNat_lt
      have hdiv := hexDigit_inj (by omega) (by omega) hhigh
      have hmod := hexDigit_inj (by omega) (by omega) hlow
      have hxy : x = y := UInt8.toNat_inj.mp (by omega)
      rw [hxy, ih hrest]

theorem Admits.digest {input : Value} {now : Int} {encoded : String}
    (A : Admits library input now encoded) :
    text ((payload input).field "host_result_body_digest") =
      lowerHex (library.sha256 encoded) :=
  A.repeated ("host_result_body_digest", lowerHex (library.sha256 encoded)) (by simp [expected])

/-- A signed payload is admitted with one body only. -/
theorem body_eq (hsha : Function.Injective library.sha256) {input input' : Value}
    {now now' : Int} {encoded encoded' : String} (A : Admits library input now encoded)
    (A' : Admits library input' now' encoded') (hpayload : payload input' = payload input) :
    body input' = body input := by
  have hdigest : lowerHex (library.sha256 encoded') = lowerHex (library.sha256 encoded) := by
    rw [← A'.digest, ← A.digest, hpayload]
  have hencoded : encoded' = encoded := hsha (lowerHex_injective hdigest)
  exact compactJson_inj A'.body (hencoded ▸ A.body)

/-! ## What admission establishes -/

/-- A bound of the key's window that is given is a time of which `P` holds. -/
def Given (library : Library Key) (value : Value) (P : Int → Prop) : Prop :=
  blank value = false → ∃ t, timestamp library value = some t ∧ P t

/-- What an admitted verdict stands for, at the clock value `now`. Names are compared as texts:
    a missing field is the empty text. -/
structure Authenticated (library : Library Key) (input v : Value) (now : Int) : Prop where
  key_current : (selectedKey input).field "status" = .string "current"
  not_revoked : trim (text ((selectedKey input).field "revoked_at")) = ""
  not_superseded : trim (text ((selectedKey input).field "superseded_by")) = ""
  begun : Given library ((selectedKey input).field "not_before") (· ≤ now)
  not_expired : Given library ((selectedKey input).field "expires_at") (now < ·)
  signed : signatureValid library ((admission input).field "signature") (payload input)
    (selectedKey input) = true
  window : ∃ issued expiry, timestamp library ((payload input).field "issued_at") = some issued ∧
    timestamp library ((payload input).field "expires_at") = some expiry ∧ issued < expiry ∧
    Given library ((selectedKey input).field "not_before") (· ≤ issued) ∧
    Given library ((selectedKey input).field "expires_at") (expiry ≤ ·)
  reported : ∀ name ∈ ["issued_at", "expires_at", "revoked_at", "superseded_by"],
    v.field name = .string (text ((payload input).field name))
  host_result_ref : text ((payload input).field "host_result_ref") =
    text (input.field "host_result_ref")
  workspace : text ((payload input).field "workspace_ref") = text (input.field "workspace_ref")
  producer : text ((payload input).field "producer") =
    text (((hostResult input).field "custody").field "producer")
  channel : text ((payload input).field "trusted_channel") =
    text (((hostResult input).field "custody").field "trusted_channel")
  assignment : text ((payload input).field "assignment_revision") =
    text (((hostResult input).field "review_result").field "assignment_revision")
  subject : text ((payload input).field "proof_subject_revision") =
    text (((hostResult input).field "review_result").field "proof_subject_revision")
  body : ∃ encoded, compactJson (body input) = .ok encoded ∧
    text ((payload input).field "host_result_body_digest") = lowerHex (library.sha256 encoded)

theorem Admits.given {input : Value} {now : Int} {encoded : String}
    (A : Admits library input now encoded) {field : String}
    (hfield : field ∈ ["not_before", "expires_at"]) {P : Int → Prop} [DecidablePred P]
    (h : (timestamp library ((selectedKey input).field field)).all (fun t => decide (P t)) = true) :
    Given library ((selectedKey input).field field) P := by
  intro hblank
  have hread := List.all_eq_true.mp A.readable field hfield
  simp only [hblank, Bool.false_or] at hread
  obtain ⟨t, ht⟩ := Option.isSome_iff_exists.mp hread
  rw [ht] at h
  exact ⟨t, ht, of_decide_eq_true h⟩

theorem Admits.authenticated {input : Value} {now : Int} {encoded : String}
    (A : Admits library input now encoded) :
    Authenticated library input (verdict library input encoded) now := by
  have hselects := A.selects
  have hcurrent := A.current
  obtain ⟨issued, expiry, hissued, hexpiry, hwindow⟩ := A.window
  simp only [ReviewAuthentication.selects, Bool.and_eq_true, decide_eq_true_eq] at hselects
  simp only [ReviewAuthentication.current, Bool.and_eq_true, decide_eq_true_eq] at hcurrent
  simp only [insideKey, Bool.and_eq_true, decide_eq_true_eq] at hwindow
  obtain ⟨⟨⟨⟨⟨⟨-, hstatus⟩, -⟩, -⟩, -⟩, -⟩, -⟩ := hselects
  obtain ⟨⟨⟨⟨⟨hbegun, hnotExpired⟩, hrevoked⟩, hsuperseded⟩, hsigned⟩, -⟩ := hcurrent
  obtain ⟨⟨hlt, hinside⟩, hwithin⟩ := hwindow
  have hrepeated : ∀ {name value : String},
      (name, value) ∈ expected input (lowerHex (library.sha256 encoded)) →
        text ((payload input).field name) = value := fun h => A.repeated _ h
  refine ⟨hstatus, hrevoked, hsuperseded, A.given (by simp) hbegun, A.given (by simp) hnotExpired,
    hsigned, ⟨issued, expiry, hissued, hexpiry, hlt, A.given (by simp) hinside,
      A.given (by simp) hwithin⟩, ?_, hrepeated (by simp [expected]), hrepeated (by simp [expected]),
    hrepeated (by simp [expected]), hrepeated (by simp [expected]),
    hrepeated (by simp [expected]), hrepeated (by simp [expected]), ⟨encoded, A.body, A.digest⟩⟩
  intro name hname
  simp only [List.mem_cons, List.not_mem_nil, or_false] at hname
  rcases hname with rfl | rfl | rfl | rfl <;> exact field_verdict (by decide) input _

/-- **An admitted review is signed under a current key for this host result and this body, with a
    window inside the key's; whether that window is open is reported, not decided.** -/
theorem authenticated_review (hsha : Function.Injective library.sha256) {input v : Value}
    (h : view library input = .ok v) (hstatus : v.field "status" = .string "admitted") :
    (∃ now, asI64 (input.field "now_unix_micros") = some now ∧
      Authenticated library input v now) ∧
    ∀ input' v', view library input' = .ok v' → v'.field "status" = .string "admitted" →
      payload input' = payload input → body input' = body input := by
  obtain ⟨now, encoded, A, rfl⟩ := view_admitted h hstatus
  refine ⟨⟨now, A.clock, A.authenticated⟩, ?_⟩
  intro input' v' h' hstatus' hpayload
  obtain ⟨now', encoded', A', -⟩ := view_admitted h' hstatus'
  exact body_eq hsha A A' hpayload

end Checks

/-! ## A review, and the same review after its window -/

section Sample

/-- A digest is the bytes of the text, and a signature that is valid is the digest. -/
def sampleLibrary : Library Unit where
  sha256 s := s.toByteArray.data.toList
  parseHex s := if s = "23" then some 35 else none
  newKey _ _ := some ()
  decode s := some s.toByteArray.data.toList
  verify _ digest signature := decide (digest = signature)
  parseFromRfc3339 s :=
    if s = "2026-08-08T12:01:00Z" then some 1786190460000000
    else if s = "2027-01-01T00:00:00Z" then some 1798761600000000
    else none
  isInteger _ := false

theorem sampleLibrary_verify (digest : List UInt8) :
    sampleLibrary.verify () digest digest = true :=
  decide_eq_true rfl

theorem sampleLibrary_decode {s encoded : String} (h : s = encoded) :
    sampleLibrary.decode s = some (sampleLibrary.sha256 encoded) := by
  rw [h]
  rfl

theorem sampleLibrary_sha256 : Function.Injective sampleLibrary.sha256 := by
  intro s t h
  have hdata := Array.toList_inj.mp h
  exact String.toByteArray_inj.mp (ByteArray.ext hdata)

def sampleReview : Value :=
  .object [("assignment_revision", .string "assignment-1"),
    ("proof_subject_revision", .string "subject-1")]

def sampleBody : Value := .object [("review_result", sampleReview)]

def sampleDigest : String :=
  lowerHex (sampleLibrary.sha256 (String.ofList (print CompactJson.asciiOf sampleBody)))

/-- The payload ends its own window on the first of January and was revoked before. -/
def samplePayload : Value :=
  .object [
    ("assignment_revision", .string "assignment-1"),
    ("audience", .string "agentic-workspace.independent-review"),
    ("expires_at", .string "2027-01-01T00:00:00Z"),
    ("host_result_body_digest", .string sampleDigest),
    ("host_result_ref", .string "independent-review-host-result:1"),
    ("issued_at", .string "2026-08-08T12:01:00Z"),
    ("kind", .string
      "agentic-workspace/independent-review-host-result-admission-payload/v1"),
    ("operation", .string "assignment.admit.independent-review"),
    ("proof_subject_revision", .string "subject-1"),
    ("revoked_at", .string "2026-12-01T00:00:00Z"),
    ("workspace_ref", .string "workspace:path:/work")]

def sampleAdmission : Value :=
  .object [("algorithm", .string "RS256"), ("key_id", .string "adapter"),
    ("kind", .string "agentic-workspace/independent-review-host-result-admission/v1"),
    ("signature", .string (String.ofList (print CompactJson.asciiOf samplePayload))),
    ("signed_payload", samplePayload), ("status", .string "current")]

def sampleKey : Value :=
  .object [("algorithm", .string "RS256"), ("authority", .string "pinned-host-runtime"),
    ("e", .number (.int 5)), ("n", .string "23"), ("status", .string "current")]

def sampleInput (now : Int) : Value :=
  .object [
    ("host_result", .object [("host_admission", sampleAdmission),
      ("review_result", sampleReview)]),
    ("host_result_ref", .string "independent-review-host-result:1"),
    ("now_unix_micros", .number (.int now)),
    ("public_keys", .object [("adapter", sampleKey)]),
    ("workspace_ref", .string "workspace:path:/work")]

theorem sampleInput_keyId (now : Int) : keyId (sampleInput now) = "adapter" :=
  show trim "adapter" = "adapter" by decide

theorem sampleInput_key (now : Int) : selectedKey (sampleInput now) = sampleKey := by
  rw [selectedKey, sampleInput_keyId]
  rfl

theorem sampleIssued : timestamp sampleLibrary (.string "2026-08-08T12:01:00Z") =
    some 1786190460000000 := by
  decide

theorem sampleExpiry : timestamp sampleLibrary (.string "2027-01-01T00:00:00Z") =
    some 1798761600000000 := by
  decide

theorem sampleUnbounded : timestamp sampleLibrary .null = none := by
  decide

/-- The signature is checked over the compact form of the payload. -/
theorem signatureValid_of {Key : Type} {library : Library Key} {signature payload key : Value}
    {modulus exponent : Nat} {made : Key} {decoded : List UInt8} {encoded : String}
    (hmodulus : library.parseHex (text (key.field "n")) = some modulus)
    (hexponent : (key.field "e").asU64.or (parseU64 (text (key.field "e"))) = some exponent)
    (hmade : library.newKey modulus exponent = some made)
    (hdecoded : library.decode (text signature) = some decoded)
    (hencoded : compactJson payload = .ok encoded) :
    signatureValid library signature payload key =
      library.verify made (library.sha256 encoded) decoded := by
  simp only [signatureValid, hmodulus, hexponent, hmade, hdecoded, hencoded]

theorem sampleSignature_text : text (sampleAdmission.field "signature") =
    String.ofList (print CompactJson.asciiOf samplePayload) := rfl

theorem samplePayload_compact : compactJson samplePayload =
    .ok (String.ofList (print CompactJson.asciiOf samplePayload)) :=
  compactJson_eq_ok.mpr ⟨rfl, rfl⟩

theorem sampleSigned :
    signatureValid sampleLibrary (sampleAdmission.field "signature") samplePayload sampleKey =
      true :=
  (signatureValid_of rfl rfl rfl (sampleLibrary_decode sampleSignature_text)
    samplePayload_compact).trans (sampleLibrary_verify _)

theorem sampleInput_admits {now : Int} (hnow : -2 ^ 63 ≤ now ∧ now < 2 ^ 63) :
    Admits sampleLibrary (sampleInput now) now
      (String.ofList (print CompactJson.asciiOf sampleBody)) := by
  have hselects : selects (sampleInput now) = true := by
    rw [selects, sampleInput_key, sampleInput_keyId]
    rfl
  have hworkspace : inWorkspace (sampleInput now) = true := by
    rw [inWorkspace, sampleInput_key]
    rfl
  have hreadable : readable sampleLibrary (sampleInput now) = true := by
    rw [readable, sampleInput_key]
    rfl
  have hcurrent : current sampleLibrary (sampleInput now) now = true := by
    have hsigned : signatureValid sampleLibrary ((admission (sampleInput now)).field "signature")
        (payload (sampleInput now)) sampleKey = true := sampleSigned
    have hbegun : timestamp sampleLibrary (sampleKey.field "not_before") = none := sampleUnbounded
    have hends : timestamp sampleLibrary (sampleKey.field "expires_at") = none := sampleUnbounded
    rw [current, sampleInput_key, hsigned, hbegun, hends]
    rfl
  have hinside : insideKey sampleLibrary (sampleInput now) 1786190460000000 1798761600000000 =
      true := by
    have hbegun : timestamp sampleLibrary (sampleKey.field "not_before") = none := sampleUnbounded
    have hends : timestamp sampleLibrary (sampleKey.field "expires_at") = none := sampleUnbounded
    rw [insideKey, sampleInput_key, hbegun, hends]
    decide
  have hexpected : expected (sampleInput now) sampleDigest = [
      ("assignment_revision", "assignment-1"),
      ("audience", "agentic-workspace.independent-review"),
      ("host_result_body_digest", sampleDigest),
      ("host_result_ref", "independent-review-host-result:1"),
      ("key_revision", ""),
      ("operation", "assignment.admit.independent-review"),
      ("producer", ""),
      ("proof_subject_revision", "subject-1"),
      ("trusted_channel", ""),
      ("workspace_ref", "workspace:path:/work")] := by
    rw [expected, sampleInput_key]
    rfl
  refine ⟨rfl, hselects, hworkspace, if_pos hnow, hreadable, hcurrent,
    ⟨1786190460000000, 1798761600000000, sampleIssued, sampleExpiry, hinside⟩,
    compactJson_eq_ok.mpr ⟨rfl, rfl⟩, ?_⟩
  intro field hfield
  rw [← sampleDigest, hexpected] at hfield
  have hpayload : payload (sampleInput now) = samplePayload := rfl
  rw [hpayload]
  simp only [List.mem_cons, List.not_mem_nil, or_false] at hfield
  rcases hfield with rfl | rfl | rfl | rfl | rfl | rfl | rfl | rfl | rfl | rfl <;> rfl

/-- In February the review is admitted, past the end of its own window and revoked. -/
theorem expired_review_admitted :
    ∃ v, view sampleLibrary (sampleInput 1801440000000000) = .ok v ∧
      v.field "status" = .string "admitted" ∧
      asI64 ((sampleInput 1801440000000000).field "now_unix_micros") = some 1801440000000000 ∧
      (∃ expiry, timestamp sampleLibrary
        ((payload (sampleInput 1801440000000000)).field "expires_at") = some expiry ∧
          expiry ≤ 1801440000000000) ∧
      trim (text ((payload (sampleInput 1801440000000000)).field "revoked_at")) ≠ "" :=
  ⟨_, (sampleInput_admits (by decide)).view, verdict_status _ _, rfl,
    ⟨1798761600000000, sampleExpiry, by decide⟩,
    show trim "2026-12-01T00:00:00Z" ≠ "" by decide⟩

/-- The same review on the first of September, inside its window. -/
theorem authenticated_review_sample :
    ∃ v now, view sampleLibrary (sampleInput 1788220800000000) = .ok v ∧
      v.field "status" = .string "admitted" ∧
      Authenticated sampleLibrary (sampleInput 1788220800000000) v now := by
  have hclock : -2 ^ 63 ≤ (1788220800000000 : Int) ∧ (1788220800000000 : Int) < 2 ^ 63 := by decide
  have A := sampleInput_admits hclock
  obtain ⟨⟨now, -, hauthenticated⟩, -⟩ :=
    authenticated_review sampleLibrary_sha256 A.view (verdict_status _ _)
  exact ⟨_, now, A.view, verdict_status _ _, hauthenticated⟩

end Sample

end ReviewAuthentication

end AgenticCore
