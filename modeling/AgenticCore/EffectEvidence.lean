import AgenticCore.Repository
import AgenticCore.AtMostOnce
import AgenticCore.JsonBytes

/-!
# The evidence of one effect in its repository

What the operations of the effect store do to a repository that nobody else writes, for the evidence
of one effect.

* `Effect`      : an invocation whose evidence the store can hold.
* `Attempted`, `Committed` : the evidence that is there.
* `admit_guards`, `reads_admit_uncertain`, `reads_admit_replay` : admission, fresh and with custody.
* `reads_prepareCommit`, `commit_guards`, `reads_commit`, `reads_inspectCommitted` : the commit and
                                         its exact identity.
-/

set_option autoImplicit false

namespace AgenticCore.Repository

open Json Text Interleaving Attempt AttemptStore

/-! ## Operations of the store as programs on the repository -/

theorem evidence_bind {α β : Type} {f : α → AttemptStore.StoreM β} :
    ∀ {p : AttemptStore.StoreM α}, evidence (p >>= f) = evidence p >>= fun a => evidence (f a)
  | .done (.ok _) => rfl
  | .done (.error _) => rfl
  | .act (.read path) next => by
    show Prog.act _ _ = Prog.act _ _
    congr 1
    funext found
    exact evidence_bind
  | .act (.present path) next => by
    show Prog.act _ _ = Prog.act _ _
    congr 1
    funext found
    exact evidence_bind
  | .act (.create path bytes) next => by
    show Prog.act _ _ = Prog.act _ _
    congr 1
    funext created
    exact evidence_bind

theorem evidence_lift {α : Type} (r : Result α) :
    evidence (liftM r : AttemptStore.StoreM α) = (liftM r : StoreM α) := rfl

theorem evidence_pure {α : Type} (a : α) :
    evidence (pure a : AttemptStore.StoreM α) = (pure a : StoreM α) := rfl

variable {α β : Type} {files : Files}

theorem reads_evidence_bind {p : AttemptStore.StoreM α} {a : α}
    (h : Reads files (evidence p) (.ok a)) {f : α → AttemptStore.StoreM β} {r : Result β}
    (hf : Reads files (evidence (f a)) r) : Reads files (evidence (p >>= f)) r := by
  rw [evidence_bind]
  exact reads_bind h hf

theorem reads_evidence_lift {r : Result α} :
    Reads files (evidence (liftM r : AttemptStore.StoreM α)) r := reads_lift

/-- A computation that succeeds, and what follows. -/
theorem reads_evidence_step {r : Result α} {a : α} (h : r = .ok a) {f : α → AttemptStore.StoreM β}
    {r' : Result β} (hf : Reads files (evidence (f a)) r') :
    Reads files (evidence ((liftM r : AttemptStore.StoreM α) >>= f)) r' := by
  refine reads_evidence_bind ?_ hf
  rw [h]
  exact reads_evidence_lift

/-- A computation that succeeds, before steps that change the repository. -/
theorem evidence_step_guards {r : Result α} {a : α} (h : r = .ok a) {f : α → AttemptStore.StoreM β}
    {I : Files → Prop} {Q : Result β → Files → Prop} (hI : I files)
    (hf : Guards exec 0 I (evidence (f a)) Q files) :
    Guards exec 0 I (evidence ((liftM r : AttemptStore.StoreM α) >>= f)) Q files := by
  rw [evidence_bind]
  refine reads_ok_guards (a := a) ?_ hI hf
  rw [h]
  exact reads_evidence_lift

theorem reads_evidence_guards {p : AttemptStore.StoreM α} {a : α}
    (h : Reads files (evidence p) (.ok a)) {f : α → AttemptStore.StoreM β}
    {I : Files → Prop} {Q : Result β → Files → Prop} (hI : I files)
    (hf : Guards exec 0 I (evidence (f a)) Q files) : Guards exec 0 I (evidence (p >>= f)) Q files := by
  rw [evidence_bind]
  exact reads_ok_guards h hI hf

theorem reads_evidence_read {path : String} :
    Reads files (evidence (readFile path)) (.ok files[path]?) := reads_read

theorem reads_evidence_present {path : String} :
    Reads files (evidence (present path)) (.ok files[path]?.isSome) := by
  have h : Reads files ((Prog.step (Op.read path) : StoreM _) >>= fun found => pure found.isSome)
      (.ok files[path]?.isSome) := reads_bind reads_read reads_pure
  exact h

/-! ## Effects -/

/-- An invocation whose evidence the store can hold. -/
structure Effect (host : AttemptStore.Host) where
  invocation : Value
  key : String
  owner : String
  requested : String
  key_eq : logicalEffect invocation = some key
  owner_eq : (invocation.field "source_owner").asStr = some owner
  requested_eq : ((invocation.field "arguments").field "target").asStr = some requested
  bound : host.canonical requested = some host.root

namespace Effect

variable {host : AttemptStore.Host} (e : Effect host)

def attemptPath : String := host.attemptPath e.key

def resultPath : String := host.resultPath e.key

def attemptId : String :=
  "attempt:" ++ host.digest (.object [("attempt", .ofNat 1), ("effect", .string e.key)])

/-- The record of the attempt. -/
def attempted : Attempt.Record :=
  let record : Attempt.Record := {
    kind := KIND, attemptId := e.attemptId, invocation := e.invocation, outcome := none
    recordRevision := "" }
  { record with recordRevision := revision host.digest record }

/-- The record of the attempt with its outcome. -/
def completed (outcome : Value) : Attempt.Record :=
  let record : Attempt.Record := { e.attempted with outcome := some outcome }
  { record with recordRevision := revision host.digest record }

def attemptEvidence : Evidence where
  target := host.root
  path := e.attemptPath
  owner := e.owner
  revision := host.hash (toVec e.attempted.toValue)

def resultEvidence (outcome : Value) : Evidence where
  target := host.root
  path := e.resultPath
  owner := e.owner
  revision := host.hash (toVec (e.completed outcome).toValue)

/-- The outcome is one that the invocation allows. -/
def Allows (outcome : Value) : Prop := ∃ result, operationResult e.invocation outcome .null = .ok result

/-- The attempt was admitted. -/
def Attempted (files : Files) : Prop := files[e.attemptPath]? = some (toVec e.attempted.toValue)

/-- The outcome is committed. -/
def Committed (outcome : Value) (files : Files) : Prop :=
  files[e.resultPath]? = some (toVec (e.completed outcome).toValue)

variable {e}

theorem names : host.names e.invocation = .ok (e.attemptPath, e.resultPath) := by
  simp only [Host.names, e.key_eq]
  rfl

theorem Allows.ne_null {outcome : Value} (h : e.Allows outcome) : outcome ≠ .null := by
  obtain ⟨result, hresult⟩ := h
  exact operationResult_ne_null hresult

theorem attemptId_eq : Attempt.attemptId host.digest e.invocation = .ok e.attemptId := by
  simp only [Attempt.attemptId, e.key_eq]
  rfl

theorem fresh_attempted : fresh host.digest e.invocation = .ok e.attempted := by
  rw [fresh, attemptId_eq]
  rfl

theorem readRecord_attempted : readRecord host.digest e.attempted.toValue = .ok e.attempted := by
  simp only [readRecord, Except.bind_eq_ok_iff, check_eq_ok]
  exact ⟨e.attempted, ofValue_toValue (by simp [attempted]), e.attemptId, attemptId_eq, (),
    ⟨rfl, rfl, rfl⟩, rfl⟩

theorem readRecord_completed {outcome : Value} (h : e.Allows outcome) :
    readRecord host.digest (e.completed outcome).toValue = .ok (e.completed outcome) := by
  obtain ⟨result, hresult⟩ := h
  simp only [readRecord, Except.bind_eq_ok_iff, check_eq_ok]
  refine ⟨e.completed outcome, ofValue_toValue ?_, e.attemptId, attemptId_eq, (), ⟨rfl, rfl, rfl⟩, ?_⟩
  · simpa [completed] using operationResult_ne_null hresult
  · show Except.bind (operationResult e.invocation outcome .null) _ = _
    rw [hresult]
    rfl

theorem commit_attempted {outcome : Value} (h : e.Allows outcome) :
    Attempt.commit host.digest e.attempted.toValue outcome = .ok (e.completed outcome) := by
  obtain ⟨result, hresult⟩ := h
  simp only [Attempt.commit, Except.bind_eq_ok_iff, check_eq_ok, Except.pure_eq_ok_iff]
  exact ⟨e.attempted, readRecord_attempted, result, hresult, (), by simp [attempted], rfl⟩

theorem attemptPath_ne_resultPath {e' : Effect host} : e.attemptPath ≠ e'.resultPath :=
  AttemptStore.attemptPath_ne_resultPath

end Effect

/-! ## Evidence that is read -/

variable {host : AttemptStore.Host}

/-- SHA-256 is written as `sha256:` and 64 hexadecimal digits. -/
def HashText (host : AttemptStore.Host) : Prop := ∀ bytes, sha256Revision (host.hash bytes) = true

theorem lowerHexDigit_hexDigitChar {c : Char} (h : lowerHexDigit c = true) :
    hexDigitChar c = true ∧ c ≠ '.' := by
  simp only [lowerHexDigit, hexDigitChar, Bool.or_eq_true, Bool.and_eq_true, decide_eq_true_eq] at h ⊢
  refine ⟨Or.inl h, ?_⟩
  rintro rfl
  revert h
  decide

/-- The digits of a digest. -/
theorem dropChars_sha256 {s : String} (h : sha256Revision s = true) :
    (dropChars 7 s).toList.length = 64 ∧ (dropChars 7 s).toList.all lowerHexDigit = true := by
  have hlength := (plain_sha256 h).2
  simp only [sha256Revision, Bool.and_eq_true] at h
  rw [dropChars, String.toList_ofList]
  exact ⟨by rw [List.length_drop, hlength], h.2⟩

theorem checked_evidence {hex suffix : String} (hlength : hex.toList.length = 64)
    (hhex : hex.toList.all lowerHexDigit = true)
    (hsuffix : suffix ∈ ["attempt.json", "result.json"]) :
    checked (DIRECTORY ++ "/" ++ hex ++ ("." ++ suffix)) = .ok () := by
  have hdigit : ∀ c ∈ hex.toList, lowerHexDigit c = true := List.all_eq_true.mp hhex
  have hplain : hex.toList.all plain = true :=
    List.all_eq_true.mpr fun c hc => plain_lowerHexDigit (hdigit c hc)
  have hsize : hex.utf8ByteSize = 64 := by
    rw [← byteCount_toList, byteCount_plain hplain, hlength]
  have hname : dropChars (DIRECTORY.length + 1) (DIRECTORY ++ "/" ++ hex ++ ("." ++ suffix)) =
      hex ++ ("." ++ suffix) := by
    have hfront : (DIRECTORY ++ "/").toList.length = DIRECTORY.length + 1 := by decide
    rw [dropChars, String.append_assoc, String.toList_append, ← hfront, List.drop_left,
      String.ofList_toList]
  have hsplit : splitOnce '.' (hex ++ ("." ++ suffix)) = some (hex, suffix) := by
    have hlist : (hex ++ ("." ++ suffix)).toList = hex.toList ++ '.' :: suffix.toList := by
      simp
    have hne : ∀ c ∈ hex.toList, decide (c ≠ '.') = true := fun c hc => by
      simpa using (lowerHexDigit_hexDigitChar (hdigit c hc)).2
    have hstop : (decide (('.' : Char) ≠ '.')) = false := by decide
    rw [splitOnce, hlist, List.dropWhile_append_of_pos hne, List.takeWhile_append_of_pos hne,
      List.dropWhile_cons, List.takeWhile_cons]
    simp
  have hfront : startsWith (DIRECTORY ++ "/") (DIRECTORY ++ "/" ++ hex ++ ("." ++ suffix)) = true := by
    have hlist : (DIRECTORY ++ "/" ++ hex ++ ("." ++ suffix)).toList =
        (DIRECTORY ++ "/").toList ++ (hex ++ ("." ++ suffix)).toList := by
      rw [String.append_assoc, String.toList_append]
    rw [startsWith, List.isPrefixOf_iff_prefix, hlist]
    exact List.prefix_append _ _
  have hall : hex.toList.all hexDigitChar = true :=
    List.all_eq_true.mpr fun c hc => (lowerHexDigit_hexDigitChar (hdigit c hc)).1
  simp only [checked, Except.bind_eq_ok_iff, check_eq_ok, okOr_eq_ok]
  refine ⟨(), hfront, (hex, suffix), ?_, hsize, hall, hsuffix⟩
  rw [hname]
  exact hsplit

theorem checked_paths (hhash : HashText host) (key : String) :
    checked (host.attemptPath key) = .ok () ∧ checked (host.resultPath key) = .ok () := by
  obtain ⟨hlength, hhex⟩ := dropChars_sha256 (hhash key.toByteArray)
  have hattempt := checked_evidence hlength hhex (show "attempt.json" ∈ _ by decide)
  have hresult := checked_evidence hlength hhex (show "result.json" ∈ _ by decide)
  exact ⟨hattempt, hresult⟩

theorem Effect.openRoot (e : Effect host) : host.openRoot e.requested = .ok () :=
  check_eq_ok.mpr e.bound

theorem Effect.boundRoot (e : Effect host) : host.boundRoot e.requested e.invocation = .ok () := by
  simp only [Host.boundRoot, Except.bind_eq_ok_iff, okOr_eq_ok, check_eq_ok]
  exact ⟨e.requested, e.requested_eq, (), e.openRoot, e.bound⟩

theorem reads_host {reference : Evidence} {bytes : ByteArray} {v : Value}
    (htarget : host.root = reference.target) (hchecked : checked reference.path = .ok ())
    (hfile : files[reference.path]? = some bytes)
    (hcheck : host.checkEvidence reference bytes = .ok v) :
    Reads files (evidence (host.read reference)) (.ok v) := by
  refine reads_evidence_step (check_pos htarget) ?_
  refine reads_evidence_step hchecked ?_
  refine reads_evidence_bind reads_evidence_read ?_
  refine reads_evidence_step (okOr_eq_ok.mpr hfile) ?_
  rw [← hcheck]
  exact reads_evidence_lift

variable {e : Effect host} {outcome : Value}

theorem reads_attempted (hhash : HashText host) (h : e.Attempted files) :
    Reads files (evidence (host.read e.attemptEvidence)) (.ok e.attempted.toValue) := by
  refine reads_host rfl (checked_paths hhash e.key).1 h ?_
  simp only [Host.checkEvidence, Except.bind_eq_ok_iff, check_eq_ok, okOr_eq_ok, fromSlice_toVec,
    Except.pure_eq_ok_iff]
  exact ⟨(), rfl, _, rfl, (), e.owner_eq, rfl⟩

theorem reads_committed (hhash : HashText host) (h : e.Committed outcome files) :
    Reads files (evidence (host.read (e.resultEvidence outcome)))
      (.ok (e.completed outcome).toValue) := by
  refine reads_host rfl (checked_paths hhash e.key).2 h ?_
  simp only [Host.checkEvidence, Except.bind_eq_ok_iff, check_eq_ok, okOr_eq_ok, fromSlice_toVec,
    Except.pure_eq_ok_iff]
  exact ⟨(), rfl, _, rfl, (), e.owner_eq, rfl⟩

/-! ## Admission -/

/-- Custody of an attempt that is not committed. -/
def Effect.custody (e : Effect host) : Custody := ⟨e.attemptEvidence, none⟩

/-- Custody of a committed attempt. -/
def Effect.settled (e : Effect host) (outcome : Value) : Custody :=
  ⟨e.attemptEvidence, some (e.resultEvidence outcome)⟩

/-- The decision returns the invocation. -/
def Effect.Ready (e : Effect host) (decision : Value) : Prop :=
  e.invocation.field "kind" = .string INVOCATION_KIND ∧ exactCurrent decision e.invocation

theorem Effect.Ready.admits {decision : Value} (h : e.Ready decision) :
    ∃ result, admitInvocation decision e.invocation none = .ok result := by
  refine ⟨.object [("disposition", .string "execute"),
    ("kind", .string "agentic-workspace/invocation-admission/v1")], ?_⟩
  simp only [admitInvocation, Except.bind_eq_ok_iff, check_eq_ok, Except.pure_eq_ok_iff, h.1,
    Value.asStr]
  exact ⟨(), trivial, (), by simp, (), Or.inr h.2, (), by simp, rfl⟩

theorem admitAttempt_fresh {decision : Value} (h : e.Ready decision) :
    Attempt.admitAttempt host.digest decision e.invocation none = .ok ⟨.execute, e.attempted⟩ := by
  obtain ⟨result, hresult⟩ := h.admits
  simp only [Attempt.admitAttempt, transposeM, Except.bind_eq_ok_iff, Except.pure_eq_ok_iff]
  exact ⟨none, rfl, result, hresult, e.attempted, Effect.fresh_attempted, rfl⟩

def Effect.admitInput (e : Effect host) (decision : Value) (custody : Option Custody) : AdmitInput where
  target := e.requested
  decision := decision
  invocation := e.invocation
  custody := custody

/-- A new file of evidence. -/
theorem create_guards {path owner : String} {record : Value} (hchecked : checked path = .ok ())
    (howner : ((record.field "invocation").field "source_owner").asStr = some owner)
    (hnone : files[path]? = none) {I : Files → Prop} {Q : Result Evidence → Files → Prop}
    (hI : I files) (hI' : I (files.insert path (toVec record)))
    (hQ : Q (.ok ⟨host.root, path, owner, host.hash (toVec record)⟩)
      (files.insert path (toVec record))) :
    Guards exec 0 I (evidence (host.create path record)) Q files := by
  have habsent : path ∉ files := by
    rw [Std.ExtTreeMap.mem_iff_isSome_getElem?, hnone]
    simp
  unfold Host.create
  refine evidence_step_guards hchecked hI ?_
  rw [evidence_bind]
  have hcreate : Guards exec 0 I (evidence (createFile path (toVec record)))
      (fun r s => r = .ok true ∧ s = files.insert path (toVec record)) files := by
    refine guards_step_bind hI ?_
    simp only [exec, if_neg habsent]
    exact guards_pure hI' ⟨rfl, rfl⟩
  refine guards_bind (hcreate.mono (fun _ h => h) ?_)
  rintro _ s - ⟨rfl, rfl⟩
  refine evidence_step_guards (check_pos rfl) hI' ?_
  refine evidence_step_guards (okOr_eq_ok.mpr howner) hI' ?_
  exact guards_pure hI' hQ

/-- A first admission makes the attempt. -/
theorem admit_guards (hhash : HashText host) {decision : Value} (hready : e.Ready decision)
    (hattempt : files[e.attemptPath]? = none) (hresult : files[e.resultPath]? = none)
    {I : Files → Prop} {Q : Result (Admission × Custody) → Files → Prop} (hI : I files)
    (hI' : I (files.insert e.attemptPath (toVec e.attempted.toValue)))
    (hQ : Q (.ok (⟨.execute, e.attempted⟩, e.custody))
      (files.insert e.attemptPath (toVec e.attempted.toValue))) :
    Guards exec 0 I (evidence (host.admitAttempt (e.admitInput decision none))) Q files := by
  unfold Host.admitAttempt
  refine evidence_step_guards Effect.names hI ?_
  refine evidence_step_guards e.boundRoot hI ?_
  refine evidence_step_guards (admitAttempt_fresh hready) hI ?_
  have hpresent : Reads files (evidence (present e.resultPath)) (.ok false) := by
    have h := @reads_evidence_present files e.resultPath
    rw [hresult] at h
    exact h
  unfold Host.acquire
  rw [evidence_bind]
  refine guards_bind ?_
  refine evidence_step_guards (checked_paths hhash e.key).2 hI ?_
  refine reads_evidence_guards hpresent hI ?_
  refine evidence_step_guards (check_pos rfl) hI ?_
  rw [evidence_bind]
  refine guards_bind ?_
  have howner : ((e.attempted.toValue.field "invocation").field "source_owner").asStr =
      some e.owner := e.owner_eq
  exact create_guards (checked_paths hhash e.key).1 howner hattempt hI hI' (guards_pure hI'
    (guards_pure hI' hQ))

/-- An error, before steps that are then not taken. -/
theorem evidence_lift_guards {r : Result α} {f : α → AttemptStore.StoreM β} {I : Files → Prop}
    {Q : Result β → Files → Prop} (hI : I files)
    (hok : ∀ a, r = .ok a → Guards exec 0 I (evidence (f a)) Q files)
    (herror : ∀ error, r = .error error → Q (.error error) files) :
    Guards exec 0 I (evidence ((liftM r : AttemptStore.StoreM α) >>= f)) Q files := by
  rw [evidence_bind]
  exact reads_bind_guards reads_evidence_lift hI hok herror

/-- No file of evidence is made where one is. -/
theorem create_refused {path : String} {record : Value} (hpath : path ∈ files) {I : Files → Prop}
    {Q : Result Evidence → Files → Prop} (hI : I files) (hQ : ∀ error, Q (.error error) files) :
    Guards exec 0 I (evidence (host.create path record)) Q files := by
  unfold Host.create
  refine evidence_lift_guards hI (fun _ _ => ?_) fun error _ => hQ error
  rw [evidence_bind]
  have hcreate : Guards exec 0 I (evidence (createFile path (toVec record)))
      (fun r s => r = .ok false ∧ s = files) files := by
    refine guards_step_bind hI ?_
    simp only [exec, if_pos hpath]
    exact guards_pure hI ⟨rfl, rfl⟩
  refine guards_bind (hcreate.mono (fun _ h => h) ?_)
  rintro _ s - ⟨rfl, rfl⟩
  refine evidence_lift_guards hI (fun _ hcheck => ?_) fun error _ => hQ error
  have hfalse := check_eq_ok.mp hcheck
  cases hfalse

/-- An attempt that exists is not admitted again without its custody. -/
theorem admit_refused {decision : Value} (hpath : e.attemptPath ∈ files) {I : Files → Prop}
    {Q : Result (Admission × Custody) → Files → Prop} (hI : I files)
    (hQ : ∀ error, Q (.error error) files) :
    Guards exec 0 I (evidence (host.admitAttempt (e.admitInput decision none))) Q files := by
  unfold Host.admitAttempt
  refine evidence_step_guards Effect.names hI ?_
  refine evidence_step_guards e.boundRoot hI ?_
  refine evidence_lift_guards hI (fun admission hadmission => ?_) fun error _ => hQ error
  rw [evidence_bind]
  refine guards_bind ?_
  unfold Host.acquire
  refine evidence_lift_guards hI (fun _ _ => ?_) fun error _ => hQ error
  refine reads_evidence_guards reads_evidence_present hI ?_
  refine evidence_lift_guards hI (fun _ _ => ?_) fun error _ => hQ error
  rw [evidence_bind]
  refine guards_bind ?_
  exact create_refused hpath hI fun error => hQ error

/-- With custody, the record decides whether the attempt is uncertain or replayed. -/
theorem reads_admit {decision : Value} {custody : Custody} {record : Attempt.Record}
    {admission : Admission}
    (hretained : Reads files (evidence (host.retained e.attemptPath e.resultPath custody))
      (.ok record.toValue))
    (hadmission : Attempt.admitAttempt host.digest decision e.invocation (some record.toValue) =
      .ok admission) :
    Reads files (evidence (host.admitAttempt (e.admitInput decision (some custody))))
      (.ok (admission, custody)) := by
  unfold Host.admitAttempt
  refine reads_evidence_step Effect.names ?_
  refine reads_evidence_step e.boundRoot ?_
  refine reads_evidence_bind hretained ?_
  refine reads_evidence_step hadmission ?_
  exact reads_pure

/-- The decision still has the operation of the retained invocation. -/
def Effect.Kept (e : Effect host) (decision : Value) : Prop :=
  e.invocation.field "kind" = .string INVOCATION_KIND ∧
    retainedCurrent decision e.invocation e.invocation

theorem Effect.Kept.admits {decision : Value} (h : e.Kept decision) :
    ∃ result, admitInvocation decision e.invocation (some e.invocation) = .ok result := by
  refine ⟨.object [("disposition", .string "replay"),
    ("kind", .string "agentic-workspace/invocation-admission/v1")], ?_⟩
  simp only [admitInvocation, Except.bind_eq_ok_iff, check_eq_ok, Except.pure_eq_ok_iff, h.1,
    Value.asStr]
  refine ⟨(), trivial, (), ?_, (), Or.inl trivial, (), ?_, rfl⟩
  · intro p hp
    rw [← Option.some.inj hp]
    exact h.2
  · intro p hp
    rw [← Option.some.inj hp]

theorem admitAttempt_retained {decision : Value} (h : e.Kept decision) {record : Attempt.Record}
    (hread : readRecord host.digest record.toValue = .ok record)
    (hinvocation : record.invocation = e.invocation) :
    Attempt.admitAttempt host.digest decision e.invocation (some record.toValue) =
      .ok ⟨disposition (some record), record⟩ := by
  obtain ⟨result, hresult⟩ := h.admits
  simp only [Attempt.admitAttempt, Except.bind_eq_ok_iff, Except.pure_eq_ok_iff]
  refine ⟨some record, ?_, result, ?_, record, rfl, rfl⟩
  · rw [transposeM, hread]
    rfl
  · rw [Option.map_some, hinvocation]
    exact hresult

/-- An attempt without its result is uncertain. -/
theorem reads_admit_uncertain (hhash : HashText host) {decision : Value} (hkept : e.Kept decision)
    (hattempted : e.Attempted files) :
    Reads files (evidence (host.admitAttempt (e.admitInput decision (some e.custody))))
      (.ok (⟨.uncertain, e.attempted⟩, e.custody)) := by
  refine reads_admit ?_ (admitAttempt_retained hkept Effect.readRecord_attempted rfl)
  unfold Host.retained
  refine reads_evidence_step (check_pos rfl) ?_
  exact reads_evidence_bind (reads_attempted hhash hattempted) reads_pure

/-- A committed attempt is replayed. -/
theorem reads_admit_replay (hhash : HashText host) {decision : Value} (hkept : e.Kept decision)
    (hattempted : e.Attempted files) (hallows : e.Allows outcome)
    (hcommitted : e.Committed outcome files) :
    Reads files (evidence (host.admitAttempt (e.admitInput decision (some (e.settled outcome)))))
      (.ok (⟨.replay, e.completed outcome⟩, e.settled outcome)) := by
  refine reads_admit ?_ (admitAttempt_retained hkept (Effect.readRecord_completed hallows) rfl)
  unfold Host.retained
  refine reads_evidence_step (check_pos rfl) ?_
  refine reads_evidence_bind (reads_attempted hhash hattempted) ?_
  refine reads_evidence_step (check_pos rfl) ?_
  refine reads_evidence_bind (reads_committed hhash hcommitted) ?_
  exact reads_evidence_step (check_pos ⟨rfl, rfl⟩) reads_pure

/-! ## Commits -/

theorem reads_planned (hhash : HashText host) (hattempted : e.Attempted files)
    (hallows : e.Allows outcome) {committed : Option Evidence} :
    Reads files (evidence (host.planned ⟨e.requested, ⟨e.attemptEvidence, committed⟩, outcome⟩))
      (.ok (e.completed outcome, e.resultPath)) := by
  unfold Host.planned
  refine reads_evidence_step e.openRoot ?_
  refine reads_evidence_bind (reads_attempted hhash hattempted) ?_
  refine reads_evidence_step e.boundRoot ?_
  refine reads_evidence_step (Effect.names (e := e)) ?_
  refine reads_evidence_step (check_pos rfl) ?_
  refine reads_evidence_step (Effect.commit_attempted hallows) ?_
  exact reads_pure

/-- The result is not there, or it is the one that the outcome commits. -/
def Effect.Open (e : Effect host) (outcome : Value) (files : Files) : Prop :=
  files[e.resultPath]? = none ∨ e.Committed outcome files

theorem reads_prepareCommit (hhash : HashText host) (hattempted : e.Attempted files)
    (hallows : e.Allows outcome) (hopen : e.Open outcome files) {committed : Option Evidence}
    (hcommitted : ∀ existing ∈ committed, existing = e.resultEvidence outcome) :
    Reads files
      (evidence (host.prepareCommit ⟨e.requested, ⟨e.attemptEvidence, committed⟩, outcome⟩))
      (.ok (e.completed outcome, e.settled outcome)) := by
  unfold Host.prepareCommit
  refine reads_evidence_bind (reads_planned hhash hattempted hallows) ?_
  refine reads_evidence_step (checked_paths hhash e.key).2 ?_
  refine reads_evidence_bind reads_evidence_present ?_
  rcases hopen with hnone | hcommit
  · show Reads files (evidence (if files[e.resultPath]?.isSome = true then _ else _)) _
    rw [hnone]
    exact reads_evidence_step (check_pos hcommitted) reads_pure
  · show Reads files (evidence (if files[e.resultPath]?.isSome = true then _ else _)) _
    rw [hcommit]
    refine reads_evidence_bind (reads_committed hhash hcommit) ?_
    refine reads_evidence_step (check_pos rfl) ?_
    exact reads_evidence_step (check_pos hcommitted) reads_pure

/-- A commit makes the result. -/
theorem commit_guards (hhash : HashText host) (hattempted : e.Attempted files)
    (hallows : e.Allows outcome) (hnone : files[e.resultPath]? = none) {I : Files → Prop}
    {Q : Result (Attempt.Record × Custody) → Files → Prop} (hI : I files)
    (hI' : I (files.insert e.resultPath (toVec (e.completed outcome).toValue)))
    (hQ : Q (.ok (e.completed outcome, e.settled outcome))
      (files.insert e.resultPath (toVec (e.completed outcome).toValue))) :
    Guards exec 0 I (evidence (host.commit ⟨e.requested, e.custody, outcome⟩)) Q files := by
  unfold Host.commit
  refine reads_evidence_guards (reads_planned hhash hattempted hallows) hI ?_
  show Guards exec 0 I (evidence (host.create e.resultPath (e.completed outcome).toValue >>= _)) Q files
  rw [evidence_bind]
  refine guards_bind ?_
  have howner : (((e.completed outcome).toValue.field "invocation").field "source_owner").asStr =
      some e.owner := e.owner_eq
  exact create_guards (checked_paths hhash e.key).2 howner hnone hI hI' (guards_pure hI' hQ)

/-- A commit with custody of the result changes nothing. -/
theorem reads_commit (hhash : HashText host) (hattempted : e.Attempted files)
    (hallows : e.Allows outcome) (hcommitted : e.Committed outcome files) :
    Reads files (evidence (host.commit ⟨e.requested, e.settled outcome, outcome⟩))
      (.ok (e.completed outcome, e.settled outcome)) := by
  unfold Host.commit
  refine reads_evidence_bind (reads_planned hhash hattempted hallows) ?_
  refine reads_evidence_step (check_pos rfl) ?_
  refine reads_evidence_bind (reads_committed hhash hcommitted) ?_
  refine reads_evidence_step (check_pos rfl) ?_
  exact reads_pure

theorem reads_inspectCommitted (hhash : HashText host) (hattempted : e.Attempted files)
    (hallows : e.Allows outcome) (hcommitted : e.Committed outcome files) :
    Reads files (evidence (host.inspectCommitted ⟨e.requested, e.settled outcome⟩))
      (.ok (e.completed outcome).toValue) := by
  unfold Host.inspectCommitted
  refine reads_evidence_step e.openRoot ?_
  refine reads_evidence_bind (reads_attempted hhash hattempted) ?_
  refine reads_evidence_step e.boundRoot ?_
  refine reads_evidence_step (Effect.names (e := e)) ?_
  refine reads_evidence_step (okOr_eq_ok.mpr rfl) ?_
  refine reads_evidence_step (check_pos ⟨rfl, rfl⟩) ?_
  refine reads_evidence_bind (reads_committed hhash hcommitted) ?_
  refine reads_evidence_step (Effect.commit_attempted hallows) ?_
  exact reads_evidence_step (check_pos rfl) reads_pure

/-! ## Custody as a value -/

def evidenceValue (r : Evidence) : Value := .object [("owner", .string r.owner),
  ("path", .string r.path), ("revision", .string r.revision), ("target", .string r.target)]

def custodyValue (c : Custody) : Value := .object [("attempt", evidenceValue c.attempt),
  ("committed", .orNull (c.committed.map evidenceValue))]

def readEvidence (v : Value) : Result Evidence := do
  let field ← okOr (v.structFields ["target", "path", "owner", "revision"]) MALFORMED
  let target ← okOr ((field "target").bind Value.asStr) MALFORMED
  let path ← okOr ((field "path").bind Value.asStr) MALFORMED
  let owner ← okOr ((field "owner").bind Value.asStr) MALFORMED
  let revision ← okOr ((field "revision").bind Value.asStr) MALFORMED
  pure { target, path, owner, revision }

def readCustody (v : Value) : Result Custody := do
  let field ← okOr (v.structFields ["attempt", "committed"]) MALFORMED
  let attempt ← okOr (field "attempt") MALFORMED
  let attempt ← readEvidence attempt
  let committed ← transposeM readEvidence ((field "committed").filter (· ≠ .null))
  pure { attempt, committed }

theorem readEvidence_value (r : Evidence) : readEvidence (evidenceValue r) = .ok r := rfl

theorem readCustody_value (c : Custody) : readCustody (custodyValue c) = .ok c := by
  obtain ⟨attempt, committed⟩ := c
  cases committed with
  | none => rfl
  | some committed => rfl

/-! ## The size of a result -/

theorem byteCount_print_string {s : String} (h : s.toList.all plain = true) :
    byteCount (print escape (.string s)) = s.toList.length + 2 := by
  rw [print, byteCount_quote h]

/-- A result is little more than its invocation and its outcome. -/
theorem completed_size (hdigest : ∀ v, sha256Revision (host.digest v) = true) :
    (toVec (e.completed outcome).toValue).size ≤
      (toVec (.object [("invocation", e.invocation), ("outcome", outcome)])).size + 512 := by
  have hid : byteCount (quote escape e.attemptId) = 81 := by
    have hplain := (plain_sha256 (hdigest (.object [("attempt", .ofNat 1),
      ("effect", .string e.key)])))
    have hall : e.attemptId.toList.all plain = true := by
      rw [Effect.attemptId, String.toList_append, List.all_append, hplain.1]
      decide
    rw [byteCount_quote hall, Effect.attemptId, String.toList_append, List.length_append, hplain.2]
    decide
  have hrevision : byteCount (quote escape (e.completed outcome).recordRevision) = 73 := by
    have hplain := plain_sha256 (hdigest (.object [("attempt_id", .string e.attemptId),
      ("invocation", e.invocation), ("kind", .string KIND), ("outcome", outcome)]))
    exact (byteCount_quote hplain.1).trans (by rw [hplain.2])
  have hkind : byteCount (quote escape KIND) = 37 := by
    rw [byteCount_quote (by decide)]
    decide
  have h₁ : byteCount (quote escape "attempt_id") = 12 := by rw [byteCount_quote (by decide)]; decide
  have h₂ : byteCount (quote escape "invocation") = 12 := by rw [byteCount_quote (by decide)]; decide
  have h₃ : byteCount (quote escape "kind") = 6 := by rw [byteCount_quote (by decide)]; decide
  have h₄ : byteCount (quote escape "outcome") = 9 := by rw [byteCount_quote (by decide)]; decide
  have h₅ : byteCount (quote escape "record_revision") = 17 := by
    rw [byteCount_quote (by decide)]
    decide
  have hvalue : (e.completed outcome).toValue = .object [("attempt_id", .string e.attemptId),
      ("invocation", e.invocation), ("kind", .string KIND), ("outcome", outcome),
      ("record_revision", .string (e.completed outcome).recordRevision)] := rfl
  have hcomma : ','.utf8Size = 1 := by decide
  have hcolon : ':'.utf8Size = 1 := by decide
  have hopen : '\x7b'.utf8Size = 1 := by decide
  have hclose : '\x7d'.utf8Size = 1 := by decide
  rw [toVec_size, toVec_size, hvalue]
  simp only [print, printMembers, byteCount_cons, byteCount_append, byteCount_nil, h₁, h₂, h₃, h₄, h₅,
    hid, hrevision, hkind, hcomma, hcolon, hopen, hclose]
  omega

end AgenticCore.Repository
