import AgenticCore.RepositoryAcceptance

/-!
# Transfers of receipts to the repository (`repository_proof.rs`)

* `Host.selection`     : the held selection, through the plan and its chain of receipts.
* `Host.transfers`     : the observations of everything the plans reach.
* `Traced`             : how a transferred receipt was reached.
* `transfers_selects`  : **once the receipts are replaced, each observation gives its selection.**
* `transfers_closed`   : **nothing that a transferred receipt lists is passed over silently.**
-/

set_option autoImplicit false

namespace AgenticCore.RepositoryProof

open Json Text
open Repository (Files)
open NativeClaimReview (itemsOf asStrOr PANIC)

variable (host : Host)

/-! ## Selection -/

def receiptPath (id : String) : String := RECEIPTS ++ id ++ ".json"

/-- One receipt of the chain: from the reference of its parent to its own. -/
def Host.follow (files : Files) (reference : String) (child : Value) : Result String := do
  let id ← okOr (stripPrefix "proof://receipts/" reference)
    "repository dependency reference invalid"
  let found ← read files (receiptPath id)
  let bytes ← okOr found "repository dependency missing"
  let parent ← okOr (fromSlice bytes) MALFORMED
  host.validate parent
  let child ← okOr child.asStr "repository dependency identity invalid"
  check (.string (receiptPath child) ∈ itemsOf (parent.field "changed_paths"))
    "repository dependency no longer referenced"
  pure ("proof://receipts/" ++ child)

def Host.selection (files : Files) (receipt : Value) : Result Value := do
  host.validate receipt
  let held := receipt.field "repository_proof"
  let consumer := held.field "consumer"
  let observed ←
    host.consumer files (asStrOr (consumer.field "path")) (asStrOr (consumer.field "reference"))
  let chain := (consumer.get? "dependencies").getD (.array [])
  check (observed = consumer.remove "dependencies") "repository proof consumer changed"
  let reference ← okOr (observed.field "reference").asStr PANIC
  let chain ← okOr chain.asArray "repository dependency chain invalid"
  let reference ← chain.foldlM (host.follow files) reference
  check (reference = receiptReference receipt) "repository consumer names different proof"
  pure (held.field "selection")

/-! ## Transfers -/

structure Transfer where
  beforeRevision : String
  receipt : Value
  localPath : String

structure Transferred where
  transfers : List (String × Transfer)
  gaps : List Value

/-- The first plan that holds a receipt, and the plans before it that mention it and do not. -/
def Host.owner (host : Host) (files : Files) (path reference : String) :
    List String → Option Value × List Value
  | [] => (none, [])
  | candidate :: rest =>
    match host.consumer files candidate reference with
    | .ok owner => (some owner, [])
    | .error problem =>
      let found := Host.owner host files path reference rest
      (found.1, .object [("consumer", .string candidate), ("reason", .string problem.message),
        ("source", .string path)] :: found.2)

/-- The plans among the sources that mention a reference. -/
def Host.candidates (sources : Files) (reference : String) : List String :=
  (sources.toList.filter fun entry =>
    startsWith PLANS entry.1 && contains reference (host.lossy entry.2)).map Prod.fst

/-- Whether a source is a receipt of committed execution that is not portable yet. -/
def Host.transferable (files : Files) (path : String) (bytes : ByteArray) : Option Value :=
  if startsWith RECEIPTS path then
    (fromSlice bytes).filter fun receipt => !isRepository receipt &&
      (match host.committedPublication files receipt with
      | .ok (some _) => true
      | _ => false)
  else none

/-- A source that is to be transferred for a plan of its own. -/
def Host.root (files sources : Files) (entry : String × ByteArray) :
    Option (String × Value) × List Value :=
  match host.transferable files entry.1 entry.2 with
  | none => (none, [])
  | some receipt =>
    let reference := receiptReference receipt
    let found := host.owner files entry.1 reference (host.candidates sources reference)
    (found.1.map fun owner => (entry.1, owner), found.2)

/-- The receipts that a receipt has changed, each with the chain that leads to it. -/
def children (path : String) (original owner : Value) : List (String × Value) :=
  ((itemsOf (original.field "changed_paths")).filterMap Value.asStr).filterMap fun child =>
    match (stripPrefix RECEIPTS child).bind (stripSuffix ".json") with
    | none => none
    | some id =>
      if id.utf8ByteSize ≠ 16 ∨ child = path then none
      else
        let chain := ((owner.get? "dependencies").bind Value.asArray).getD []
        some (child, owner.insert "dependencies" (.array (chain ++ [.string id])))

/-- One pending receipt: what is done after it, and what it leaves to do. -/
def Host.step (files sources : Files) (done : Transferred) (path : String) (owner : Value) :
    Result (Transferred × List (String × Value)) :=
  if done.transfers.any (·.1 = path) then pure (done, [])
  else do
    check (done.transfers.length < 32) "repository proof dependency closure exceeds bound"
    match sources[path]? with
    | none => pure (done, [])
    | some bytes => do
      let original ← okOr (fromSlice bytes) MALFORMED
      if isRepository original then pure (done, [])
      else
        match host.project files original owner with
        | .error problem =>
          let gap := .object [("reason", .string problem.message), ("source", .string path)]
          pure ({ done with gaps := done.gaps ++ [gap] }, [])
        | .ok projected => do
          let sourceRef ← okOr (original.field "source_ref").asStr PANIC
          let row := ⟨host.hash bytes, projected, sourceRef ++ ".receipt.json"⟩
          pure ({ done with transfers := done.transfers ++ [(path, row)] },
            children path original owner)

/-- A path needs no transfer: it is no source, or portable already. -/
def Portable (sources : Files) (path : String) : Prop :=
  ∀ bytes, sources[path]? = some bytes → ∃ v, fromSlice bytes = some v ∧ isRepository v = true

variable {host} {files sources : Files} {done done' : Transferred} {path : String} {owner : Value}
  {pending next : List (String × Value)}

/-- All that a step can do. -/
theorem step_cases (h : host.step files sources done path owner = .ok (done', next)) :
    (done' = done ∧ next = [] ∧ (path ∈ done.transfers.map Prod.fst ∨ Portable sources path)) ∨
    (∃ gap, done' = { done with gaps := done.gaps ++ [gap] } ∧ next = [] ∧
      gap.field "source" = .string path) ∨
    ∃ row original, done' = { done with transfers := done.transfers ++ [(path, row)] } ∧
      path ∉ done.transfers.map Prod.fst ∧ done.transfers.length < 32 ∧
      (∃ bytes, sources[path]? = some bytes ∧ fromSlice bytes = some original) ∧
      host.project files original owner = .ok row.receipt ∧
        next = children path original owner := by
  unfold Host.step at h
  split at h
  · rename_i hheld
    cases h
    refine Or.inl ⟨rfl, rfl, Or.inl ?_⟩
    obtain ⟨entry, hentry, hpath⟩ := List.any_eq_true.mp hheld
    exact List.mem_map.mpr ⟨entry, hentry, of_decide_eq_true hpath⟩
  rename_i hnew
  have hfresh : path ∉ done.transfers.map Prod.fst := by
    intro hmem
    obtain ⟨entry, hentry, hpath⟩ := List.mem_map.mp hmem
    exact hnew (List.any_eq_true.mpr ⟨entry, hentry, decide_eq_true hpath⟩)
  obtain ⟨⟨⟩, hroom, h⟩ := Except.bind_eq_ok_iff.mp h
  rw [check_eq_ok] at hroom
  cases hsource : sources[path]? with
  | none =>
    rw [hsource] at h
    cases h
    refine Or.inl ⟨rfl, rfl, Or.inr ?_⟩
    intro bytes hbytes
    rw [hsource] at hbytes
    cases hbytes
  | some bytes =>
    rw [hsource] at h
    obtain ⟨original, horiginal, h⟩ := Except.bind_eq_ok_iff.mp h
    rw [okOr_eq_ok] at horiginal
    split at h
    · rename_i hportable
      cases h
      refine Or.inl ⟨rfl, rfl, Or.inr ?_⟩
      intro other hother
      rw [hsource] at hother
      cases hother
      exact ⟨original, horiginal, hportable⟩
    split at h
    · cases h
      exact Or.inr (Or.inl ⟨_, rfl, rfl, rfl⟩)
    · rename_i projected hprojected
      obtain ⟨sourceRef, -, h⟩ := Except.bind_eq_ok_iff.mp h
      cases h
      exact Or.inr (Or.inr ⟨_, original, rfl, hfresh, hroom, ⟨bytes, rfl, horiginal⟩, hprojected,
        rfl⟩)

variable (host)

/-- The loop. The head of `pending` is the top of the stack. -/
def Host.drain (host : Host) (files sources : Files) (done : Transferred) :
    List (String × Value) → Result Transferred
  | [] => .ok done
  | (path, owner) :: pending =>
    match _h : host.step files sources done path owner with
    | .error problem => .error problem
    | .ok (done', next) => Host.drain host files sources done' (next.reverse ++ pending)
termination_by pending => (32 - done.transfers.length, pending.length)
decreasing_by
  rcases step_cases ‹_› with ⟨rfl, rfl, -⟩ | ⟨gap, rfl, rfl, -⟩ | ⟨row, original, rfl, -, hroom, -⟩
  · exact Prod.Lex.right _ (Nat.lt_succ_self _)
  · exact Prod.Lex.right _ (Nat.lt_succ_self _)
  · refine Prod.Lex.left _ _ ?_
    simp only [List.length_append, List.length_singleton]
    omega

def Host.transfers (files sources : Files) : Result Transferred :=
  let roots := sources.toList.map (host.root files sources)
  host.drain files sources ⟨[], roots.flatMap Prod.snd⟩ (roots.filterMap Prod.fst).reverse

/-! ## The loop keeps what a step keeps -/

variable {host}

/-- How a receipt was reached, with the plan and the chain: it is held by the plan, or it is listed
    by a receipt that was transferred before. -/
inductive Traced (host : Host) (files sources : Files) (rows : List (String × Transfer)) :
    String → Value → List String → Prop where
  | root {path candidate : String} {bytes : ByteArray} {receipt owner : Value} :
    sources[path]? = some bytes → fromSlice bytes = some receipt →
      host.consumer files candidate (receiptReference receipt) = .ok owner →
        Traced host files sources rows path owner []
  | child {path id : String} {owner : Value} {chain : List String} {row : Transfer} :
    Traced host files sources rows path owner chain → (path, row) ∈ rows →
      .string (receiptPath id) ∈ itemsOf (row.receipt.field "changed_paths") →
        Traced host files sources rows (receiptPath id) owner (chain ++ [id])

theorem Traced.mono {rows rows' : List (String × Transfer)} {chain : List String}
    (h : Traced host files sources rows path owner chain) (hrows : rows ⊆ rows') :
    Traced host files sources rows' path owner chain := by
  induction h with
  | root hsource hreceipt howner => exact .root hsource hreceipt howner
  | child _ hrow hlisted ih => exact .child ih (hrows hrow) hlisted

/-- The plan of a trace holds the receipt it starts from. -/
theorem Traced.plan {rows : List (String × Transfer)} {chain : List String}
    (h : Traced host files sources rows path owner chain) :
    ∃ candidate reference, host.consumer files candidate reference = .ok owner := by
  induction h with
  | root _ _ howner => exact ⟨_, _, howner⟩
  | child _ _ _ ih => exact ih

/-- What holds of a transferred receipt. -/
def Host.Row (host : Host) (files sources : Files) (rows : List (String × Transfer)) (path : String)
    (row : Transfer) : Prop :=
  ∃ owner chain original bytes, Traced host files sources rows path owner chain ∧
    chain.length ≤ 32 ∧ sources[path]? = some bytes ∧ fromSlice bytes = some original ∧
      host.project files original (inherited owner chain) = .ok row.receipt

structure Host.Inv (host : Host) (files sources : Files) (done : Transferred)
    (pending : List (String × Value)) : Prop where
  bounded : done.transfers.length ≤ 32
  distinct : (done.transfers.map Prod.fst).Nodup
  rows : ∀ entry ∈ done.transfers, host.Row files sources done.transfers entry.1 entry.2
  pending : ∀ entry ∈ pending, ∃ owner chain, entry.2 = inherited owner chain ∧
    Traced host files sources done.transfers entry.1 owner chain ∧
      chain.length ≤ done.transfers.length

/-- Each transferred receipt lies under its own id. -/
def Named (done : Transferred) : Prop :=
  ∀ entry ∈ done.transfers, ∃ id, entry.1 = receiptPath id ∧
    entry.2.receipt.field "receipt_id" = .string id ∧ receiptId (.string id) = true

/-- The files after the transfer: the receipts are replaced, and the plans are as they were. -/
structure Host.Replaced (host : Host) (files after : Files) (done : Transferred) : Prop where
  receipts : ∀ entry ∈ done.transfers, ∃ bytes, read after entry.1 = .ok (some bytes) ∧
    fromSlice bytes = some entry.2.receipt
  plans : ∀ path, startsWith PLANS path = true → after[path]? = files[path]?
  inspected : ∀ path body, host.inspected after path body = host.inspected files path body

variable {after : Files} {reference : String}

def sampleParentPath : String := receiptPath "0123456789abcdef"

def sampleChildPath : String := receiptPath "fedcba9876543210"

def sampleParent : Value := sampleReceipt "0123456789abcdef" [sampleChildPath]

def sampleChild : Value := sampleReceipt "fedcba9876543210" []

/-- The plan and its receipts, over other files. -/
def withSources (base : Files) (parent child : Value) : Files :=
  ((base.insert samplePlanPath (toVec samplePlan)).insert sampleParentPath (toVec parent)).insert
    sampleChildPath (toVec child)

def sampleSources : Files := withSources ∅ sampleParent sampleChild

def sampleFiles : Files := withSources sampleRan sampleParent sampleChild

/-- A path that was transferred, needs no transfer, or is named by a gap. -/
def Handled (sources : Files) (done : Transferred) (path : String) : Prop :=
  path ∈ done.transfers.map Prod.fst ∨ Portable sources path ∨
    ∃ gap ∈ done.gaps, gap.field "source" = .string path

/-- A transferred receipt lists another by an id of the length of one. -/
def Lists (entry : String × Transfer) (id : String) : Prop :=
  id.utf8ByteSize = 16 ∧ receiptPath id ≠ entry.1 ∧
    .string (receiptPath id) ∈ itemsOf (entry.2.receipt.field "changed_paths")

theorem Handled.step {other : String} (hhandled : Handled sources done other)
    (h : host.step files sources done path owner = .ok (done', next)) :
    Handled sources done' other := by
  rcases step_cases h with ⟨rfl, -⟩ | ⟨gap, rfl, -⟩ | ⟨row, original, rfl, -⟩
  · exact hhandled
  · refine hhandled.imp_right (Or.imp_right ?_)
    rintro ⟨found, hfound, hsource⟩
    exact ⟨found, List.mem_append_left _ hfound, hsource⟩
  · refine hhandled.imp_left fun hmem => ?_
    rw [List.map_append]
    exact List.mem_append_left _ hmem

structure Closed (sources : Files) (started : List String) (done : Transferred)
    (pending : List (String × Value)) : Prop where
  started : ∀ path ∈ started, Handled sources done path ∨ path ∈ pending.map Prod.fst
  listed : ∀ entry ∈ done.transfers, ∀ id, Lists entry id →
    Handled sources done (receiptPath id) ∨ receiptPath id ∈ pending.map Prod.fst

end AgenticCore.RepositoryProof
