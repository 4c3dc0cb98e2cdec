import AgenticCore.MemoryCandidates

/-!
# What a request on the candidate store computes

* `validate_eq_ok` : what the store accepts as a state.
* `computed_post`  : **the postimages of the operations**, one case for each.
* `viewAt_action`  : every action writes a computed postimage that the store accepts.
-/

set_option autoImplicit false

namespace AgenticCore.MemoryCandidates

open Json Text Interleaving

variable {host : Host}

/-! ## Checked content -/

/-- What `validate` accepts. -/
structure Host.Valid (host : Host) (state : Value) : Prop where
  rows : ∃ rows, (state.field "candidates").asArray = some rows ∧ rows.length ≤ COUNT ∧
    (∀ row ∈ rows, host.RowValid row) ∧ (rows.map (·.field "id")).Nodup
  kind : state.field "kind" = .string STATE_KIND
  members : ∃ members, state = .object members ∧ members.length = 2
  size : (toVec state).size ≤ BYTES

theorem validate_eq_ok {state : Value} {u : Unit} :
    host.validate state = .ok u ↔ host.Valid state := by
  simp only [Host.validate, Except.bind_eq_ok_iff, okOr_eq_ok, check_eq_ok, Option.filter_eq_some_iff,
    decide_eq_true_eq, Option.mem_def, asObject_eq_some]
  constructor
  · rintro ⟨rows, ⟨harray, hcount⟩, _, ⟨hkind, hmembers, hsize⟩, hrows, hids⟩
    exact ⟨⟨rows, harray, hcount, hrows, hids⟩, hkind, hmembers, hsize⟩
  · rintro ⟨⟨rows, harray, hcount, hrows, hids⟩, hkind, hmembers, hsize⟩
    exact ⟨rows, ⟨harray, hcount⟩, (), ⟨hkind, hmembers, hsize⟩, hrows, hids⟩

theorem admitted_toVec {limit : Nat} {v : Value} (hlimit : limit ≤ MAX_SOURCE_BYTES)
    (h : (toVec v).size ≤ limit) : admitted limit (some (toVec v)) = .ok (some (toVec v)) := by
  simp only [admitted, Except.bind_eq_ok_iff, check_eq_ok, Except.pure_eq_ok_iff]
  exact ⟨(), h.trans hlimit, (), fromUTF8_toVec v, (), h, trivial⟩

theorem admitted_ok {limit : Nat} {found bytes : Option ByteArray}
    (h : admitted limit found = .ok bytes) : bytes = found := by
  cases found with
  | none => exact (Except.ok.inj h).symm
  | some content =>
    simp only [admitted, Except.bind_eq_ok_iff, Except.pure_eq_ok_iff] at h
    obtain ⟨_, -, _, -, _, -, rfl⟩ := h
    rfl

theorem snapshot_toVec {state : Value} (h : host.Valid state) :
    host.snapshot (some (toVec state)) = .ok (state, .string (host.hash (toVec state))) := by
  simp only [Host.snapshot, Except.bind_eq_ok_iff, Except.pure_eq_ok_iff]
  refine ⟨_, admitted_toVec (by decide) h.size, state, ?_, (), validate_eq_ok.mpr h, rfl⟩
  rw [parsedState, fromSlice_toVec]
  rfl

theorem snapshot_ok {found : Option ByteArray} {state before : Value}
    (h : host.snapshot found = .ok (state, before)) :
    host.Valid state ∧ parsedState found = .ok state ∧
      before = .orNull (found.map fun b => .string (host.hash b)) := by
  simp only [Host.snapshot, Except.bind_eq_ok_iff, Except.pure_eq_ok_iff] at h
  obtain ⟨bytes, hbytes, state', hstate, u, hvalid, hpair⟩ := h
  cases hpair
  obtain rfl := admitted_ok hbytes
  exact ⟨validate_eq_ok.mp hvalid, hstate, rfl⟩

/-- The record that a publication of `post` keeps until it is over. -/
def Host.record (host : Host) (before post : Value) : Value :=
  preparedRecord before post (.string (host.digest post))

theorem pending_toVec {before post : Value} (h : host.Valid post)
    (hsize : (toVec (host.record before post)).size ≤ RESIDUE) :
    host.pending (some (toVec (host.record before post))) = .ok (some (host.record before post)) := by
  rw [Host.pending, Except.bind_eq_ok_iff]
  refine ⟨_, admitted_toVec (by decide) hsize, ?_⟩
  simp only [Except.bind_eq_ok_iff, okOr_eq_ok, fromSlice_toVec, Option.some.injEq, check_eq_ok,
    Except.pure_eq_ok_iff]
  exact ⟨_, rfl, (), validate_eq_ok.mpr h, (), ⟨rfl, ⟨_, rfl, rfl⟩, rfl⟩, rfl⟩

/-! ## The size of a record -/

/-- The revision of a file, or null. -/
def FileRevision (v : Value) : Prop :=
  v = .null ∨ ∃ s, v = .string s ∧ sha256Revision s = true

theorem byteCount_revision {v : Value} (h : FileRevision v) :
    byteCount (print escape v) ≤ 73 := by
  rcases h with rfl | ⟨s, rfl, hs⟩
  · decide
  · rw [print, byteCount_quote (plain_sha256 hs).1, (plain_sha256 hs).2]

theorem record_fits {before post : Value} (hbefore : FileRevision before)
    (hpost : (toVec post).size ≤ BYTES) :
    (toVec (host.record before post)).size ≤ RESIDUE := by
  have hdigest := host.digest_text post
  have hrevision : byteCount (quote escape (host.digest post)) = 73 := by
    rw [byteCount_quote (plain_sha256 hdigest).1, (plain_sha256 hdigest).2]
  have hkind : byteCount (quote escape PREPARED_KIND) = 38 := by
    rw [byteCount_quote (by decide)]
    decide
  have h₁ : byteCount (quote escape "before") = 8 := by rw [byteCount_quote (by decide)]; decide
  have h₂ : byteCount (quote escape "kind") = 6 := by rw [byteCount_quote (by decide)]; decide
  have h₃ : byteCount (quote escape "post_revision") = 15 := by
    rw [byteCount_quote (by decide)]
    decide
  have h₄ : byteCount (quote escape "postimage") = 11 := by
    rw [byteCount_quote (by decide)]
    decide
  have hlt := byteCount_revision hbefore
  have hcomma : ','.utf8Size = 1 := by decide
  have hcolon : ':'.utf8Size = 1 := by decide
  have hopen : '\x7b'.utf8Size = 1 := by decide
  have hclose : '\x7d'.utf8Size = 1 := by decide
  rw [toVec_size] at hpost ⊢
  simp only [Host.record, preparedRecord, print, printMembers, byteCount_cons, byteCount_append,
    byteCount_nil, h₁, h₂, h₃, h₄, hrevision, hkind, hcomma, hcolon, hopen, hclose]
  rw [show RESIDUE = BYTES + 4096 from rfl]
  linarith only [hlt, hpost]

/-! ## Postimages -/

variable {input : Input} {args state before postimage : Value} {prepared : Option Value}
  {view view' : View}

theorem considered_action {v : View} (h : considered input args state view = .ok (some v)) :
    v.action = view.action := by
  simp only [considered, Except.bind_eq_ok_iff] at h
  obtain ⟨ids, -, h⟩ := h
  split at h
  · cases h
    rfl
  split at h
  · cases h
    rfl
  split at h
  · split at h
    · obtain ⟨_, -, h⟩ := Except.bind_eq_ok_iff.mp h
      cases h
      rfl
    · cases h
      rfl
  · cases h

/-- The postimages of the operations. -/
inductive Host.Posts (host : Host) (input : Input) (args state before : Value) :
    Option Value → Value → Prop
  | recover (p : Value) (operation : operation args = some "recover")
      (current : before = p.field "before" ∨ p.field "post_revision" = .string (host.digest state)) :
      Posts host input args state before (some p) (p.field "postimage")
  | capture (finding row : Value) (kept : List Value) (operation : operation args = some "capture")
      (uncertainty : ∃ s ∈ (args.field "uncertainty").asStr, trim s ≠ "")
      (found : (findings input.material).find? (fun f =>
        f.field "revision" = args.field "material_revision") = some finding)
      (fresh : ∀ r ∈ rows state, r.field "event" ≠
        .string (host.event ((finding.field "material").remove "work")))
      (captured : host.capturedRow input args finding = .ok row)
      (fits : evict state ((rows state).filter (current · input.clock) ++ [row]) = some kept) :
      Posts host input args state before none (withRows state kept)
  | subtract (ids : List Value)
      (operation : operation args = some "discard" ∨ operation args = some "complete")
      (exact : (args.field "candidate_ids").asArray = some ids) :
      Posts host input args state before none
        (withRows state ((rows state).filter fun r => r.field "id" ∉ ids))
  | maintain (operation : operation args = some "maintain") :
      Posts host input args state before none
        (withRows state ((rows state).filter (current · input.clock)))
  | other (operation : operation args ∉
        [some "recover", some "capture", some "discard", some "complete", some "maintain"]) :
      Posts host input args state before none state

theorem capture_cases {c : Computed} (hop : operation args = some "capture")
    (h : host.capture input args state view = .ok c) :
    (∃ v, c = .answered v ∧ v.action = view.action) ∨
      ∃ post, c = .post post view ∧ host.Posts input args state before none post := by
  simp only [Host.capture, Except.bind_eq_ok_iff, check_eq_ok, okOr_eq_ok] at h
  obtain ⟨_, ⟨-, huncertain⟩, finding, hfound, h⟩ := h
  split at h
  · cases h
    exact Or.inl ⟨_, rfl, rfl⟩
  · rename_i hfresh
    obtain ⟨row, hrow, h⟩ := Except.bind_eq_ok_iff.mp h
    split at h
    · cases h
      exact Or.inl ⟨_, rfl, rfl⟩
    · rename_i kept hkept
      cases h
      refine Or.inr ⟨_, rfl, .capture finding row kept hop huncertain hfound ?_ hrow hkept⟩
      intro r hr heq
      have := List.find?_eq_none.mp hfresh r hr
      simp [heq] at this

theorem subtract_cases {c : Computed}
    (hop : operation args = some "discard" ∨ operation args = some "complete")
    (h : subtract input args state view = .ok c) :
    ∃ post v, c = .post post v ∧ v.action = view.action ∧
      host.Posts input args state before none post := by
  simp only [subtract, exactIds, Except.bind_eq_ok_iff, okOr_eq_ok, Option.filter_eq_some_iff] at h
  obtain ⟨ids, ⟨hids, -⟩, h⟩ := h
  have hpost : host.Posts input args state before none
      (withRows state ((rows state).filter fun r => r.field "id" ∉ ids)) := .subtract ids hop hids
  split at h
  · split at h
    · simp only [Except.bind_eq_ok_iff] at h
      obtain ⟨_, -, _, -, h⟩ := h
      cases h
      exact ⟨_, _, rfl, rfl, hpost⟩
    · simp only [Except.bind_eq_ok_iff] at h
      obtain ⟨_, -, h⟩ := h
      cases h
      exact ⟨_, _, rfl, rfl, hpost⟩
  · simp only [Except.bind_eq_ok_iff] at h
    obtain ⟨_, -, h⟩ := h
    cases h
    exact ⟨_, _, rfl, rfl, hpost⟩

theorem mutate_cases {c : Computed} (h : host.mutate input args state before prepared view = .ok c) :
    (∃ v, c = .answered v ∧ v.action = view.action) ∨
      ∃ post v, c = .post post v ∧ v.action = view.action ∧
        host.Posts input args state before prepared post := by
  unfold Host.mutate at h
  split at h
  · rename_i hop
    simp only [Host.recover, Except.bind_eq_ok_iff, okOr_eq_ok, check_eq_ok,
      Except.pure_eq_ok_iff] at h
    obtain ⟨p, rfl, _, hcurrent, rfl⟩ := h
    exact Or.inr ⟨_, _, rfl, rfl, .recover p hop hcurrent⟩
  rename_i hrecover
  split at h
  · cases h
    exact Or.inl ⟨_, rfl, rfl⟩
  rename_i hprepared
  obtain rfl : prepared = none := by simpa using hprepared
  split at h
  · rename_i hop
    rcases capture_cases hop h with hanswered | ⟨post, hc, hposts⟩
    · exact Or.inl hanswered
    · exact Or.inr ⟨post, _, hc, rfl, hposts⟩
  rename_i hcapture
  split at h
  · rename_i hop
    exact Or.inr (subtract_cases hop h)
  rename_i hsubtract
  split at h
  · rename_i hop
    cases h
    exact Or.inr ⟨_, _, rfl, rfl, .maintain hop⟩
  · rename_i hmaintain
    cases h
    refine Or.inr ⟨_, _, rfl, rfl, .other ?_⟩
    rw [not_or] at hsubtract
    simp [hrecover, hcapture, hsubtract, hmaintain]

theorem computed_cases {c : Computed}
    (h : host.computed input args state before prepared view = .ok c) :
    (∃ v, c = .answered v ∧ v.action = view.action) ∨
      ∃ post v, c = .post post v ∧ v.action = view.action ∧
        host.Posts input args state before prepared post := by
  unfold Host.computed at h
  obtain ⟨answer, hanswer, h⟩ := Except.bind_eq_ok_iff.mp h
  split at h
  · cases h
    unfold judged at hanswer
    split at hanswer
    · exact Or.inl ⟨_, rfl, considered_action hanswer⟩
    · cases hanswer
  split at h
  · cases h
    exact Or.inl ⟨_, rfl, rfl⟩
  split at h
  · obtain ⟨finding, -, h⟩ := Except.bind_eq_ok_iff.mp h
    cases h
    exact Or.inl ⟨_, rfl, rfl⟩
  · exact mutate_cases h

/-- What an action of a view writes: a computed postimage that the store accepts. -/
structure Host.Writes (host : Host) (files : Files) (input : Input) (action : Value) : Type where
  request : Value
  state : Value
  before : Value
  prepared : Option Value
  post : Value
  confirmation : Value
  requested : input.request = some request
  snapshot : host.snapshot (files .state) = .ok (state, before)
  pending : host.pending (files .prepared) = .ok prepared
  posts : host.Posts input (request.field "arguments") state before prepared post
  valid : host.Valid post
  changed : post = state → operation (request.field "arguments") = some "recover"
  action : action = host.action input request (host.binding before post prepared confirmation)

theorem viewAt_action {files : Files} {view : View} {action : Value}
    (h : host.viewAt files input = .ok (some view)) (haction : view.action = some action) :
    Nonempty (host.Writes files input action) := by
  unfold Host.viewAt at h
  obtain ⟨owner, -, h⟩ := Except.bind_eq_ok_iff.mp h
  split at h
  · cases h
  obtain ⟨⟨state, before⟩, hsnapshot, h⟩ := Except.bind_eq_ok_iff.mp h
  obtain ⟨prepared, hpending, h⟩ := Except.bind_eq_ok_iff.mp h
  split at h
  · cases h
    cases haction
  rename_i request hrequest
  obtain ⟨_, -, h⟩ := Except.bind_eq_ok_iff.mp h
  obtain ⟨computed, hcomputed, h⟩ := Except.bind_eq_ok_iff.mp h
  rcases computed_cases hcomputed with ⟨v, rfl, hv⟩ | ⟨post, v, rfl, hv, hposts⟩
  · cases h
    rw [hv] at haction
    cases haction
  obtain ⟨ready, hready, h⟩ := Except.bind_eq_ok_iff.mp h
  cases h
  unfold Host.ready at hready
  obtain ⟨_, hvalid, hready⟩ := Except.bind_eq_ok_iff.mp hready
  split at hready
  · cases hready
    rw [hv] at haction
    cases haction
  · rename_i hchanged
    cases hready
    cases haction
    refine ⟨⟨request, state, before, prepared, post, v.confirmation, hrequest, hsnapshot, hpending,
      hposts, validate_eq_ok.mp hvalid, ?_, rfl⟩⟩
    intro heq
    by_contra hop
    exact hchanged ⟨heq, hop⟩

end AgenticCore.MemoryCandidates
