import AgenticCore.MemoryRecovery

/-!
# Bounds of the local candidate store

* `Good`       : what holds of the rows of every state that a run of the store reaches.
* `posts_good` : every postimage of the store has such rows again.
* `bounded`    : **over every run of requests, each cut off anywhere**.
-/

set_option autoImplicit false

namespace AgenticCore.MemoryCandidates

open Json Text Interleaving

variable {host : Host}

/-- The state with the given rows. -/
def stateOf (rows : List Value) : Value :=
  .object [("candidates", .array rows), ("kind", .string STATE_KIND)]

@[simp] theorem rows_stateOf (rs : List Value) : rows (stateOf rs) = rs := rfl

@[simp] theorem withRows_stateOf (rs rs' : List Value) : withRows (stateOf rs) rs' = stateOf rs' := rfl

/-- Leaving rows out makes a state shorter. -/
theorem size_stateOf_sublist {rs rs' : List Value} (h : rs.Sublist rs') :
    (toVec (stateOf rs)).size ≤ (toVec (stateOf rs')).size := by
  have hrows := byteCount_array_sublist h
  rw [toVec_size, toVec_size]
  simp only [stateOf, print, printMembers, byteCount_cons, byteCount_append] at hrows ⊢
  linarith only [hrows]

/-- The rows of a state that a run reaches: within the bounds, and in the order of insertion. -/
structure Good (host : Host) (inserted rs : List Value) : Prop where
  row : ∀ row ∈ rs, host.RowValid row ∧ row.field "id" = row.field "event"
  ids : (rs.map (·.field "id")).Nodup
  count : rs.length ≤ COUNT
  size : (toVec (stateOf rs)).size ≤ BYTES
  order : rs.Sublist inserted

theorem Good.valid {inserted rs : List Value} (G : Good host inserted rs) :
    host.Valid (stateOf rs) :=
  ⟨⟨rs, rfl, G.count, fun row hrow => (G.row row hrow).1, G.ids⟩, rfl, ⟨_, rfl, rfl⟩, G.size⟩

theorem Good.nil : Good host [] [] where
  row := by simp
  ids := by simp
  count := Nat.zero_le _
  size := by
    rw [toVec_size]
    decide
  order := List.Sublist.refl _

theorem Good.sublist {inserted rs rs' : List Value} (G : Good host inserted rs)
    (h : rs'.Sublist rs) : Good host inserted rs' where
  row row hrow := G.row row (h.subset hrow)
  ids := (h.map _).nodup G.ids
  count := h.length_le.trans G.count
  size := (size_stateOf_sublist h).trans G.size
  order := h.trans G.order

theorem Good.mono {inserted rs : List Value} (G : Good host inserted rs) (more : List Value) :
    Good host (inserted ++ more) rs :=
  { G with order := G.order.trans (List.sublist_append_left _ _) }

/-! ## Captures -/

theorem evict_ok {state : Value} : ∀ {rs kept : List Value}, evict state rs = some kept →
    ∃ dropped, rs = dropped ++ kept ∧ kept ≠ [] ∧ kept.length ≤ COUNT ∧
      (toVec (withRows state kept)).size ≤ BYTES
  | [], _, h => by cases h
  | row :: rest, kept, h => by
    unfold evict at h
    split at h
    · split at h
      · cases h
      · obtain ⟨dropped, rfl, hkept⟩ := evict_ok h
        exact ⟨row :: dropped, rfl, hkept⟩
    · rename_i hfits
      cases h
      rw [not_or, not_lt, not_lt] at hfits
      exact ⟨[], rfl, List.cons_ne_nil _ _, hfits.1, hfits.2⟩

/-- An eviction keeps the last row. -/
theorem evict_append {state row : Value} {rs kept : List Value}
    (h : evict state (rs ++ [row]) = some kept) :
    ∃ dropped rest, rs = dropped ++ rest ∧ kept = rest ++ [row] ∧ kept.length ≤ COUNT ∧
      (toVec (withRows state kept)).size ≤ BYTES := by
  obtain ⟨dropped, hsplit, hne, hcount, hsize⟩ := evict_ok h
  obtain ⟨rest, last, rfl⟩ : ∃ rest last, kept = rest ++ [last] :=
    ⟨kept.dropLast, kept.getLast hne, (List.dropLast_append_getLast hne).symm⟩
  rw [← List.append_assoc] at hsplit
  obtain ⟨hrs, hlast⟩ := List.append_inj' hsplit rfl
  cases hlast
  exact ⟨dropped, rest, hrs, rfl, hcount, hsize⟩

theorem capturedRow_ok {input : Input} {args finding row : Value}
    (h : host.capturedRow input args finding = .ok row) :
    row.field "id" = .string (host.event ((finding.field "material").remove "work")) ∧
      row.field "event" = .string (host.event ((finding.field "material").remove "work")) ∧
      row.field "material" = (finding.field "material").remove "work" ∧
      row.field "uncertainty" = args.field "uncertainty" ∧
      (row.field "captured_at").asU64.isSome = true ∧
      (row.field "paths").asArray.isSome = true ∧
      (row.field "semantic_routes").asArray.isSome = true := by
  simp only [Host.capturedRow, Except.bind_eq_ok_iff, Except.pure_eq_ok_iff] at h
  obtain ⟨captured, -, _, -, _, -, summary, -, rfl⟩ := h
  refine ⟨rfl, rfl, rfl, rfl, ?_, rfl, rfl⟩
  have hnat : (Value.ofNat captured).asU64 = some captured := by
    simp [Value.ofNat, Value.asU64]
  exact Option.isSome_iff_exists.mpr ⟨captured, hnat⟩

theorem trim_empty : trim "" = "" := by decide

theorem capturedRow_valid {input : Input} {args finding row : Value}
    (hfinding : (finding.field "material").field "kind" = .string "observation")
    (huncertain : ∃ s ∈ (args.field "uncertainty").asStr, trim s ≠ "")
    (h : host.capturedRow input args finding = .ok row) : host.RowValid row := by
  obtain ⟨hid, hevent, hmaterial, huncertainty, hcaptured, hpaths, hroutes⟩ := capturedRow_ok h
  refine ⟨by rw [hid]; rfl, hcaptured, ?_, ?_, ?_, hpaths, hroutes, ?_⟩
  · rw [hmaterial, Value.field_remove_of_ne _ (by decide), hfinding]
  · rw [hmaterial, Value.get?_remove_self]
  · obtain ⟨s, hs, htrim⟩ := huncertain
    rw [huncertainty]
    refine ⟨s, hs, ?_⟩
    rintro rfl
    exact htrim trim_empty
  · rw [hevent, hmaterial]

/-! ## Postimages -/

/-- Rows that a postimage has and the state has not. -/
def newRows (old post : List Value) : List Value := post.filter (· ∉ old)

theorem newRows_subset {old post : List Value} (h : post ⊆ old) : newRows old post = [] := by
  rw [newRows, List.filter_eq_nil_iff]
  intro row hrow
  simpa using h hrow

variable {input : Input} {args before post : Value} {inserted rs : List Value}

theorem Good.subset {rs' : List Value} (G : Good host inserted rs) (h : rs'.Sublist rs) :
    Good host (inserted ++ newRows rs rs') rs' := by
  rw [newRows_subset h.subset, List.append_nil]
  exact G.sublist h

theorem Good.append {row : Value} {kept : List Value} (G : Good host inserted rs)
    (hkept : kept.Sublist rs) (hrow : host.RowValid row) (hid : row.field "id" = row.field "event")
    (hfresh : ∀ r ∈ rs, r.field "event" ≠ row.field "event")
    (hcount : (kept ++ [row]).length ≤ COUNT) (hsize : (toVec (stateOf (kept ++ [row]))).size ≤ BYTES) :
    Good host (inserted ++ newRows rs (kept ++ [row])) (kept ++ [row]) where
  row r hr := by
    rcases List.mem_append.mp hr with hr | hr
    · exact G.row r (hkept.subset hr)
    · rw [List.mem_singleton.mp hr]
      exact ⟨hrow, hid⟩
  ids := by
    rw [List.map_append, List.map_singleton, List.nodup_append]
    refine ⟨(hkept.map _).nodup G.ids, List.nodup_singleton _, ?_⟩
    intro a ha b hb hab
    obtain ⟨r, hr, rfl⟩ := List.mem_map.mp ha
    have hr' := hkept.subset hr
    rw [List.mem_singleton.mp hb, (G.row r hr').2, hid] at hab
    exact hfresh r hr' hab
  count := hcount
  size := hsize
  order := by
    have hnotin : row ∉ rs := fun h => hfresh row h rfl
    have hnew : newRows rs (kept ++ [row]) = [row] := by
      have hnil : newRows rs kept = [] := newRows_subset hkept.subset
      rw [newRows] at hnil ⊢
      rw [List.filter_append, hnil, List.nil_append]
      simp [hnotin]
    rw [hnew]
    exact (hkept.trans G.order).append (List.Sublist.refl _)

/-- Every postimage computed without a recovery has good rows. -/
theorem posts_good (G : Good host inserted rs)
    (h : host.Posts input args (stateOf rs) before none post) :
    ∃ rs', post = stateOf rs' ∧ Good host (inserted ++ newRows rs rs') rs' := by
  generalize hstate : stateOf rs = state at h
  cases h with
  | capture finding row kept hop huncertain hfound hfresh hrow hfits =>
    subst hstate
    obtain ⟨dropped, rest, hsplit, rfl, hcount, hsize⟩ := evict_append hfits
    have hfinding : (finding.field "material").field "kind" = .string "observation" := by
      have hmem := List.mem_of_find?_eq_some hfound
      simpa [findings] using (List.mem_filter.mp hmem).2
    obtain ⟨hid, hevent, -⟩ := capturedRow_ok hrow
    have hrest : rest.Sublist rs := by
      have hsuffix : rest.Sublist ((rows (stateOf rs)).filter (current · input.clock)) := by
        rw [hsplit]
        exact List.sublist_append_right _ _
      exact hsuffix.trans List.filter_sublist
    refine ⟨rest ++ [row], rfl, G.append hrest (capturedRow_valid hfinding huncertain hrow)
      (hid.trans hevent.symm) ?_ hcount hsize⟩
    intro r hr
    rw [hevent]
    exact hfresh r hr
  | subtract ids hop hids =>
    subst hstate
    exact ⟨_, rfl, G.subset List.filter_sublist⟩
  | maintain hop =>
    subst hstate
    exact ⟨_, rfl, G.subset List.filter_sublist⟩
  | other hop =>
    subst hstate
    exact ⟨rs, rfl, G.subset (List.Sublist.refl _)⟩

/-- The rows in the state file. -/
def storedRows (files : Files) : List Value :=
  match parsedState (files .state) with
  | .ok state => rows state
  | .error _ => []

/-- The runs of a store from no files: any requests, each viewed on the present files, executed and
    cut off anywhere. The list is what has been inserted so far, in order. -/
inductive Run (host : Host) : List Value → Files → Prop
  | empty : Run host [] noFiles
  | step {inserted : List Value} {files files' : Files} {input : Input} {view : View}
      {action : Value} {revalidate : Result Unit} :
      Run host inserted files → host.viewAt files input = .ok (some view) →
      view.action = some action →
      Stops exec 0 (host.executeChecked revalidate (actionBinding action)) files files' →
      Run host (inserted ++ newRows (storedRows files)
        (rows ((actionBinding action).field "postimage"))) files'

/-- The state file holds the rows. -/
def StateFile (file : Option ByteArray) (rs : List Value) : Prop :=
  file = none ∧ rs = [] ∨ file = some (toVec (stateOf rs))

theorem StateFile.parsed {file : Option ByteArray} (h : StateFile file rs) :
    parsedState file = .ok (stateOf rs) := by
  rcases h with ⟨rfl, rfl⟩ | rfl
  · rfl
  · rw [parsedState, fromSlice_toVec]
    rfl

theorem StateFile.snapshot {file : Option ByteArray} (h : StateFile file rs)
    (G : Good host inserted rs) :
    ∃ before, host.snapshot file = .ok (stateOf rs, before) ∧ FileRevision before := by
  rcases h with ⟨rfl, rfl⟩ | rfl
  · refine ⟨.null, ?_, Or.inl rfl⟩
    rw [Host.snapshot, Except.bind_eq_ok_iff]
    refine ⟨none, rfl, ?_⟩
    rw [Except.bind_eq_ok_iff]
    refine ⟨empty, rfl, ?_⟩
    rw [Except.bind_eq_ok_iff]
    exact ⟨(), validate_eq_ok.mpr G.valid, rfl⟩
  · exact ⟨_, snapshot_toVec G.valid, Or.inr ⟨_, rfl, host.hash_text _⟩⟩

/-- What holds of the files after every run: a publication of good rows over good rows, at some
    point of it. -/
structure RunInv (host : Host) (inserted : List Value) (files : Files) : Prop where
  publication : ∃ pre before rs rs', StateFile pre rs ∧ Good host inserted rs ∧
    Good host inserted rs' ∧ FileRevision before ∧ Published host pre before (stateOf rs') files

/-- The state of a run, with no publication pending, or a pending one. -/
theorem RunInv.cases {files : Files} (R : RunInv host inserted files) :
    (∃ rs, StateFile (files .state) rs ∧ Good host inserted rs ∧ files .prepared = none ∧
      files .temp = none ∧ LockFile files) ∨
    (∃ rs e, StateFile (files .state) rs ∧ Good host inserted rs ∧
      host.pending (files .prepared) = .error e ∧
      ∀ bytes, files .prepared = some bytes → bytes.size ≤ RESIDUE) ∨
    ∃ pre before rs rs' current, StateFile pre rs ∧ Good host inserted rs ∧ Good host inserted rs' ∧
      FileRevision before ∧ StateFile (files .state) current ∧ Good host inserted current ∧
      Bound host pre before (stateOf rs') ∧ Pending host pre before (stateOf rs') files := by
  obtain ⟨pre, before, rs, rs', hpre, G, G', hbefore, hpublished⟩ := R.publication
  have hpending : ∀ B : Bound host pre before (stateOf rs'),
      Pending host pre before (stateOf rs') files →
      ∃ pre before rs rs' current, StateFile pre rs ∧ Good host inserted rs ∧
        Good host inserted rs' ∧ FileRevision before ∧ StateFile (files .state) current ∧
        Good host inserted current ∧ Bound host pre before (stateOf rs') ∧
        Pending host pre before (stateOf rs') files := by
    intro B P
    rcases P.state with h | h
    · exact ⟨pre, before, rs, rs', rs, hpre, G, G', hbefore, h ▸ hpre, G, B, P⟩
    · exact ⟨pre, before, rs, rs', rs', hpre, G, G', hbefore, Or.inr h, G', B, P⟩
  rcases hpublished with U | ⟨B, P | D⟩
  · rcases U.prepared with hnone | ⟨B, part, rest, hpart, hsplit⟩
    · exact Or.inl ⟨rs, U.state ▸ hpre, G, hnone, U.temp, U.lock⟩
    · by_cases hrest : rest = .empty
      · rw [hrest, ByteArray.append_empty] at hsplit
        rw [← hsplit] at hpart
        exact Or.inr (Or.inr (hpending B (U.pending hpart).2))
      · have hsize : part.size ≤ RESIDUE := by
          have hfits := B.fits
          rw [hsplit, ByteArray.size_append] at hfits
          omega
        have herror : ∃ e, host.pending (some part) = .error e := by
          cases hread : host.pending (some part) with
          | error e => exact ⟨e, rfl⟩
          | ok p =>
            rw [Host.pending, Except.bind_eq_ok_iff] at hread
            obtain ⟨bytes, hbytes, hread⟩ := hread
            obtain rfl := admitted_ok hbytes
            simp only [Except.bind_eq_ok_iff, okOr_eq_ok, fromSlice_incomplete hsplit hrest] at hread
            obtain ⟨_, h, -⟩ := hread
            cases h
        obtain ⟨e, he⟩ := herror
        refine Or.inr (Or.inl ⟨rs, e, U.state ▸ hpre, G, by rw [hpart]; exact he, ?_⟩)
        intro bytes hbytes
        rw [hpart] at hbytes
        cases hbytes
        exact hsize
  · exact Or.inr (Or.inr (hpending B P))
  · refine Or.inl ?_
    rcases D.state with h | ⟨h, hparsed⟩
    · exact ⟨rs', Or.inr h, G', D.prepared, D.temp, D.lock⟩
    · exact ⟨rs, h ▸ hpre, G, D.prepared, D.temp, D.lock⟩

theorem Run.inv {files : Files} (h : Run host inserted files) : RunInv host inserted files := by
  induction h with
  | empty =>
    exact ⟨none, .null, [], [], Or.inl ⟨rfl, rfl⟩, Good.nil, Good.nil, Or.inl rfl,
      Or.inl ⟨rfl, rfl, Or.inl rfl, Or.inl rfl⟩⟩
  | @step inserted files files' input view action revalidate _ hview haction hstops ih =>
    obtain ⟨W⟩ := viewAt_action hview haction
    have hbinding : actionBinding action =
        host.binding W.before W.post W.prepared W.confirmation :=
      congrArg actionBinding W.action
    rw [hbinding] at hstops ⊢
    rcases ih.cases with ⟨rs, hfile, G, hprepared, htemp, hlock⟩ | ⟨rs, e, -, -, herror, -⟩ |
      ⟨pre, before, rs, rs', current, hpre, G, G', hbefore, hfile, Gc, B, P⟩
    · -- A first publication.
      obtain ⟨before, hsnapshot, hbefore⟩ := hfile.snapshot G
      have hpending := W.pending
      rw [hprepared] at hpending
      have hnone : W.prepared = none := (Except.ok.inj hpending).symm
      have hsame := W.snapshot
      rw [hsnapshot] at hsame
      obtain ⟨hstate, hbefore'⟩ := Prod.mk.inj (Except.ok.inj hsame)
      have hposts := W.posts
      rw [hnone, ← hstate] at hposts
      obtain ⟨rs', hpost, G'⟩ := posts_good G hposts
      have hstored : storedRows files = rs := by
        rw [storedRows, hfile.parsed]
        rfl
      have hpublished := stops_of_guards (first_guards hprepared htemp hlock) hstops
      have hrows : rows ((host.binding W.before W.post W.prepared W.confirmation).field
          "postimage") = rs' := by
        show rows W.post = rs'
        rw [hpost]
        rfl
      rw [hrows, hstored]
      refine ⟨files .state, W.before, rs, rs', hfile, G.mono _, G', hbefore' ▸ hbefore, ?_⟩
      rw [← hpost]
      exact hpublished
    · -- A record that breaks off stops every request.
      rw [W.pending] at herror
      cases herror
    · -- A recovery.
      obtain ⟨hprepared, hpost, -⟩ := writes_pending B P W
      rw [hprepared, hpost] at hstops
      exact ⟨pre, before, rs, rs', hpre, G.mono _, G'.mono _, hbefore,
        Or.inr ⟨B, recover_stops B P W.snapshot hstops⟩⟩

/-- The action of a view, where there is one. -/
def readyAction : Result (Option View) → Option Value
  | .ok (some view) => view.action
  | _ => none

end AgenticCore.MemoryCandidates
