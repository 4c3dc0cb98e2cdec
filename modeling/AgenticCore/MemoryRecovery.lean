import AgenticCore.MemoryView

/-!
# Recovery of the local candidate store

A publication may be cut off after any step, and so may every recovery of it.

* `Pending` : the recovery record is complete; the state is the preimage or the postimage.
* `Done`    : the state is the postimage, and nothing else is left.
-/

set_option autoImplicit false

namespace AgenticCore.MemoryCandidates

open Json Text Interleaving

/-! ## Files -/

theorem Files.set_same (files : Files) (path : Path) (content : Option ByteArray) :
    files.set path content path = content := by
  simp [Files.set]

theorem Files.set_other (files : Files) {path other : Path} (content : Option ByteArray)
    (h : other ≠ path) : files.set path content other = files other := by
  simp [Files.set, h]

theorem Files.set_set (files : Files) (path : Path) (content content' : Option ByteArray) :
    (files.set path content).set path content' = files.set path content' := by
  funext p
  by_cases hp : p = path <;> simp [Files.set, hp]

theorem Files.set_self {files : Files} {path : Path} {content : Option ByteArray}
    (h : files path = content) : files.set path content = files := by
  funext p
  by_cases hp : p = path <;> simp [Files.set, hp, h]

variable {host : Host} {I : Files → Prop} {files : Files}

theorem readFile_guards {α : Type} {path : Path} {limit : Nat}
    {f : Option ByteArray → StoreM α} {Q : Except CoreError α → Files → Prop} (hI : I files)
    (hok : ∀ bytes, admitted limit (files path) = .ok bytes →
      Guards exec 0 I (f bytes) Q files)
    (herror : ∀ e, admitted limit (files path) = .error e → Q (.error e) files) :
    Guards exec 0 I (readFile path limit >>= f) Q files := by
  refine guards_bind (guards_step_bind hI ?_)
  refine guards_ofExcept hI ?_
  cases hadmitted : admitted limit (files path) with
  | ok bytes =>
    simp only [exec, hadmitted]
    exact hok bytes hadmitted
  | error e =>
    simp only [exec, hadmitted]
    exact herror e hadmitted

theorem readFile_absent {path : Path} {limit : Nat} (h : files path = none) :
    (readFile path limit).alone exec 0 files = (.ok none, files) := by
  have hguards : Guards exec 0 (fun _ => True) (readFile path limit)
      (fun r s => r = .ok none ∧ s = files) files := by
    refine guards_step_bind trivial ?_
    simp only [exec, h]
    exact guards_ofExcept trivial ⟨rfl, rfl⟩
  exact Prod.ext (alone_of_guards hguards).1 (alone_of_guards hguards).2

theorem lift_guards {α β : Type} {r : Result α} {f : α → StoreM β}
    {Q : Except CoreError β → Files → Prop} (hI : I files)
    (hok : ∀ a, r = .ok a → Guards exec 0 I (f a) Q files)
    (herror : ∀ e, r = .error e → Q (.error e) files) :
    Guards exec 0 I ((liftM r : StoreM α) >>= f) Q files :=
  guards_ofExcept_bind hI hok herror

/-- A new file is a prefix of its bytes until it is complete. -/
theorem appendAll_guards {path : Path} {Q : Except CoreError Unit → Files → Prop} :
    ∀ {bytes : List UInt8} {part : ByteArray} {files : Files}, files path = some part →
      (∀ n, I (files.set path (some (part ++ (bytes.take n).toByteArray)))) →
      Q (.ok ()) (files.set path (some (part ++ bytes.toByteArray))) →
      Guards exec 0 I (appendAll path bytes) Q files
  | [], part, files, hfile, hI, hQ => by
    have hsame := Files.set_self
      (show files path = some (part ++ ([] : List UInt8).toByteArray) by rw [hfile]; simp)
    have hIfiles := hI 0
    rw [List.take_nil, hsame] at hIfiles
    rw [hsame] at hQ
    exact guards_pure hIfiles hQ
  | byte :: rest, part, files, hfile, hI, hQ => by
    have hpush : part.push byte = part ++ [byte].toByteArray :=
      ByteArray.append_toByteArray_singleton.symm
    have hsame := Files.set_self
      (show files path = some (part ++ ([] : List UInt8).toByteArray) by rw [hfile]; simp)
    have hIfiles := hI 0
    rw [List.take_zero, hsame] at hIfiles
    refine guards_step_bind hIfiles ?_
    simp only [exec, hfile, Option.map_some]
    refine appendAll_guards (Files.set_same _ _ _) (fun n => ?_) ?_
    · have h := hI (n + 1)
      rw [List.take_succ_cons, ← List.singleton_append, List.toByteArray_append,
        ← ByteArray.append_assoc, ← hpush] at h
      rw [Files.set_set]
      exact h
    · rw [← List.singleton_append, List.toByteArray_append, ← ByteArray.append_assoc, ← hpush] at hQ
      rw [Files.set_set]
      exact hQ

theorem toByteArray_data_toList (bytes : ByteArray) : bytes.data.toList.toByteArray = bytes := by
  ext1
  simp

theorem writeNew_guards {path : Path} {bytes : ByteArray} {Q : Except CoreError Unit → Files → Prop}
    (hnone : files path = none) (hI : I files)
    (hpart : ∀ part rest, bytes = part ++ rest → I (files.set path (some part)))
    (hQ : Q (.ok ()) (files.set path (some bytes))) :
    Guards exec 0 I (writeNew path bytes) Q files := by
  refine guards_step_bind hI ?_
  simp only [exec, hnone, Option.isSome_none, Bool.false_eq_true, if_false]
  refine lift_guards (hpart _ _ ByteArray.empty_append.symm) (fun _ _ => ?_) fun e he => ?_
  · refine appendAll_guards (Files.set_same _ _ _) (fun n => ?_) ?_
    · rw [Files.set_set, ByteArray.empty_append]
      refine hpart _ (bytes.data.toList.drop n).toByteArray ?_
      rw [← List.toByteArray_append, List.take_append_drop, toByteArray_data_toList]
    · rw [Files.set_set, ByteArray.empty_append, toByteArray_data_toList]
      exact hQ
  · simp [check, require] at he

/-! ## The end of a publication -/

structure Pending (host : Host) (pre : Option ByteArray) (before post : Value) (files : Files) :
    Prop where
  prepared : files .prepared = some (toVec (host.record before post))
  state : files .state = pre ∨ files .state = some (toVec post)
  temp : files .temp = none ∨ ∃ part rest, files .temp = some part ∧ toVec post = part ++ rest
  lock : files .lock = none ∨ files .lock = some .empty

structure Done (pre : Option ByteArray) (post : Value) (files : Files) : Prop where
  prepared : files .prepared = none
  state : files .state = some (toVec post) ∨ files .state = pre ∧ parsedState pre = .ok post
  temp : files .temp = none
  lock : files .lock = none ∨ files .lock = some .empty

variable {pre : Option ByteArray} {before post state binding : Value}

theorem Done.parsed (D : Done pre post files) : parsedState (files .state) = .ok post := by
  rcases D.state with h | ⟨h, hparsed⟩
  · rw [h, parsedState, fromSlice_toVec]
    rfl
  · rw [h]
    exact hparsed

theorem Pending.withTemp (P : Pending host pre before post files) {part rest : ByteArray}
    (h : toVec post = part ++ rest) : Pending host pre before post (files.set .temp (some part)) where
  prepared := by rw [Files.set_other _ _ (by decide)]; exact P.prepared
  state := by rw [Files.set_other _ _ (by decide)]; exact P.state
  temp := Or.inr ⟨part, rest, Files.set_same _ _ _, h⟩
  lock := by rw [Files.set_other _ _ (by decide)]; exact P.lock

theorem prepareTemp_guards (P : Pending host pre before post files) (hvalid : host.Valid post)
    (htemp : files .temp = none ∨ files .temp = some (toVec post)) :
    Guards exec 0 (Pending host pre before post) (prepareTemp post)
      (fun r s => r = .ok () ∧ s = files.set .temp (some (toVec post))) files := by
  have hread : admitted BYTES (files .temp) = .ok (files .temp) := by
    rcases htemp with h | h
    · rw [h]
      rfl
    · rw [h]
      exact admitted_toVec (by decide) hvalid.size
  refine readFile_guards P (fun _ _ => readFile_guards P (fun old hold => ?_) fun e he => ?_)
    fun e he => ?_
  · rw [hread] at hold
    obtain rfl := Except.ok.inj hold
    rcases htemp with h | h
    · rw [h]
      exact writeNew_guards h P (fun part rest hsplit => P.withTemp hsplit) ⟨rfl, rfl⟩
    · rw [h]
      exact guards_ofExcept P ⟨check_eq_ok.mpr (fromSlice_toVec post), (Files.set_self h).symm⟩
  · rw [hread] at he
    cases he
  · rw [hread] at he
    cases he

theorem publish_guards (P : Pending host pre before post files)
    (htemp : files .temp = some (toVec post)) (hstate : parsedState (files .state) = .ok state) :
    Guards exec 0 (Pending host pre before post) (publish state post)
      (fun r s => r = .ok () ∧ Pending host pre before post s ∧ s .temp = none ∧
        parsedState (s .state) = .ok post) files := by
  unfold publish
  by_cases heq : state = post
  · rw [if_neg (not_not.mpr heq)]
    have P' : Pending host pre before post (files.set .temp none) := {
      prepared := by rw [Files.set_other _ _ (by decide)]; exact P.prepared
      state := by rw [Files.set_other _ _ (by decide)]; exact P.state
      temp := Or.inl (Files.set_same _ _ _)
      lock := by rw [Files.set_other _ _ (by decide)]; exact P.lock }
    refine guards_step_bind P ?_
    simp only [exec, htemp, Option.isSome_some, if_true]
    refine guards_ofExcept P' ⟨rfl, P', Files.set_same _ _ _, ?_⟩
    rw [Files.set_other _ _ (by decide), hstate, heq]
  · rw [if_pos heq]
    have P' : Pending host pre before post
        ((files.set .state (some (toVec post))).set .temp none) := {
      prepared := by
        rw [Files.set_other _ _ (by decide), Files.set_other _ _ (by decide)]
        exact P.prepared
      state := by
        rw [Files.set_other _ _ (by decide), Files.set_same]
        exact Or.inr rfl
      temp := Or.inl (Files.set_same _ _ _)
      lock := by
        rw [Files.set_other _ _ (by decide), Files.set_other _ _ (by decide)]
        exact P.lock }
    refine guards_step_bind P ?_
    simp only [exec, htemp, Option.isSome_some, if_true]
    refine guards_ofExcept P' ⟨rfl, P', Files.set_same _ _ _, ?_⟩
    rw [Files.set_other _ _ (by decide), Files.set_same, parsedState, fromSlice_toVec]
    rfl

/-- With no temporary, or a complete one, the publication comes to its end. -/
theorem finish_guards (P : Pending host pre before post files) (hvalid : host.Valid post)
    (hpost : binding.field "postimage" = post) (hstate : parsedState (files .state) = .ok state)
    (htemp : files .temp = none ∨ files .temp = some (toVec post)) :
    Guards exec 0 (fun s => Pending host pre before post s ∨ Done pre post s)
      (finish state binding) (fun r s => r = .ok (outcome binding) ∧ Done pre post s) files := by
  unfold finish
  rw [hpost]
  refine guards_bind ((prepareTemp_guards P hvalid htemp).mono (fun _ h => Or.inl h) ?_)
  rintro _ s P' ⟨rfl, rfl⟩
  refine guards_bind ((publish_guards P' (Files.set_same _ _ _) ?_).mono (fun _ h => Or.inl h) ?_)
  · rw [Files.set_other _ _ (by decide)]
    exact hstate
  rintro _ s - ⟨rfl, P', hnone, hparsed⟩
  have D : Done pre post (s.set .prepared none) := {
    prepared := Files.set_same _ _ _
    state := by
      rw [Files.set_other _ _ (by decide)]
      rcases P'.state with h | h
      · rw [h] at hparsed
        exact Or.inr ⟨h, hparsed⟩
      · exact Or.inl h
    temp := by rw [Files.set_other _ _ (by decide)]; exact hnone
    lock := by rw [Files.set_other _ _ (by decide)]; exact P'.lock }
  refine guards_step_bind (Or.inl P') ?_
  simp only [exec, P'.prepared, Option.isSome_some, if_true]
  exact lift_guards (Or.inr D) (fun _ _ => guards_pure (Or.inr D) ⟨rfl, D⟩) fun e he => by
    simp [check, require] at he

/-- A temporary that breaks off is refused and preserved. -/
theorem finish_refused (hvalid : host.Valid post) (hpost : binding.field "postimage" = post)
    {part rest : ByteArray} (htemp : files .temp = some part) (hsplit : toVec post = part ++ rest)
    (hrest : rest ≠ .empty) :
    Guards exec 0 (fun s => s = files) (finish state binding)
      (fun r _ => ∃ e, r = .error e) files := by
  obtain ⟨members, rfl, -⟩ := hvalid.members
  unfold finish
  rw [hpost]
  have hprepare : Guards exec 0 (fun s => s = files) (prepareTemp (.object members))
      (fun r _ => ∃ e, r = .error e) files := by
    refine readFile_guards rfl (fun _ _ => readFile_guards rfl (fun old hold => ?_) fun e _ => ?_)
      fun e _ => ?_
    · obtain rfl := admitted_ok hold
      rw [htemp]
      refine guards_ofExcept rfl ?_
      rw [fromSlice_incomplete hsplit hrest]
      exact ⟨_, rfl⟩
    · exact ⟨e, rfl⟩
    · exact ⟨e, rfl⟩
  refine guards_bind (hprepare.mono (fun _ h => h) ?_)
  rintro _ s - ⟨e, rfl⟩
  exact ⟨e, rfl⟩

/-! ## The start of a publication -/

/-- A lock file that an earlier holder may have left. -/
def LockFile (files : Files) : Prop := files .lock = none ∨ files .lock = some .empty

theorem openLock_guards (hlock : LockFile files) (hI : I files)
    (hI' : I (files.set .lock (some .empty))) :
    Guards exec 0 I openLock (fun r s => r = .ok () ∧ s = files.set .lock (some .empty)) files := by
  have hread : admitted 0 (files .lock) = .ok (files .lock) := by
    rcases hlock with h | h <;> rw [h]
    · rfl
    · simp only [admitted, Except.bind_eq_ok_iff, check_eq_ok, Except.pure_eq_ok_iff]
      have hutf8 : (String.fromUTF8? .empty).isSome = true := by
        rw [String.fromUTF8?, dif_pos ByteArray.isValidUTF8_empty]
        rfl
      exact ⟨(), Nat.zero_le _, (), hutf8, (), Nat.le_refl _, trivial⟩
  have hget : (files .lock).getD .empty = .empty := by
    rcases hlock with h | h <;> rw [h] <;> rfl
  have herror : ∀ e, admitted 0 (files .lock) ≠ .error e := by
    intro e he
    rw [hread] at he
    cases he
  refine readFile_guards hI (fun _ _ => readFile_guards hI (fun _ _ => ?_) fun e he => ?_)
    fun e he => ?_
  · refine guards_step hI ?_ ?_
    · simp only [exec, hget]
      exact hI'
    · simp only [exec, hget]
      exact ⟨trivial, trivial⟩
  · exact absurd he (herror e)
  · exact absurd he (herror e)

/-- What a publication is bound to, once its record may be written. -/
structure Bound (host : Host) (pre : Option ByteArray) (before post : Value) : Prop where
  snapshot : ∃ state, host.snapshot pre = .ok (state, before)
  valid : host.Valid post
  fits : (toVec (host.record before post)).size ≤ RESIDUE

theorem prepare_alone (hsize : (toVec (host.record before post)).size ≤ RESIDUE)
    (hpost : binding.field "postimage" = post)
    (hrevision : binding.field "post_revision" = .string (host.digest post))
    (hprepared : files .prepared = none) :
    (prepare before binding).alone exec 0 files =
      (.ok (), files.set .prepared (some (toVec (host.record before post)))) := by
  have hguards : Guards exec 0 (fun _ => True) (prepare before binding)
      (fun r s => r = .ok () ∧ s = files.set .prepared (some (toVec (host.record before post))))
      files := by
    unfold prepare
    rw [hpost, hrevision]
    refine lift_guards trivial (fun _ _ => ?_) fun e he => ?_
    · exact writeNew_guards hprepared trivial (fun _ _ _ => trivial) ⟨rfl, rfl⟩
    · have hfits : (toVec (preparedRecord before post (.string (host.digest post)))).size ≤ RESIDUE :=
        hsize
      rw [check, require, if_pos hfits] at he
      cases he
  exact Prod.ext (alone_of_guards hguards).1 (alone_of_guards hguards).2

/-- Nothing but the record and the lock has been written, and the record may break off. -/
structure Unprepared (host : Host) (pre : Option ByteArray) (before post : Value) (files : Files) :
    Prop where
  state : files .state = pre
  temp : files .temp = none
  lock : LockFile files
  prepared : files .prepared = none ∨ Bound host pre before post ∧
    ∃ part rest, files .prepared = some part ∧ toVec (host.record before post) = part ++ rest

/-- Where a first publication and its recoveries can be cut off. -/
def Published (host : Host) (pre : Option ByteArray) (before post : Value) (files : Files) : Prop :=
  Unprepared host pre before post files ∨ Bound host pre before post ∧
    (Pending host pre before post files ∨ Done pre post files)

theorem Unprepared.pending (U : Unprepared host pre before post files)
    (h : files .prepared = some (toVec (host.record before post))) :
    Bound host pre before post ∧ Pending host pre before post files := by
  rcases U.prepared with hnone | ⟨B, -⟩
  · rw [hnone] at h
    cases h
  · exact ⟨B, h, Or.inl U.state, Or.inl U.temp, U.lock⟩

theorem bound_ok {stateBytes preparedBytes : Option ByteArray} {state before : Value}
    {prepared : Option Value} :
    host.bound binding stateBytes preparedBytes = .ok (state, before, prepared) ↔
      host.snapshot stateBytes = .ok (state, before) ∧ host.pending preparedBytes = .ok prepared ∧
        before = binding.field "before" ∧ .orNull prepared = binding.field "prepared" ∧
        host.Valid (binding.field "postimage") ∧
        binding.field "post_revision" = .string (host.digest (binding.field "postimage")) := by
  simp only [Host.bound, Except.bind_eq_ok_iff, check_eq_ok, Except.pure_eq_ok_iff]
  constructor
  · rintro ⟨⟨state', before'⟩, hsnapshot, prepared', hpending, _, ⟨hbefore, hprepared⟩, _, hvalid,
      _, hrevision, hpair⟩
    cases hpair
    exact ⟨hsnapshot, hpending, hbefore, hprepared, validate_eq_ok.mp hvalid, hrevision⟩
  · rintro ⟨hsnapshot, hpending, hbefore, hprepared, hvalid, hrevision⟩
    exact ⟨_, hsnapshot, _, hpending, (), ⟨hbefore, hprepared⟩, (), validate_eq_ok.mpr hvalid,
      (), hrevision, rfl⟩

/-- A publication up to its end, from what the lock guards. -/
theorem executeChecked_guards {revalidate : Result Unit}
    {Q : Except CoreError Value → Files → Prop} (hlock : LockFile files) (hI : I files)
    (hI' : I (files.set .lock (some .empty)))
    (hrefused : ∀ e, revalidate = .error e → Q (.error e) (files.set .lock (some .empty)))
    (hdrift : ∀ e, host.bound binding (files .state) (files .prepared) = .error e →
      Q (.error e) (files.set .lock (some .empty)))
    (hok : ∀ state before prepared,
      host.bound binding (files .state) (files .prepared) = .ok (state, before, prepared) →
      revalidate = .ok () →
      Guards exec 0 I ((if prepared = none then prepare before binding else pure ()) >>=
        fun _ => finish state binding) Q (files.set .lock (some .empty))) :
    Guards exec 0 I (host.executeChecked revalidate binding) Q files := by
  refine guards_bind ((openLock_guards hlock hI hI').mono (fun _ h => h) ?_)
  rintro _ s - ⟨rfl, rfl⟩
  refine lift_guards hI' (fun _ hrevalidate => ?_) hrefused
  refine guards_step_bind hI' (guards_step_bind hI' ?_)
  simp only [exec]
  rw [Files.set_other _ _ (by decide), Files.set_other _ _ (by decide)]
  refine lift_guards hI' ?_ hdrift
  rintro ⟨state, before, prepared⟩ hbound
  have h := hok state before prepared hbound hrevalidate
  split
  · rename_i hnone
    rw [if_pos hnone] at h
    exact h
  · rename_i hsome
    rw [if_neg hsome] at h
    exact h

theorem prepare_guards (hsnapshot : ∃ state, host.snapshot pre = .ok (state, before))
    (hvalid : host.Valid post) (hpost : binding.field "postimage" = post)
    (hrevision : binding.field "post_revision" = .string (host.digest post))
    (hstate : files .state = pre) (htemp : files .temp = none) (hlock : LockFile files)
    (hprepared : files .prepared = none) :
    Guards exec 0 (Published host pre before post) (prepare before binding)
      (fun r s => (∃ e, r = .error e) ∨ r = .ok () ∧ Bound host pre before post ∧
        s = files.set .prepared (some (toVec (host.record before post)))) files := by
  have hstart : Published host pre before post files :=
    Or.inl ⟨hstate, htemp, hlock, Or.inl hprepared⟩
  unfold prepare
  rw [hpost, hrevision]
  refine lift_guards hstart (fun _ hfits => ?_) fun e _ => Or.inl ⟨e, rfl⟩
  have B : Bound host pre before post := ⟨hsnapshot, hvalid, check_eq_ok.mp hfits⟩
  refine writeNew_guards hprepared hstart (fun part rest hsplit => Or.inl ?_)
    (Or.inr ⟨rfl, B, rfl⟩)
  refine ⟨?_, ?_, ?_, Or.inr ⟨B, part, rest, Files.set_same _ _ _, hsplit⟩⟩
  · rw [Files.set_other _ _ (by decide)]
    exact hstate
  · rw [Files.set_other _ _ (by decide)]
    exact htemp
  · rw [LockFile, Files.set_other _ _ (by decide)]
    exact hlock

/-- A first publication: wherever it is cut off, the recovery record is missing, or breaks off, or
    decides what the state may be. -/
theorem first_guards {revalidate : Result Unit} (hprepared : files .prepared = none)
    (htemp : files .temp = none) (hlock : LockFile files) :
    Guards exec 0
      (Published host (files .state) (binding.field "before") (binding.field "postimage"))
      (host.executeChecked revalidate binding)
      (fun r s => ∀ v, r = .ok v → v = outcome binding ∧
        Done (files .state) (binding.field "postimage") s) files := by
  have hstart : ∀ s : Files, s .state = files .state → s .temp = none → LockFile s →
      s .prepared = none →
      Published host (files .state) (binding.field "before") (binding.field "postimage") s :=
    fun s h₁ h₂ h₃ h₄ => Or.inl ⟨h₁, h₂, h₃, Or.inl h₄⟩
  have hopened := hstart (files.set .lock (some .empty)) (Files.set_other _ _ (by decide))
    ((Files.set_other _ _ (by decide)).trans htemp) (Or.inr (Files.set_same _ _ _))
    ((Files.set_other _ _ (by decide)).trans hprepared)
  refine executeChecked_guards hlock (hstart files rfl htemp hlock hprepared) hopened
    (fun e _ v h => by cases h) (fun e _ v h => by cases h) fun state before prepared hbound _ => ?_
  obtain ⟨hsnapshot, hpending, hbefore, -, hvalid, hrevision⟩ := bound_ok.mp hbound
  rw [hprepared] at hpending
  cases hpending
  rw [if_pos rfl]
  rw [hbefore] at hsnapshot ⊢
  have hprepare := @prepare_guards _ (files.set .lock (some .empty)) _ _ _ _ ⟨state, hsnapshot⟩ hvalid
    rfl hrevision (Files.set_other _ _ (by decide))
    ((Files.set_other _ _ (by decide)).trans htemp) (Or.inr (Files.set_same _ _ _))
    ((Files.set_other _ _ (by decide)).trans hprepared)
  refine guards_bind (hprepare.mono (fun _ h => h) ?_)
  rintro r s - (⟨e, rfl⟩ | ⟨rfl, B, rfl⟩)
  · intro v h
    cases h
  have P : Pending host (files .state) (binding.field "before") (binding.field "postimage")
      ((files.set .lock (some .empty)).set .prepared
        (some (toVec (host.record (binding.field "before") (binding.field "postimage"))))) :=
    ⟨Files.set_same _ _ _,
      Or.inl ((Files.set_other _ _ (by decide)).trans (Files.set_other _ _ (by decide))),
      Or.inl (((Files.set_other _ _ (by decide)).trans (Files.set_other _ _ (by decide))).trans htemp),
      Or.inr ((Files.set_other _ _ (by decide)).trans (Files.set_same _ _ _))⟩
  have hstate : parsedState ((((files.set .lock (some .empty)).set .prepared
      (some (toVec (host.record (binding.field "before") (binding.field "postimage")))) : Files))
        .state) = .ok state := by
    rw [Files.set_other _ _ (by decide), Files.set_other _ _ (by decide)]
    exact (snapshot_ok hsnapshot).2.1
  refine (finish_guards P hvalid rfl hstate (Or.inl ?_)).mono (fun _ h => Or.inr ⟨B, h⟩) ?_
  · rw [Files.set_other _ _ (by decide), Files.set_other _ _ (by decide)]
    exact htemp
  · rintro r s - ⟨rfl, D⟩ v h
    cases h
    exact ⟨rfl, D⟩

/-! ## Recovery -/

/-- A temporary that breaks off before the end of the postimage. -/
def Broken (post : Value) (files : Files) : Prop :=
  ∃ part rest, files .temp = some part ∧ rest ≠ .empty ∧ toVec post = part ++ rest

theorem Pending.complete_or_broken (P : Pending host pre before post files) :
    (files .temp = none ∨ files .temp = some (toVec post)) ∨ Broken post files := by
  rcases P.temp with h | ⟨part, rest, h, hsplit⟩
  · exact Or.inl (Or.inl h)
  · by_cases hrest : rest = .empty
    · rw [hrest, ByteArray.append_empty] at hsplit
      exact Or.inl (Or.inr (hsplit ▸ h))
    · exact Or.inr ⟨part, rest, h, hrest, hsplit⟩

theorem Pending.locked (P : Pending host pre before post files) :
    Pending host pre before post (files.set .lock (some .empty)) where
  prepared := (Files.set_other _ _ (by decide)).trans P.prepared
  state := by
    rw [Files.set_other _ _ (by decide)]
    exact P.state
  temp := by
    rw [Files.set_other _ _ (by decide)]
    exact P.temp
  lock := Or.inr (Files.set_same _ _ _)

theorem Pending.pending (B : Bound host pre before post) (P : Pending host pre before post files) :
    host.pending (files .prepared) = .ok (some (host.record before post)) := by
  rw [P.prepared]
  exact pending_toVec B.valid B.fits

theorem Pending.snapshot (B : Bound host pre before post) (P : Pending host pre before post files) :
    ∃ state before', host.snapshot (files .state) = .ok (state, before') ∧
      (before' = before ∨ state = post) := by
  rcases P.state with h | h
  · obtain ⟨state, hsnapshot⟩ := B.snapshot
    exact ⟨state, before, by rw [h]; exact hsnapshot, Or.inl rfl⟩
  · exact ⟨post, _, by rw [h]; exact snapshot_toVec B.valid, Or.inr rfl⟩

variable {confirmation before' : Value} {revalidate : Result Unit}

theorem bound_pending (B : Bound host pre before post) (P : Pending host pre before post files)
    (hsnapshot : host.snapshot (files .state) = .ok (state, before')) :
    host.bound (host.binding before' post (some (host.record before post)) confirmation)
      (files .state) (files .prepared) = .ok (state, before', some (host.record before post)) :=
  bound_ok.mpr ⟨hsnapshot, P.pending B, rfl, rfl, B.valid, rfl⟩

/-- A recovery with no temporary, or a complete one. -/
theorem recover_guards (confirmation : Value) (revalidate : Result Unit)
    (B : Bound host pre before post) (P : Pending host pre before post files)
    (hsnapshot : host.snapshot (files .state) = .ok (state, before'))
    (htemp : files .temp = none ∨ files .temp = some (toVec post)) :
    Guards exec 0 (fun s => Pending host pre before post s ∨ Done pre post s)
      (host.executeChecked revalidate
        (host.binding before' post (some (host.record before post)) confirmation))
      (fun r s => revalidate = .ok () → r = .ok (outcome
        (host.binding before' post (some (host.record before post)) confirmation)) ∧
        Done pre post s) files := by
  refine executeChecked_guards P.lock (Or.inl P) (Or.inl P.locked) (fun e he hok => ?_)
    (fun e he => ?_) fun state₁ before₁ prepared₁ hbound _ => ?_
  · rw [he] at hok
    cases hok
  · rw [bound_pending B P hsnapshot] at he
    cases he
  · rw [bound_pending B P hsnapshot] at hbound
    cases hbound
    rw [if_neg (by simp)]
    have hfinish := @finish_guards _ _ _ _ _ state (host.binding before' post
        (some (host.record before post)) confirmation) P.locked B.valid rfl (by
        rw [Files.set_other _ _ (by decide)]
        exact (snapshot_ok hsnapshot).2.1)
      (by
        rw [Files.set_other _ _ (by decide)]
        exact htemp)
    exact guards_bind (guards_pure (Or.inl P.locked) (hfinish.mono (fun _ h => h)
      fun r s _ h _ => h))

/-- A recovery that finds a broken temporary changes nothing but the lock. -/
theorem recover_refused (confirmation : Value) (revalidate : Result Unit)
    (B : Bound host pre before post) (P : Pending host pre before post files)
    (hsnapshot : host.snapshot (files .state) = .ok (state, before')) (hbroken : Broken post files) :
    Guards exec 0 (fun s => s = files ∨ s = files.set .lock (some .empty))
      (host.executeChecked revalidate
        (host.binding before' post (some (host.record before post)) confirmation))
      (fun r _ => ∃ e, r = .error e) files := by
  refine executeChecked_guards P.lock (Or.inl rfl) (Or.inr rfl) (fun e _ => ⟨e, rfl⟩)
    (fun e _ => ⟨e, rfl⟩) fun state₁ before₁ prepared₁ hbound _ => ?_
  rw [bound_pending B P hsnapshot] at hbound
  cases hbound
  rw [if_neg (by simp)]
  obtain ⟨part, rest, htemp, hrest, hsplit⟩ := hbroken
  have htemp' : files.set .lock (some .empty) .temp = some part := by
    rw [Files.set_other _ _ (by decide)]
    exact htemp
  have hfinish := @finish_refused _ _ _ state (host.binding before' post
      (some (host.record before post)) confirmation) B.valid rfl _ _ htemp' hsplit hrest
  exact guards_bind (guards_pure (Or.inr rfl) (hfinish.mono (fun _ h => Or.inr h)
    fun _ _ _ h => h))

/-- Wherever a recovery is cut off, the next one finds the same recovery record. -/
theorem recover_stops (B : Bound host pre before post) (P : Pending host pre before post files)
    (hsnapshot : host.snapshot (files .state) = .ok (state, before')) {files' : Files}
    (h : Stops exec 0 (host.executeChecked revalidate
      (host.binding before' post (some (host.record before post)) confirmation)) files files') :
    Pending host pre before post files' ∨ Done pre post files' := by
  rcases P.complete_or_broken with hcomplete | hbroken
  · have hguards := recover_guards confirmation revalidate B P hsnapshot hcomplete
    exact stops_of_guards (I := fun s => Pending host pre before post s ∨ Done pre post s) hguards h
  · have hguards := recover_refused confirmation revalidate B P hsnapshot hbroken
    rcases stops_of_guards (I := fun s => s = files ∨ s = files.set .lock (some .empty)) hguards h
      with rfl | rfl
    · exact Or.inl P
    · exact Or.inl P.locked

/-- While a publication is pending, the only action is its recovery. -/
theorem writes_pending (B : Bound host pre before post) (P : Pending host pre before post files)
    {input : Input} {action : Value} (W : host.Writes files input action) :
    W.prepared = some (host.record before post) ∧ W.post = post ∧
      operation (W.request.field "arguments") = some "recover" := by
  have hprepared : W.prepared = some (host.record before post) := by
    have h := W.pending
    rw [P.pending B] at h
    exact (Except.ok.inj h).symm
  have hposts := W.posts
  rw [hprepared] at hposts
  generalize W.post = post' at hposts ⊢
  cases hposts with
  | recover _ hop _ => exact ⟨hprepared, rfl, hop⟩

def actionBinding (action : Value) : Value := (action.field "arguments").field "binding"

/-- The files after any number of requests on a store with a pending publication, each executed and
    cut off anywhere. -/
inductive Recovering (host : Host) (start : Files) : Files → Prop
  | start : Recovering host start start
  | step {files files' : Files} {input : Input} {view : View} {action : Value}
      {revalidate : Result Unit} :
      Recovering host start files → (files .prepared).isSome = true →
      host.viewAt files input = .ok (some view) → view.action = some action →
      Stops exec 0 (host.executeChecked revalidate (actionBinding action)) files files' →
      Recovering host start files'

theorem Recovering.pending_or_done (B : Bound host pre before post) {start files : Files}
    (P : Pending host pre before post start) (h : Recovering host start files) :
    Pending host pre before post files ∨ Done pre post files := by
  induction h with
  | start => exact Or.inl P
  | step _ hsome hview haction hstops ih =>
    rcases ih with P' | D
    · obtain ⟨W⟩ := viewAt_action hview haction
      obtain ⟨hprepared, hpost, -⟩ := writes_pending B P' W
      rw [W.action, hprepared, hpost] at hstops
      exact recover_stops B P' W.snapshot hstops
    · rw [D.prepared] at hsome
      cases hsome

/-- The request is a recovery that the owners admit for the present files. -/
structure RecoverRequest (host : Host) (files : Files) (input : Input) : Prop where
  owner : (memoryOwner input.contract).isSome = true
  request : ∃ request, input.request = some request ∧
    operation (request.field "arguments") = some "recover" ∧
    ∀ state before prepared, host.snapshot (files .state) = .ok (state, before) →
      host.pending (files .prepared) = .ok prepared →
      currentRequest input request (host.revision input before prepared) = .ok ()

theorem recover_view (B : Bound host pre before post) (P : Pending host pre before post files)
    {input : Input} (R : RecoverRequest host files input) :
    ∃ view action state before', host.viewAt files input = .ok (some view) ∧
      view.action = some action ∧ host.snapshot (files .state) = .ok (state, before') ∧
      actionBinding action =
        host.binding before' post (some (host.record before post)) .null := by
  obtain ⟨owner, howner⟩ := Option.isSome_iff_exists.mp R.owner
  obtain ⟨request, hrequest, hop, hcurrent⟩ := R.request
  obtain ⟨state, before', hsnapshot, hcase⟩ := P.snapshot B
  have hpending := P.pending B
  have hcheck := hcurrent state before' _ hsnapshot hpending
  let view := host.available input owner (request.field "arguments") state before'
    (some (host.record before post))
  have hsame : before' = (host.record before post).field "before" ∨
      (host.record before post).field "post_revision" = .string (host.digest state) := by
    rcases hcase with h | h
    · exact Or.inl h
    · exact Or.inr (by rw [h]; rfl)
  have hrecover : host.recover state before' (some (host.record before post)) view =
      .ok (.post post view) := by
    rw [Host.recover, Except.bind_eq_ok_iff]
    refine ⟨host.record before post, rfl, ?_⟩
    rw [Except.bind_eq_ok_iff]
    exact ⟨(), check_eq_ok.mpr hsame, rfl⟩
  have hcomputed : host.computed input (request.field "arguments") state before'
      (some (host.record before post)) view = .ok (.post post view) := by
    unfold Host.computed judged Host.mutate
    rw [hop]
    exact hrecover
  let action := host.action input request
    (host.binding before' post (some (host.record before post)) .null)
  have hready : host.ready input request state before' (some (host.record before post)) post view =
      .ok { view with status := "write-ready", action := some action } := by
    unfold Host.ready
    rw [Except.bind_eq_ok_iff]
    refine ⟨(), validate_eq_ok.mpr B.valid, ?_⟩
    rw [if_neg fun h => h.2 hop]
    rfl
  refine ⟨{ view with status := "write-ready", action := some action }, action, state, before', ?_,
    rfl, hsnapshot, rfl⟩
  unfold Host.viewAt
  rw [Except.bind_eq_ok_iff]
  refine ⟨owner, okOr_eq_ok.mpr howner, ?_⟩
  rw [if_neg fun h => by rw [hrequest] at h; cases h.1]
  simp only [Except.bind_eq_ok_iff]
  refine ⟨_, hsnapshot, _, hpending, ?_⟩
  rw [hrequest]
  simp only [Except.bind_eq_ok_iff]
  exact ⟨(), hcheck, _, hcomputed, Except.bind_eq_ok_iff.mpr ⟨_, hready, rfl⟩⟩

/-- **Recovery of an interrupted publication.** Let a publication of a postimage be cut off anywhere
    after its record is complete, and let any requests on the store be executed and cut off anywhere
    while it is pending. Then the state file is the one before or the postimage. A pending
    publication has no temporary, or a prefix of the postimage in it. With no temporary or a complete
    one, an admitted recovery that is not cut off ends with the postimage and nothing else left. A
    temporary that breaks off is refused and preserved, with every other file but the lock. -/
theorem recovers (host : Host) (files₀ files₁ files : Files) (revalidate : Result Unit)
    (binding : Value) (hprepared : files₀ .prepared = none) (htemp : files₀ .temp = none)
    (hlock : LockFile files₀)
    (hcut : Stops exec 0 (host.executeChecked revalidate binding) files₀ files₁)
    (hrecord : files₁ .prepared = some (toVec
      (host.record (binding.field "before") (binding.field "postimage"))))
    (hrun : Recovering host files₁ files) :
    (files .state = files₀ .state ∨ files .state = some (toVec (binding.field "postimage"))) ∧
    ((files .prepared = none ∧ files .temp = none ∧
        parsedState (files .state) = .ok (binding.field "postimage")) ∨
      (files .prepared).isSome = true ∧
      (files .temp = none ∨ files .temp = some (toVec (binding.field "postimage")) ∨
        Broken (binding.field "postimage") files) ∧
      ∀ input, RecoverRequest host files input →
        ∃ view action, host.viewAt files input = .ok (some view) ∧ view.action = some action ∧
          (¬ Broken (binding.field "postimage") files →
            ∃ files', (host.executeChecked (.ok ()) (actionBinding action)).alone exec 0 files =
                (.ok (outcome (actionBinding action)), files') ∧
              files' .prepared = none ∧ files' .temp = none ∧
              parsedState (files' .state) = .ok (binding.field "postimage")) ∧
          (Broken (binding.field "postimage") files →
            ∃ e files', (host.executeChecked (.ok ()) (actionBinding action)).alone exec 0 files =
                (.error e, files') ∧ ∀ path, path ≠ .lock → files' path = files path)) := by
  have hpublished := stops_of_guards (first_guards hprepared htemp hlock) hcut
  have hstart : Bound host (files₀ .state) (binding.field "before") (binding.field "postimage") ∧
      Pending host (files₀ .state) (binding.field "before") (binding.field "postimage") files₁ := by
    rcases hpublished with U | ⟨B, P | D⟩
    · exact U.pending hrecord
    · exact ⟨B, P⟩
    · rw [D.prepared] at hrecord
      cases hrecord
  obtain ⟨B, P₁⟩ := hstart
  rcases hrun.pending_or_done B P₁ with P | D
  · refine ⟨P.state, Or.inr ⟨by rw [P.prepared]; rfl, ?_, fun input R => ?_⟩⟩
    · rcases P.complete_or_broken with (h | h) | h
      · exact Or.inl h
      · exact Or.inr (Or.inl h)
      · exact Or.inr (Or.inr h)
    obtain ⟨view, action, state, before', hview, haction, hsnapshot, hbinding⟩ := recover_view B P R
    refine ⟨view, action, hview, haction, fun hcomplete => ?_, fun hbroken => ?_⟩
    · have htemp' := P.complete_or_broken.resolve_right hcomplete
      have hend := alone_of_guards (recover_guards .null (.ok ()) B P hsnapshot htemp') rfl
      rw [hbinding]
      exact ⟨_, Prod.ext hend.1 rfl, hend.2.prepared, hend.2.temp, hend.2.parsed⟩
    · have hguards := recover_refused .null (.ok ()) B P hsnapshot hbroken
      obtain ⟨e, he⟩ := alone_of_guards hguards
      rw [hbinding]
      refine ⟨e, _, Prod.ext he rfl, fun path hpath => ?_⟩
      rcases stops_of_guards hguards stops_alone with h | h
      · exact congrFun h path
      · exact (congrFun h path).trans (Files.set_other _ _ hpath)
  · refine ⟨?_, Or.inl ⟨D.prepared, D.temp, D.parsed⟩⟩
    rcases D.state with h | h
    · exact Or.inr h
    · exact Or.inl h.1

/-! A capture on the empty store that is cut off once its temporary exists, with the SHA-256 values
of what it hashes. -/

def sampleEvent : String := "sha256:3eb2a3bbec486354d1840b3e6b95292f666b9c4fbeeba82deb6f2ab008d65131"

def sampleRow : Value :=
  .object [("captured_at", .ofNat 1700000000), ("consequence", .string "slow setup"),
    ("event", .string sampleEvent), ("id", .string sampleEvent),
    ("material", .object [("id", .string "setup"), ("kind", .string "observation"),
      ("source", .string "notes.md")]),
    ("paths", .strings ["src"]), ("semantic_routes", .array []),
    ("uncertainty", .string "seen once")]

def samplePost : Value :=
  .object [("candidates", .array [sampleRow]), ("kind", .string STATE_KIND)]

def sampleRevision : String := "sha256:ff727a35b8525dcf35f9e873ee1ac4d59e12babaf6803bc76f6702dfb8187e91"

def sampleHost : Host where
  digest v :=
    if v = .array [.string "setup", .string "notes.md"] then sampleEvent
    else if v = samplePost then "sha256:a3e2770f67e4c659f09fd9aa33307dc6ded802d62f83209bf6ce5014c0fd0d2d"
    else sampleRevision
  hash _ := sampleRevision
  digest_text v := by
    split
    · decide
    split <;> decide
  hash_text _ := by decide

def sampleBinding : Value := sampleHost.binding .null samplePost none .null

def sampleCut : Files :=
  ((noFiles.set .lock (some .empty)).set .prepared
    (some (toVec (sampleHost.record .null samplePost)))).set .temp (some .empty)

def sampleInput : Input where
  target := "."
  work := .null
  material := .null
  changed := []
  routes := .null
  config := .null
  contract := .object [("owners", .array [.object [("owner", .string "memory")]])]
  verification := .null
  request := some (.object [("arguments", operationOnly "recover"),
    ("source_revision", .string sampleRevision)])
  clock := 1700000100
  owners := {
    prepareRequest := fun _ _ _ => .ok ()
    dependencyCurrent := fun _ => true
    advisoryRequest := fun _ => .ok .null
    confirmedPublication := fun _ _ => .ok .null
    checkedReceivingConsequence := fun _ _ => .ok .null }

theorem samplePost_valid : sampleHost.Valid samplePost := by
  have hsize : (toVec samplePost).size ≤ BYTES :=
    size_le_of_bound (by decide)
  refine ⟨⟨[sampleRow], rfl, by decide, ?_, by simp⟩, rfl, ⟨_, rfl, rfl⟩, hsize⟩
  intro row hrow
  rw [List.mem_singleton.mp hrow]
  exact ⟨rfl, rfl, rfl, rfl, ⟨_, rfl, by decide⟩, rfl, rfl, by decide⟩

/-- A first publication can be cut off when its temporary has just been created. -/
theorem stops_at_temp (hvalid : host.Valid post) :
    Stops exec 0 (host.executeChecked (.ok ()) (host.binding .null post none .null)) noFiles
      (((noFiles.set .lock (some .empty)).set .prepared
        (some (toVec (host.record .null post)))).set .temp (some .empty)) := by
  have hsnapshot : host.snapshot none = .ok (empty, .null) := by
    rw [Host.snapshot, Except.bind_eq_ok_iff]
    refine ⟨none, rfl, ?_⟩
    rw [Except.bind_eq_ok_iff]
    refine ⟨empty, rfl, ?_⟩
    rw [Except.bind_eq_ok_iff]
    refine ⟨(), validate_eq_ok.mpr ⟨⟨[], rfl, by decide, by simp, by simp⟩, rfl, ⟨_, rfl, rfl⟩, ?_⟩,
      rfl⟩
    exact size_le_of_bound (by decide)
  have hbound : host.bound (host.binding .null post none .null) none none =
      .ok (empty, .null, none) :=
    bound_ok.mpr ⟨hsnapshot, rfl, rfl, rfl, hvalid, rfl⟩
  have hlock := @openLock_guards (fun _ => True) noFiles (Or.inl rfl) trivial trivial
  have hopen := alone_of_guards hlock
  refine Stops.after (Prod.ext hopen.1 hopen.2) (Stops.after rfl (Stops.after rfl (Stops.after rfl ?_)))
  refine Stops.after (a := (empty, Value.null, none)) (Prod.ext hbound rfl) ?_
  refine Stops.after (prepare_alone (record_fits (Or.inl rfl) hvalid.size) rfl rfl rfl) ?_
  unfold finish
  refine Stops.bind ?_
  unfold prepareTemp
  -- The temporary exists and has no byte yet.
  refine Stops.after (readFile_absent rfl) (Stops.after (readFile_absent rfl) ?_)
  exact Stops.later (Stops.here _ _)

theorem sample_cut :
    Stops exec 0 (sampleHost.executeChecked (.ok ()) sampleBinding) noFiles sampleCut :=
  stops_at_temp samplePost_valid

theorem toVec_ne_empty (v : Value) : toVec v ≠ .empty := by
  intro h
  have hv := fromSlice_toVec v
  rw [h, fromSlice, String.fromUTF8?, dif_pos ByteArray.isValidUTF8_empty] at hv
  cases hv

theorem sampleCut_broken : Broken samplePost sampleCut :=
  ⟨.empty, toVec samplePost, rfl, toVec_ne_empty _, ByteArray.empty_append.symm⟩

theorem sampleCut_pending : Bound sampleHost none .null samplePost ∧
    Pending sampleHost none .null samplePost sampleCut := by
  have hpublished := stops_of_guards (@first_guards sampleHost noFiles sampleBinding (.ok ()) rfl rfl (Or.inl rfl)) sample_cut
  rcases hpublished with U | ⟨B, P | D⟩
  · exact U.pending rfl
  · exact ⟨B, P⟩
  · cases D.prepared

theorem sampleInput_recovers : RecoverRequest sampleHost sampleCut sampleInput where
  owner := rfl
  request := by
    refine ⟨_, rfl, rfl, fun state before prepared _ _ => ?_⟩
    rw [currentRequest, Except.bind_eq_ok_iff]
    refine ⟨(), rfl, check_eq_ok.mpr ?_⟩
    have hrevision : sampleHost.revision sampleInput before prepared = sampleRevision := by
      unfold Host.revision sampleHost
      simp only
      rw [if_neg (by simp), if_neg (by simp [samplePost])]
    rw [hrevision]
    rfl

theorem recovers_sample :
    RecoverRequest sampleHost sampleCut sampleInput ∧
      (sampleCut .state = none ∨ sampleCut .state = some (toVec samplePost)) :=
  ⟨sampleInput_recovers, (recovers sampleHost noFiles sampleCut sampleCut (.ok ()) sampleBinding rfl
    rfl (Or.inl rfl) sample_cut rfl .start).1⟩

/-- **A recovery can be refused.** The publication was cut off while it wrote its temporary. -/
theorem recover_refused_sample :
    Stops exec 0 (sampleHost.executeChecked (.ok ()) sampleBinding) noFiles sampleCut ∧
      sampleCut .prepared = some (toVec (sampleHost.record .null samplePost)) ∧
      RecoverRequest sampleHost sampleCut sampleInput ∧
      ∃ view action, sampleHost.viewAt sampleCut sampleInput = .ok (some view) ∧
        view.action = some action ∧
        ∃ e, ((sampleHost.executeChecked (.ok ()) (actionBinding action)).alone
          exec 0 sampleCut).1 = .error e := by
  obtain ⟨B, P⟩ := sampleCut_pending
  obtain ⟨view, action, state, before', hview, haction, hsnapshot, hbinding⟩ :=
    recover_view B P sampleInput_recovers
  refine ⟨sample_cut, rfl, sampleInput_recovers, view, action, hview, haction, ?_⟩
  rw [hbinding]
  exact alone_of_guards (recover_refused .null (.ok ()) B P hsnapshot sampleCut_broken)

end AgenticCore.MemoryCandidates
