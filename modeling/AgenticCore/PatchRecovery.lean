import AgenticCore.PatchIntegration

/-!
# Patch integration recovers

An integration that is cut off after any of its steps and executed again, any number of times.

* `first_guards`, `again_guards` : the first execution, and one after the carrier.
* `preserves_execute` : a file that holds something else is never overwritten.
* `Reach`             : the stores that interrupted executions leave.
* `recovers_iff_stable` : **integration is atomic up to recovery exactly when every merged text
                        merges to itself**.
-/

set_option autoImplicit false

namespace AgenticCore.NativePatch

open Json Text Interleaving Attempt Repository
open AttemptStore hiding StoreM Op Answer exec

variable {host : Host}

namespace Integration

variable {I : Integration host} {s : Files}

/-! ### Publication -/

variable (I) in
/-- The result is not there yet. -/
def Pending (s : Files) : Prop := I.Inv s ∧ s[I.effect.resultPath]? = none

theorem stage_guards {f : Subject} (hf : f ∈ I.files) (h : I.Pending s)
    (hbefore : s[f.path]? = some f.before.toUTF8) (hne : f.before.toUTF8 ≠ f.after.toUTF8)
    {resumed : Bool} (hresumed : resumed = true ∨ s[I.temporary f]? = none)
    {Q : Result Unit → Files → Prop}
    (hQ : ∀ s', I.Pending s' → s'[I.temporary f]? = some f.after.toUTF8 →
      (∀ path, path ≠ I.temporary f → s'[path]? = s[path]?) → Q (.ok ()) s') :
    Guards exec 0 I.Inv (stage resumed (I.temporary f) f.after.toUTF8) Q s := by
  have hread : Verification.repositoryRelative (I.temporary f) = true :=
    temporary_read I.digest_text (path_read hf)
  have hsize : ∀ bytes ∈ s[I.temporary f]?, bytes.size ≤ Verification.MAX_SOURCE_BYTES := by
    intro bytes hbytes
    rw [(h.1.temporary f hf bytes hbytes).1]
    exact (text_size hf).2
  unfold stage
  refine reads_ok_guards (reads_verification hread hsize) h.1 ?_
  cases hfound : s[I.temporary f]? with
  | none =>
    have hstaged := Inv.stage hf h.1 h.2 hbefore hne
    refine createNew_guards hfound h.1 hstaged.1 (hQ _ hstaged ?_ fun path hpath => ?_)
    · exact Std.ExtTreeMap.getElem?_insert_self
    · exact getElem?_insert_of_ne hpath
  | some bytes =>
    obtain ⟨rfl, -, -⟩ := h.1.temporary f hf bytes hfound
    have htrue : resumed = true := by
      rcases hresumed with hresumed | hnone
      · exact hresumed
      · rw [hfound] at hnone
        cases hnone
    rw [htrue]
    exact guards_ofExcept h.1 (by
      rw [check_pos ⟨rfl, rfl⟩]
      exact hQ s h hfound fun _ _ => rfl)

/-- A file is replaced, or it is at its new text already. -/
theorem publish_guards (hfits : I.Fits) {f : Subject} (hf : f ∈ I.files) (h : I.Pending s)
    {resumed : Bool} (hresumed : resumed = true ∨ s[I.temporary f]? = none)
    {Q : Result Unit → Files → Prop}
    (hok : ∀ s', I.Pending s' → s'[f.path]? = some f.after.toUTF8 →
      (∀ path, path ≠ f.path → path ≠ I.temporary f → s'[path]? = s[path]?) → Q (.ok ()) s')
    (herror : ∀ e s', ¬ I.Stable → Q (.error e) s') :
    Guards exec 0 I.Inv (host.publish I.revalidate resumed I.invocation f.change) Q s := by
  unfold Host.publish
  refine reads_ok_guards (reads_path hf (h.1.file f hf)) h.1 ?_
  by_cases hafter : s[f.path]? = some f.after.toUTF8
  · rw [hafter]
    refine step_guards (a := f.after.toUTF8) rfl h.1 ?_
    show Guards exec 0 I.Inv (if f.after.toUTF8 = f.after.toUTF8 then _ else _) Q s
    rw [if_pos rfl]
    exact guards_pure h.1 (hok s h hafter fun _ _ _ => rfl)
  · have hbefore := (h.1.file f hf).resolve_right hafter
    have hne : f.before.toUTF8 ≠ f.after.toUTF8 := by
      rwa [hbefore, Option.some.injEq] at hafter
    rw [hbefore]
    refine step_guards (a := f.before.toUTF8) rfl h.1 ?_
    show Guards exec 0 I.Inv (if f.before.toUTF8 = f.after.toUTF8 then _ else _) Q s
    rw [if_neg hne]
    refine step_guards (check_pos rfl) h.1 (guards_bind ?_)
    refine stage_guards hf h hbefore hne hresumed fun s' h' htemporary hsame => ?_
    have hbefore' : s'[f.path]? = some f.before.toUTF8 := by
      rw [hsame _ (I.apart f hf f hf)]
      exact hbefore
    refine revalidate_guards hfits h'.1 (fun _ => ?_) fun e hunstable => herror e s' hunstable
    refine reads_ok_guards (reads_path hf (Or.inl hbefore')) h'.1 ?_
    refine step_guards (check_pos hbefore') h'.1 ?_
    have hreplaced := Inv.replace hf h'.1 h'.2
    have hother : ∀ path, path ≠ f.path → path ≠ I.temporary f →
        ((s'.erase (I.temporary f)).insert f.path f.after.toUTF8)[path]? = s[path]? := by
      intro path hpath htemporary
      rw [getElem?_insert_of_ne hpath, getElem?_erase_of_ne htemporary]
      exact hsame path htemporary
    exact rename_guards htemporary h'.1 hreplaced.1
      (hok _ hreplaced Std.ExtTreeMap.getElem?_insert_self hother)

/-- Every file is replaced. -/
theorem publishAll_guards (hfits : I.Fits) {resumed : Bool} {Q : Result Unit → Files → Prop}
    (herror : ∀ e s', ¬ I.Stable → Q (.error e) s') :
    ∀ {files : List Subject} {s : Files}, (∀ f ∈ files, f ∈ I.files) →
      (files.map Subject.path).Nodup → I.Pending s →
      (resumed = true ∨ ∀ f ∈ files, s[I.temporary f]? = none) →
      (∀ s', I.Pending s' → (∀ f ∈ files, s'[f.path]? = some f.after.toUTF8) →
        (∀ path, (∀ f ∈ files, path ≠ f.path ∧ path ≠ I.temporary f) → s'[path]? = s[path]?) →
        Q (.ok ()) s') →
      Guards exec 0 I.Inv
        ((files.map Subject.change).forM (host.publish I.revalidate resumed I.invocation)) Q s
  | [], s, _, _, h, _, hok => guards_pure h.1 (hok s h (by simp) fun _ _ => rfl)
  | f :: files, s, hmem, hnodup, h, hresumed, hok => by
    rw [List.map_cons, List.nodup_cons] at hnodup
    have hf := hmem f List.mem_cons_self
    have hrest : ∀ g ∈ files, g ∈ I.files := fun g hg => hmem g (List.mem_cons_of_mem _ hg)
    have hne : ∀ g ∈ files, g.path ≠ f.path := fun g hg heq =>
      hnodup.1 (heq ▸ List.mem_map_of_mem hg)
    have htne : ∀ g ∈ files, I.temporary g ≠ I.temporary f := fun g hg heq =>
      hne g hg (temporary_inj heq)
    show Guards exec 0 I.Inv (host.publish I.revalidate resumed I.invocation f.change >>= fun _ =>
      (files.map Subject.change).forM (host.publish I.revalidate resumed I.invocation)) Q s
    refine guards_bind (publish_guards hfits hf h ?_ (fun s' h' hafter hsame => ?_) fun e s' => ?_)
    · exact hresumed.imp id fun hnone => hnone f List.mem_cons_self
    · refine publishAll_guards hfits herror hrest hnodup.2 h' ?_ fun s'' h'' hafters hsame' => ?_
      · refine hresumed.imp id fun hnone g hg => ?_
        have hsame_g := hsame (I.temporary g) (I.apart f hf g (hrest g hg)).symm (htne g hg)
        rw [hsame_g]
        exact hnone g (List.mem_cons_of_mem _ hg)
      · refine hok s'' h'' (fun g hg => ?_) fun path hpath => ?_
        · rcases List.mem_cons.mp hg with rfl | hg
          · rw [hsame' _ fun g hg => ⟨(hne g hg).symm, I.apart _ hf g (hrest g hg)⟩]
            exact hafter
          · exact hafters g hg
        · rw [hsame' path fun g hg => hpath g (List.mem_cons_of_mem _ hg)]
          exact hsame path (hpath f List.mem_cons_self).1 (hpath f List.mem_cons_self).2
    · exact herror e s'

/-- Every file is found at its new text. -/
theorem verifyAll_guards (h : I.Inv s) {Q : Result Unit → Files → Prop} (hok : Q (.ok ()) s) :
    ∀ {files : List Subject}, (∀ f ∈ files, f ∈ I.files) →
      (∀ f ∈ files, s[f.path]? = some f.after.toUTF8) →
      Guards exec 0 I.Inv ((files.map Subject.change).forM verify) Q s
  | [], _, _ => guards_pure h hok
  | f :: files, hmem, hafter => by
    have hf := hafter f List.mem_cons_self
    show Guards exec 0 I.Inv (verify f.change >>= fun _ => (files.map Subject.change).forM verify) Q s
    have hverify : Repository.Reads s (verify f.change) (.ok ()) :=
      reads_bind (reads_path (hmem f List.mem_cons_self) (Or.inr hf))
        (reads_done (check_pos hf))
    refine reads_ok_guards hverify h ?_
    exact verifyAll_guards h hok (fun g hg => hmem g (List.mem_cons_of_mem _ hg)) fun g hg =>
      hafter g (List.mem_cons_of_mem _ hg)

/-! ### The whole effect -/

variable (I) in
/-- How an execution ends. -/
def Ended : Result Executed → Files → Prop
  | .ok executed, s => executed = ⟨I.outcome, I.effect.settled I.outcome⟩ ∧
      I.effect.Committed I.outcome s ∧
      (∀ f ∈ I.files, s[f.path]? = some f.after.toUTF8 ∧ s[I.temporary f]? = none) ∧ I.Stable
  | .error _, _ => ¬ I.Stable

/-- Committed, and every temporary gone. -/
theorem Inv.ended (h : I.Inv s) (hcommitted : I.effect.Committed I.outcome s) :
    I.Ended (.ok ⟨I.outcome, I.effect.settled I.outcome⟩) s := by
  obtain ⟨hafter, hstable⟩ := h.committed hcommitted
  refine ⟨rfl, hcommitted, fun f hf => ⟨hafter f hf, ?_⟩, hstable⟩
  cases hfound : s[I.temporary f]? with
  | none => rfl
  | some bytes =>
    obtain ⟨-, hbefore, hne⟩ := h.temporary f hf bytes hfound
    rw [hafter f hf] at hbefore
    exact absurd (Option.some.inj hbefore).symm hne

/-- The end of an integration whose files are all replaced. -/
theorem finish_guards (hfits : I.Fits) (h : I.Pending s)
    (hafter : ∀ f ∈ I.files, s[f.path]? = some f.after.toUTF8) :
    Guards exec 0 I.Inv (I.revalidate >>= fun _ =>
      (I.files.map Subject.change).forM verify >>= fun _ =>
        evidence (host.commit ⟨I.effect.requested, I.effect.custody, I.outcome⟩) >>= fun committed =>
          pure ⟨I.outcome, committed.2⟩) I.Ended s := by
  refine revalidate_guards hfits h.1 (fun hagain => ?_) fun _ hunstable => hunstable
  have hstable : I.Stable := fun f hf => hagain f hf (hafter f hf)
  have hcommit := Inv.commit h.1 hafter hstable
  refine guards_bind (verifyAll_guards h.1 ?_ (fun _ hf => hf) hafter)
  refine guards_bind (commit_guards I.hash_text h.1.attempted allows h.2 h.1 hcommit ?_)
  exact guards_pure hcommit (hcommit.ended Std.ExtTreeMap.getElem?_insert_self)

/-- Everything after the carrier. -/
theorem publishing_guards (hfits : I.Fits) (h : I.Pending s) {resumed : Bool}
    (hresumed : resumed = true ∨ ∀ f ∈ I.files, s[I.temporary f]? = none) :
    Guards exec 0 I.Inv (host.replaceFiles I.effect.requested I.invocation I.revalidate resumed
      I.effect.custody) I.Ended s := by
  unfold Host.replaceFiles
  refine step_guards changes_eq h.1 (guards_bind ?_)
  refine publishAll_guards hfits (fun _ _ hunstable => hunstable) (fun _ hf => hf) I.nodup h hresumed ?_
  intro s' h' hafter _
  exact finish_guards hfits h' hafter

variable (I) in
/-- The decision returns the invocation, with its operation. -/
def Offers (decision : Value) : Prop := I.effect.Ready decision ∧ I.effect.Kept decision

/-- The request names the source of the carrier. -/
theorem execute_eq (decision : Value) : I.execute decision = (do
    openLock LOCK "unrecognized patch integration lock preserved"
    I.revalidate
    let request ← okOr (requestOf (requestsOf I.invocation)) "exact integration request missing"
    let source ← okOr (request.field "source_revision").asStr "integration source revision missing"
    let held ← host.retained I.effect.requested source
    check (envelope I.effect.requested I.invocation I.outcome ≤ Verification.MAX_SOURCE_BYTES)
      "complete patch recovery carrier exceeds its bounded reader"
    check (∀ h ∈ held, h.invocation = I.invocation) "patch integration custody collision; preserved"
    let (admission, custody) ← evidence
      (host.admitAttempt (I.effect.admitInput decision (held.map (·.custody))))
    match admission.disposition with
    | .replay => pure ⟨.orNull admission.record.outcome, custody⟩
    | .execute => host.integrate I.effect.requested I.invocation I.revalidate source held custody
    | .uncertain => do
      check (held.isSome = true) "patch integration requires exact recovery"
      host.integrate I.effect.requested I.invocation I.revalidate source held custody) := rfl

/-- An execution after the carrier. -/
theorem again_guards (hfits : I.Fits) {decision : Value} (hdecision : I.Offers decision)
    (h : I.Inv s) : Guards exec 0 I.Inv (I.execute decision) I.Ended s := by
  rw [execute_eq]
  have hlocked : I.Inv (s.insert LOCK .empty) :=
    h.of_same (Or.inr Std.ExtTreeMap.getElem?_insert_self) fun path hpath =>
      getElem?_insert_of_ne hpath
  refine guards_bind (openLock_guards h.lock h hlocked fun s' _ _ h' => ?_)
  refine revalidate_guards hfits h' (fun _ => ?_) fun _ hunstable => hunstable
  refine step_guards (okOr_eq_ok.mpr I.requested) h' ?_
  refine step_guards (okOr_eq_ok.mpr request_source) h' ?_
  obtain ⟨hopen, hsettled⟩ := reads_retained hfits h'
  rcases h'.opened with hnone | hcommitted
  · refine reads_ok_guards (hopen hnone) h' ?_
    refine step_guards (check_pos hfits.envelope) h' ?_
    refine step_guards (check_pos (by simp [carrier])) h' ?_
    refine reads_ok_guards (reads_admit_uncertain I.hash_text hdecision.2 h'.attempted) h' ?_
    refine step_guards (check_pos rfl) h' ?_
    exact publishing_guards hfits ⟨h', hnone⟩ (Or.inl rfl)
  · refine reads_ok_guards (hsettled hcommitted) h' ?_
    refine step_guards (check_pos hfits.envelope) h' ?_
    refine step_guards (check_pos (by simp [settled])) h' ?_
    refine reads_ok_guards
      (reads_admit_replay I.hash_text hdecision.2 h'.attempted allows hcommitted) h' ?_
    exact guards_pure h' (h'.ended hcommitted)

variable (I) in
/-- Nothing of this effect is there, and every file is at its first text. -/
structure Fresh (s : Files) : Prop where
  lock : s[LOCK]? = none ∨ s[LOCK]? = some .empty
  marker : s[I.marker]? = none
  attempt : s[I.effect.attemptPath]? = none
  result : s[I.effect.resultPath]? = none
  temporary : ∀ f ∈ I.files, s[I.temporary f]? = none
  file : ∀ f ∈ I.files, s[f.path]? = some f.before.toUTF8

theorem Fresh.locked {s' : Files} (h : I.Fresh s) (hlock : s'[LOCK]? = some .empty)
    (hsame : ∀ path, path ≠ LOCK → s'[path]? = s[path]?) : I.Fresh s' := by
  refine ⟨Or.inr hlock, ?_, ?_, ?_, fun f hf => ?_, fun f hf => ?_⟩
  · rw [hsame _ marker_apart.1.symm]
    exact h.marker
  · rw [hsame _ lock_apart.1.symm]
    exact h.attempt
  · rw [hsame _ lock_apart.2.symm]
    exact h.result
  · rw [hsame _ (apart_owned (I := I) (temporary_owned hf)).1]
    exact h.temporary f hf
  · rw [hsame _ (apart_owned (I := I) (path_owned hf)).1]
    exact h.file f hf

/-- The attempt and the carrier make a fresh store one to recover from. -/
theorem Fresh.carried (h : I.Fresh s) : I.Pending
    ((s.insert I.effect.attemptPath (toVec I.effect.attempted.toValue)).insert I.marker
      (toVec I.carrier.toValue)) ∧ ∀ f ∈ I.files,
    ((s.insert I.effect.attemptPath (toVec I.effect.attempted.toValue)).insert I.marker
      (toVec I.carrier.toValue))[I.temporary f]? = none := by
  have hother : ∀ path, path ≠ I.effect.attemptPath → path ≠ I.marker →
      ((s.insert I.effect.attemptPath (toVec I.effect.attempted.toValue)).insert I.marker
        (toVec I.carrier.toValue))[path]? = s[path]? := by
    intro path hattempt hmarker
    rw [getElem?_insert_of_ne hmarker, getElem?_insert_of_ne hattempt]
  have hresult := hother _ (Effect.attemptPath_ne_resultPath (e := I.effect)).symm marker_apart.2.2
  rw [h.result] at hresult
  have htemporary : ∀ f ∈ I.files, _ = none := fun f hf => by
    have hapart := apart_owned (I := I) (temporary_owned hf)
    exact (hother _ hapart.2.2.1 hapart.2.1).trans (h.temporary f hf)
  refine ⟨⟨⟨?_, Std.ExtTreeMap.getElem?_insert_self, ?_, Or.inl hresult, fun f hf => Or.inl ?_, ?_,
    ?_⟩, hresult⟩, htemporary⟩
  · rw [hother _ lock_apart.1 marker_apart.1]
    exact h.lock
  · rw [Effect.Attempted, getElem?_insert_of_ne marker_apart.2.1]
    exact Std.ExtTreeMap.getElem?_insert_self
  · have hapart := apart_owned (I := I) (path_owned hf)
    exact (hother _ hapart.2.2.1 hapart.2.1).trans (h.file f hf)
  · intro f hf bytes hbytes
    rw [htemporary f hf] at hbytes
    cases hbytes
  · intro hcommitted
    rw [Effect.Committed, hresult] at hcommitted
    cases hcommitted

/-- The first execution: until the carrier is there, nothing but evidence is written. -/
theorem first_guards (hfits : I.Fits) {decision : Value} (hdecision : I.Offers decision)
    (h : I.Fresh s) :
    Guards exec 0 (fun s' => s'[I.marker]? = none ∨ I.Inv s') (I.execute decision)
      (fun r s' => I.Inv s' ∧ I.Ended r s') s := by
  rw [execute_eq]
  have hlocked : (s.insert LOCK .empty)[I.marker]? = none := by
    rw [getElem?_insert_of_ne marker_apart.1.symm]
    exact h.marker
  refine guards_bind (openLock_guards h.lock (Or.inl h.marker) (Or.inl hlocked)
    fun s' hlock hsame _ => ?_)
  have h' := h.locked hlock hsame
  have hnone : s'[I.marker]? = none ∨ I.Inv s' := Or.inl h'.marker
  refine reads_ok_guards (reads_revalidate_first h'.marker h'.file) hnone ?_
  refine step_guards (okOr_eq_ok.mpr I.requested) hnone ?_
  refine step_guards (okOr_eq_ok.mpr request_source) hnone ?_
  refine reads_ok_guards (reads_retained_none h'.marker) hnone ?_
  refine step_guards (check_pos hfits.envelope) hnone ?_
  refine step_guards (check_pos (by simp)) hnone (guards_bind ?_)
  have hadmitted : (s'.insert I.effect.attemptPath
      (toVec I.effect.attempted.toValue))[I.marker]? = none := by
    rw [getElem?_insert_of_ne marker_apart.2.1.symm]
    exact h'.marker
  refine admit_guards I.hash_text hdecision.1 h'.attempt h'.result hnone (Or.inl hadmitted) ?_
  show Guards exec 0 _ (host.integrate I.effect.requested I.invocation I.revalidate I.source none
    I.effect.custody) _ _
  obtain ⟨hpending, htemporary⟩ := h'.carried
  unfold Host.integrate
  refine guards_bind ?_
  show Guards exec 0 _ (liftM (check _ _) >>= fun _ => createNew I.marker _) _ _
  refine step_guards (check_pos hfits.carrier) (Or.inl hadmitted) ?_
  refine createNew_guards hadmitted (Or.inl hadmitted) (Or.inr hpending.1) ?_
  exact (publishing_guards hfits hpending (Or.inr htemporary)).mono (fun _ => Or.inr)
    fun _ _ hinv hended => ⟨hinv, hended⟩

/-! ### Files that hold something else -/

theorem retained_adds (source : String) :
    Within Op.Adds (host.retained I.effect.requested source) := by
  unfold Host.retained
  refine within_bind verification_adds fun found => ?_
  cases found with
  | none => exact within_pure
  | some bytes =>
    refine within_bind within_lift fun value => within_bind within_lift fun held => ?_
    refine within_bind (evidence_adds _) fun prepared => within_bind within_lift fun _ => ?_
    refine within_bind within_lift fun committed => within_bind verification_adds fun result => ?_
    cases result with
    | none => exact within_pure
    | some bytes => exact within_bind (evidence_adds _) fun _ => within_pure

theorem revalidate_adds : Within Op.Adds I.revalidate := by
  have hchange : ∀ held file, Within Op.Adds (host.change held file) := fun held file =>
    within_bind verification_adds fun found => within_lift
  unfold revalidate Host.revalidate Host.view
  refine within_bind (within_bind within_lift fun request => ?_) fun proposal => within_lift
  refine within_bind (retained_adds _) fun held => ?_
  refine within_bind (within_mapM (hchange held)) fun files => ?_
  exact within_bind within_lift fun _ => within_pure

/-- A file that is not at its first text is not replaced. -/
theorem preserves_publish {f g : Subject} (hf : f ∈ I.files) (hg : g ∈ I.files) {bytes : ByteArray}
    (hne : bytes ≠ f.before.toUTF8) {resumed : Bool} :
    Preserves f.path bytes (host.publish I.revalidate resumed I.invocation g.change) := by
  unfold Host.publish
  refine preserves_bind (preserves_adds verification_adds) fun found => ?_
  refine preserves_bind (preserves_adds within_lift) fun current => ?_
  split
  · exact preserves_adds within_pure
  · refine preserves_bind (preserves_adds within_lift) fun _ => ?_
    refine preserves_bind (preserves_adds ?_) fun _ => ?_
    · unfold stage
      refine within_bind verification_adds fun found => ?_
      cases found with
      | none => exact createNew_adds
      | some bytes => exact within_lift
    · refine preserves_bind (preserves_adds revalidate_adds) fun _ => ?_
      by_cases hsame : f.path = g.path
      · obtain rfl := eq_of_path hf hg hsame
        exact preserves_refused hne
      · refine preserves_bind (preserves_adds verification_adds) fun found => ?_
        refine preserves_bind (preserves_adds within_lift) fun _ => ?_
        exact preserves_rename (I.apart f hf g hg) hsame

theorem preserves_execute {f : Subject} (hf : f ∈ I.files) {bytes : ByteArray}
    (hne : bytes ≠ f.before.toUTF8) (decision : Value) :
    Preserves f.path bytes (I.execute decision) := by
  have hreplace : ∀ resumed custody, Preserves f.path bytes
      (host.replaceFiles I.effect.requested I.invocation I.revalidate resumed custody) := by
    intro resumed custody
    unfold Host.replaceFiles
    refine preserves_step fun files hfiles => ?_
    rw [changes_eq] at hfiles
    rw [← Except.ok.inj hfiles]
    refine preserves_bind (preserves_forM fun change hchange => ?_) fun _ => ?_
    · obtain ⟨g, hg, rfl⟩ := List.mem_map.mp hchange
      exact preserves_publish hf hg hne
    · refine preserves_bind (preserves_adds revalidate_adds) fun _ => ?_
      refine preserves_bind (preserves_forM fun change _ => ?_) fun _ => ?_
      · exact preserves_adds (within_bind verification_adds fun _ => within_lift)
      · exact preserves_adds (within_bind (evidence_adds _) fun _ => within_pure)
  have hintegrate : ∀ source held custody, Preserves f.path bytes
      (host.integrate I.effect.requested I.invocation I.revalidate source held custody) := by
    intro source held custody
    refine preserves_bind (preserves_adds ?_) fun _ => hreplace _ _
    cases held with
    | none => exact within_bind within_lift fun _ => createNew_adds
    | some held => exact within_pure
  unfold execute Host.execute
  refine preserves_bind (preserves_adds openLock_adds) fun _ => ?_
  refine preserves_bind (preserves_adds revalidate_adds) fun _ => ?_
  refine preserves_step fun request _ => preserves_step fun source _ => ?_
  refine preserves_bind (preserves_adds (retained_adds _)) fun held => ?_
  refine preserves_step fun _ _ => preserves_step fun _ _ => ?_
  refine preserves_bind (preserves_adds (evidence_adds _)) fun admitted => ?_
  obtain ⟨⟨disposition, record⟩, custody⟩ := admitted
  cases disposition with
  | replay => exact preserves_adds within_pure
  | execute => exact hintegrate _ _ _
  | uncertain => exact preserves_step fun _ _ => hintegrate _ _ _

/-! ## Runs -/

variable (I) in
/-- The stores that interrupted executions leave, once the carrier is complete. -/
inductive Reach (init : Files) : Files → Prop
  | start {decision : Value} {s : Files} : I.Offers decision →
      Stops exec 0 (I.execute decision) init s → s[I.marker]? ≠ none → Reach init s
  | again {decision : Value} {s s' : Files} : Reach init s → I.Offers decision →
      Stops exec 0 (I.execute decision) s s' → Reach init s'

variable (I) in
/-- Integration is atomic up to recovery. -/
structure Recovers (init : Files) : Prop where
  files : ∀ s, I.Reach init s → ∀ f ∈ I.files,
    s[f.path]? = some f.before.toUTF8 ∨ s[f.path]? = some f.after.toUTF8
  committed : ∀ s, I.Reach init s → s[I.effect.resultPath]? ≠ none →
    I.effect.Committed I.outcome s ∧ ∀ f ∈ I.files, s[f.path]? = some f.after.toUTF8
  preserved : ∀ decision s s' f bytes, f ∈ I.files → s[f.path]? = some bytes →
    bytes ≠ f.before.toUTF8 → Stops exec 0 (I.execute decision) s s' → s'[f.path]? = some bytes
  finishes : ∀ s decision, I.Reach init s → I.Offers decision →
    ∃ s', (I.execute decision).alone exec 0 s =
        (.ok ⟨I.outcome, I.effect.settled I.outcome⟩, s') ∧
      I.effect.Committed I.outcome s' ∧
      ∀ f ∈ I.files, s'[f.path]? = some f.after.toUTF8 ∧ s'[I.temporary f]? = none

theorem Reach.inv (hfits : I.Fits) {init : Files} (hfresh : I.Fresh init) {s : Files}
    (h : I.Reach init s) : I.Inv s := by
  induction h with
  | start hdecision hstops hmarker =>
    exact (stops_of_guards (first_guards hfits hdecision hfresh) hstops).resolve_left hmarker
  | again _ hdecision hstops ih => exact stops_of_guards (again_guards hfits hdecision ih) hstops

theorem Inv.result (h : I.Inv s) (hresult : s[I.effect.resultPath]? ≠ none) :
    I.effect.Committed I.outcome s ∧ ∀ f ∈ I.files, s[f.path]? = some f.after.toUTF8 := by
  have hcommitted := h.opened.resolve_left hresult
  exact ⟨hcommitted, (h.committed hcommitted).1⟩

/-- An execution that succeeds is one whose merged texts merge to themselves. -/
theorem Recovers.stable (hfits : I.Fits) {init : Files} (hfresh : I.Fresh init) {decision : Value}
    (hdecision : I.Offers decision) (h : I.Recovers init) : I.Stable := by
  have hend := alone_of_guards (first_guards hfits hdecision hfresh)
  have hreach : I.Reach init ((I.execute decision).alone exec 0 init).2 := by
    refine .start hdecision stops_alone ?_
    rw [hend.1.carried]
    simp
  obtain ⟨s', halone, -⟩ := h.finishes _ decision hreach hdecision
  have hended := alone_of_guards (again_guards hfits hdecision hend.1)
  rw [halone] at hended
  exact hended.2.2.2

theorem recovers_of_stable (hfits : I.Fits) {init : Files} (hfresh : I.Fresh init)
    (hstable : I.Stable) : I.Recovers init := by
  refine ⟨fun s hreach => (hreach.inv hfits hfresh).file,
    fun s hreach => (hreach.inv hfits hfresh).result, ?_, ?_⟩
  · intro decision s s' f bytes hf hs hne hstops
    exact (preserves_execute hf hne decision).stops hs hstops
  · intro s decision hreach hdecision
    have hended := alone_of_guards (again_guards hfits hdecision (hreach.inv hfits hfresh))
    cases hr : ((I.execute decision).alone exec 0 s).1 with
    | error e =>
      rw [hr] at hended
      exact absurd hstable hended
    | ok executed =>
      rw [hr] at hended
      obtain ⟨rfl, hcommitted, hfiles, -⟩ := hended
      exact ⟨_, Prod.ext hr rfl, hcommitted, hfiles⟩

end Integration

/-- **Patch integration is atomic up to recovery exactly when every merged text merges to itself**:
    revalidation merges the delta again with a file that is already replaced. -/
theorem recovers_iff_stable (I : Integration host) (hfits : I.Fits) (init : Files)
    (hfresh : I.Fresh init) (decision : Value) (hdecision : I.Offers decision) :
    I.Recovers init ↔ I.Stable :=
  ⟨fun h => h.stable hfits hfresh hdecision, fun h => Integration.recovers_of_stable hfits hfresh h⟩

/-! ## A block that is moved -/

section Moved

/-- What the merge makes of the texts below. -/
def sampleMerge3 (base ours theirs : String) : Option String :=
  if base = "A\nB\nC\nx\n" ∧ ours = "x\n" ∧ theirs = "A\nB\nC\nx\nA\nB\nC\n" then
    some "x\nA\nB\nC\n"
  else if base = "one\n" ∧ (ours = "one\n" ∨ ours = "two\n") ∧ theirs = "two\n" then some "two\n"
  else none

def sampleHost : Host where
  root := "/repo"
  canonical target := if target = "/repo" then some "/repo" else none
  digest _ := "sha256:0123456789abcdef0123456789abcdef0123456789abcdef0123456789abcdef"
  hash _ := "sha256:fedcba9876543210fedcba9876543210fedcba9876543210fedcba9876543210"
  merge3 := sampleMerge3

/-- One file of the patch result. -/
structure SampleTexts where
  base : String
  worker : String
  before : String
  after : String
  merged : sampleHost.merge base worker before = .ok after

variable (t : SampleTexts)

def SampleTexts.subject : Subject := ⟨"notes.txt", t.base, t.worker, t.before, t.after⟩

def SampleTexts.ctx : Context where
  work := .string "task"
  files := [t.subject.delta]
  deltaRevision := .string "delta"
  executionCustody := .string "custody"
  sourceRevision := .string "source"
  judgment := .string "judgment"
  ownerRevision := .string "owner"
  contractRevision := .string "contract"

def SampleTexts.proposal : Value := t.ctx.proposal [t.subject.change]

def SampleTexts.invocation : Value := .object [
  ("arguments", .object [("proposal", t.proposal), ("target", .string "/repo")]),
  ("effects", .strings ["implementation"]), ("idempotency_key", .string "effect"),
  ("kind", .string INVOCATION_KIND), ("operation_id", .string OP),
  ("operation_revision", .string "operation"), ("source_owner", .string "assignment"),
  ("source_requests", .array [t.ctx.template sampleHost t.proposal])]

def SampleTexts.integration : Integration sampleHost where
  effect := {
    invocation := t.invocation, key := "effect", owner := "assignment", requested := "/repo"
    key_eq := rfl, owner_eq := rfl, requested_eq := rfl, bound := rfl }
  ctx := t.ctx
  files := [t.subject]
  request := t.ctx.template sampleHost t.proposal
  source_owner := rfl
  operation := rfl
  effects := rfl
  deltas := rfl
  proposed := rfl
  requested := rfl
  template := rfl
  merged f hf := by
    rw [List.mem_singleton.mp hf]
    exact t.merged
  concrete f hf := by
    rw [List.mem_singleton.mp hf]
    show concrete "notes.txt" = .ok ()
    decide
  nodup := List.nodup_singleton _
  apart f hf g hg := by
    rw [List.mem_singleton.mp hf, List.mem_singleton.mp hg]
    show "notes.txt" ≠ "notes.txt" ++ "." ++ dropChars 7 (sampleHost.digest .null) ++ ".tmp"
    decide
  digest_text _ := by
    show sha256Revision "sha256:0123456789abcdef0123456789abcdef0123456789abcdef0123456789abcdef" = true
    decide
  hash_text _ := by
    show sha256Revision "sha256:fedcba9876543210fedcba9876543210fedcba9876543210fedcba9876543210" = true
    decide

def SampleTexts.decision : Value := .object [
  ("operation_revisions", .object [(OP, .string "operation")]),
  ("ready_actions", .array [t.invocation])]

theorem SampleTexts.offers : t.integration.Offers t.decision := by
  refine ⟨⟨rfl, _, rfl, List.mem_singleton.mpr rfl⟩, rfl, ?_, ?_, rfl, rfl⟩
  · exact nofun
  · show (some "operation" : Option String) ≠ some ""
    decide

/-- The store before the first execution. -/
def SampleTexts.init : Files := (∅ : Files).insert "notes.txt" t.before.toUTF8

theorem SampleTexts.fresh : t.integration.Fresh t.init := by
  have hother : ∀ path, path ≠ "notes.txt" → t.init[path]? = none := by
    intro path hpath
    rw [SampleTexts.init, getElem?_insert_of_ne hpath]
    exact Std.ExtTreeMap.getElem?_empty
  have howned : ∀ path, startsWith OWNED path = true → t.init[path]? = none := fun path hpath =>
    hother path (ne_of_startsWith hpath (by decide))
  refine ⟨Or.inl (howned _ Integration.lock_owned), howned _ Integration.marker_owned, ?_, ?_, ?_, ?_⟩
  · refine hother _ fun heq => ?_
    have hlast := (evidence_last (e := t.integration.effect)).1
    rw [heq] at hlast
    revert hlast
    decide
  · refine hother _ fun heq => ?_
    have hlast := (evidence_last (e := t.integration.effect)).2
    rw [heq] at hlast
    revert hlast
    decide
  · intro f hf
    have hapart := t.integration.apart f hf f hf
    rw [List.mem_singleton.mp hf] at hapart ⊢
    exact hother _ hapart.symm
  · intro f hf
    rw [List.mem_singleton.mp hf]
    exact Std.ExtTreeMap.getElem?_insert_self

/-- A change that the file does not have yet. -/
def plainTexts : SampleTexts := ⟨"one\n", "two\n", "one\n", "two\n", by decide⟩

/-- The patch repeats a block at the end of a file whose first copy of it is gone. -/
def movedTexts : SampleTexts :=
  ⟨"A\nB\nC\nx\n", "A\nB\nC\nx\nA\nB\nC\n", "x\n", "x\nA\nB\nC\n", by decide⟩

theorem envelope_le {target : String} {invocation outcome : Value} {n : Nat}
    (h : printBound (.object [("invocation", invocation), ("outcome", outcome)]) +
      3 * printBound (.string target) + 16384 ≤ n) : envelope target invocation outcome ≤ n := by
  have hrecord := toVec_size_le (.object [("invocation", invocation), ("outcome", outcome)])
  have htarget := toVec_size_le (.string target)
  unfold envelope
  omega

theorem plain_fits : plainTexts.integration.Fits :=
  ⟨envelope_le (by decide), size_le_of_bound (by decide)⟩

theorem moved_fits : movedTexts.integration.Fits :=
  ⟨envelope_le (by decide), size_le_of_bound (by decide)⟩

theorem recovers_iff_stable_plain : plainTexts.integration.Recovers plainTexts.init := by
  refine (recovers_iff_stable plainTexts.integration plain_fits plainTexts.init plainTexts.fresh
    plainTexts.decision plainTexts.offers).mpr fun f hf => ?_
  rw [List.mem_singleton.mp hf]
  decide

/-- The moved block is never committed. -/
theorem moved_block_stuck : ¬ movedTexts.integration.Recovers movedTexts.init := by
  intro h
  have hstable := h.stable moved_fits movedTexts.fresh movedTexts.offers
  have hmerge := hstable movedTexts.subject (List.mem_singleton.mpr rfl)
  revert hmerge
  decide

end Moved

end AgenticCore.NativePatch
