import AgenticCore.RepositoryPaths
import AgenticCore.SkillExposure
import Mathlib.Logic.Relation

/-!
# Whose a skill's link is

Executions of exposures and removals of one skill, each cut off anywhere, between changes that the
user makes at the link's path.

* `Mine`        : what is at the path is there through an expose.
* `state_sees`  : what the state of the link says about the world.
* `Free`        : nothing at the path is foreign, which every step of every program keeps.
* `unowned_preserved` : **while the user does not put the exact link there that the marker of a
                  former exposure describes, no foreign entry counts as owned or is changed**.
-/

set_option autoImplicit false

namespace AgenticCore.SkillExposure

open Json Text Interleaving Attempt
open AttemptStore hiding StoreM Op Answer exec readFile
open Repository (startsWith_append ne_of_startsWith)

/-! ## Histories -/

/-- The last execution that changed the path was an expose. -/
def inForce : List Change → Bool
  | [] => false
  | .exposed :: _ => true
  | .unlinked :: _ => false
  | .put _ :: rest | .deleted :: rest => inForce rest

/-- The last change was an expose, or the user put back, byte for byte, the link of an expose that
    was in force. -/
def mine (name : String) : List Change → Bool
  | .exposed :: _ => true
  | .put entry :: rest => entry == .link (destination name) && inForce rest
  | .unlinked :: _ | .deleted :: _ | [] => false

def Mine (name : String) (w : World) : Prop := mine name (w.history (path name)) = true

/-- Nothing at the path is foreign. -/
def Free (name : String) (w : World) : Prop := w.entries[path name]? = none ∨ Mine name w

/-- A link that would count as owned is the product's own. -/
def Inv (name : String) (w : World) : Prop :=
  ∀ entry, w.entries[path name]? = some entry → observedLink name entry = true →
    marker name ∈ w.files → Mine name w

variable {name : String} {w w' : World} {host : AttemptStore.Host} {call : Call} {α β : Type}

theorem Free.inv (h : Free name w) : Inv name w := by
  intro entry hentry _ _
  rcases h with hnone | hmine
  · rw [hentry] at hnone
    cases hnone
  · exact hmine

theorem history_cons {p : String} {c : Change} {files : Repository.Files}
    {entries : BTreeMap String Entry} {changes : List (String × Change)} :
    World.history ⟨files, entries, (p, c) :: changes⟩ p =
      c :: World.history ⟨files, entries, changes⟩ p := by
  simp [World.history]

theorem history_cons_of_ne {p q : String} (hne : q ≠ p) {c : Change} {files : Repository.Files}
    {entries : BTreeMap String Entry} {changes : List (String × Change)} :
    World.history ⟨files, entries, (q, c) :: changes⟩ p =
      World.history ⟨files, entries, changes⟩ p := by
  simp [World.history, hne]

/-! ## Programs on the files -/

/-- What a program on the files does to the world. -/
theorem onFiles_guards {J : Repository.Files → Prop} {Q : Result α → Repository.Files → Prop}
    {I : World → Prop} {Q' : Result α → World → Prop} (hI : ∀ files, J files → I { w with files })
    (hQ : ∀ r files, J files → Q r files → Q' r { w with files }) :
    ∀ {p : Repository.StoreM α} {files : Repository.Files},
      Guards Repository.exec 0 J p Q files → Guards exec 0 I (onFiles p) Q' { w with files }
  | .done r, files, h => by
    obtain ⟨hJ, hend⟩ := guards_done.mp h
    exact guards_ofExcept (hI files hJ) (hQ r files hJ hend)
  | .act o next, files, h => by
    obtain ⟨hJ, hnext⟩ := guards_act.mp h
    refine guards_step_bind (o := .file o) (f := fun a => onFiles (next a)) (hI files hJ) ?_
    exact onFiles_guards hI hQ hnext

/-- The program changes nothing, and its result satisfies `Q`. -/
def Looks (w : World) (p : StoreM α) (Q : Result α → Prop) : Prop :=
  Guards exec 0 (fun w' => w' = w) p (fun r w' => w' = w ∧ Q r) w

theorem looks_onFiles {p : Repository.StoreM α} {Q : Result α → Prop}
    (h : Guards Repository.exec 0 (fun s => s = w.files) p (fun r s => s = w.files ∧ Q r) w.files) :
    Looks w (onFiles p) Q := by
  refine onFiles_guards (w := w) (fun files hfiles => ?_) (fun r files _ hQ => ?_) h
  · rw [hfiles]
  · rw [hQ.1]
    exact ⟨rfl, hQ.2⟩

theorem looks_reads {p : Repository.StoreM α} (h : Within Repository.Op.Keeps p) :
    Looks w (onFiles p) fun _ => True :=
  looks_onFiles ((Repository.reads_within h).mono (fun _ h => h) fun _ _ _ hr => ⟨hr.2, trivial⟩)

theorem looks_bind {p : StoreM α} {f : α → StoreM β} {Q : Result α → Prop} {Q' : Result β → Prop}
    (hp : Looks w p Q) (hok : ∀ a, Q (.ok a) → Looks w (f a) Q')
    (herror : ∀ e, Q (.error e) → Q' (.error e)) : Looks w (p >>= f) Q' := by
  refine guards_bind (hp.mono (fun _ h => h) fun r s _ hr => ?_)
  rw [hr.1]
  cases r with
  | ok a => exact hok a hr.2
  | error e => exact ⟨rfl, herror e hr.2⟩

theorem looks_lift {r : Result α} {Q : Result α → Prop} (h : Q r) :
    Looks w (liftM r : StoreM α) Q := guards_ofExcept rfl ⟨rfl, h⟩

theorem looks_pure {a : α} {Q : Result α → Prop} (h : Q (.ok a)) :
    Looks w (pure a : StoreM α) Q := guards_pure rfl ⟨rfl, h⟩

/-- A computation that may fail, and what follows. -/
theorem looks_step {r : Result α} {f : α → StoreM β} {Q : Result β → Prop}
    (hok : ∀ a, r = .ok a → Looks w (f a) Q) (herror : ∀ e, Q (.error e)) :
    Looks w ((liftM r : StoreM α) >>= f) Q :=
  looks_bind (Q := fun r' => r' = r) (looks_lift rfl) (fun a ha => hok a ha.symm) fun e _ => herror e

theorem looks_look {p : String} {f : Option Entry → StoreM β} {Q : Result β → Prop}
    (h : Looks w (f w.entries[p]?) Q) : Looks w (Prog.step (Op.look p) >>= f) Q :=
  guards_step_bind rfl h

theorem Looks.mono {p : StoreM α} {Q Q' : Result α → Prop} (h : Looks w p Q)
    (hQ : ∀ r, Q r → Q' r) : Looks w p Q' :=
  Guards.mono (fun _ h => h) (fun _ _ _ hr => ⟨hr.1, hQ _ hr.2⟩) h

theorem Looks.alone {p : StoreM α} {Q : Result α → Prop} (h : Looks w p Q) :
    Q (p.alone exec 0 w).1 := (alone_of_guards h).2

/-! ## What the state says -/

/-- What is observed at the path of a skill's link. -/
def Sees (name : String) (w : World) (observed : Observed) : Prop :=
  ∃ owned, (owned = true → marker name ∈ w.files) ∧
    observed = observe name owned w.entries[path name]?

theorem source_keeps {p : String} : Within Repository.Op.Keeps (Repository.source p) :=
  within_bind (within_step trivial) fun _ => within_lift

theorem readSource_keeps {target : String} {reference : Evidence} :
    Within Repository.Op.Keeps (readSource host target reference) := by
  unfold readSource
  refine within_bind within_lift fun _ => within_bind within_lift fun _ =>
    within_bind within_lift fun _ => within_bind (within_step trivial) fun _ =>
    within_bind within_lift fun _ => within_bind within_lift fun _ => within_lift

theorem ownRecord_keeps {target : String} {raw : ByteArray} :
    Within Repository.Op.Keeps (ownRecord host target name raw) :=
  within_bind within_lift fun _ => within_bind within_lift fun _ =>
    within_bind readSource_keeps fun _ => within_bind within_lift fun _ => within_pure

/-- A marker that is retained is there. -/
theorem retained_looks {target : String} : Looks w (onFiles (retained host target name)) fun r =>
    ∀ record, r = .ok (some record) → marker name ∈ w.files := by
  refine looks_onFiles ?_
  unfold retained
  refine Repository.reads_bind_guards (I := fun s => s = w.files) Repository.reads_source rfl
    (fun found hfound => ?_) fun e _ => ?_
  · cases found with
    | none =>
      refine guards_pure rfl ⟨rfl, fun record hrecord => ?_⟩
      cases hrecord
    | some raw =>
      have hpresent : marker name ∈ w.files := by
        rw [Std.ExtTreeMap.mem_iff_isSome_getElem?, ← Repository.admitted_ok hfound]
        rfl
      have hkeeps : Within Repository.Op.Keeps (do
          let record ← ownRecord host target name raw
          pure (some record)) := within_bind ownRecord_keeps fun _ => within_pure
      exact (Repository.reads_within hkeeps).mono (fun _ h => h) fun _ _ _ hr => ⟨hr.2, fun _ _ => hpresent⟩
  · exact ⟨rfl, fun record hrecord => by cases hrecord⟩

/-- The state reports what is at the path. -/
theorem state_sees : Looks w (state host call name) fun r =>
    ∀ s, r = .ok s → Sees name w s.observed := by
  unfold state
  refine looks_step (fun _ _ => ?_) fun e s hs => by cases hs
  refine looks_step (fun _ _ => ?_) fun e s hs => by cases hs
  refine looks_bind (looks_reads source_keeps) (fun raw _ => ?_) fun e _ s hs => by cases hs
  refine looks_bind retained_looks (fun record hrecord => ?_) fun e _ s hs => by cases hs
  refine looks_look (looks_pure fun s hs => ?_)
  rw [← Except.ok.inj hs]
  refine ⟨record.isSome, fun hsome => ?_, rfl⟩
  obtain ⟨r, hr⟩ := Option.isSome_iff_exists.mp hsome
  exact hrecord r (by rw [hr])

/-- What counts as owned is the product's own. -/
theorem Sees.mine (hinv : Inv name w) {o : Observed} (h : Sees name w o) (howned : o = .owned) :
    Mine name w := by
  obtain ⟨owned, hmarker, rfl⟩ := h
  cases hentry : w.entries[path name]? with
  | none =>
    rw [hentry] at howned
    cases howned
  | some entry =>
    rw [hentry, observe] at howned
    split at howned
    · rename_i hcond
      exact hinv entry hentry hcond.1 (hmarker hcond.2)
    · cases howned

/-- An entry that is not owned is a collision. -/
theorem Sees.collision {o : Observed} (h : Sees name w o) {entry : Entry}
    (hentry : w.entries[path name]? = some entry) (howned : o ≠ .owned) : o = .collision := by
  obtain ⟨owned, -, rfl⟩ := h
  rw [hentry, observe] at howned ⊢
  split at howned
  · exact absurd rfl howned
  · rename_i hcond
    rw [if_neg hcond]

/-- Without a collision nothing foreign is there. -/
theorem Sees.free (hinv : Inv name w) {o : Observed} (h : Sees name w o) (hne : o ≠ .collision) :
    Free name w := by
  cases hentry : w.entries[path name]? with
  | none => exact Or.inl hentry
  | some entry =>
    refine Or.inr (h.mine hinv ?_)
    by_contra howned
    exact hne (h.collision hentry howned)

/-! ## Revalidation -/

theorem names_keeps : Within Repository.Op.Keeps names := by
  unfold names
  refine within_bind source_keeps fun found => ?_
  cases found with
  | none => exact within_pure
  | some raw => exact within_bind within_lift fun _ => within_bind within_lift fun _ => within_lift

/-- A step that makes no evidence. -/
def Retains : AttemptStore.Op → Prop
  | .read _ | .present _ => True
  | .create _ _ => False

theorem evidence_keeps : ∀ {p : AttemptStore.StoreM α}, Within Retains p →
    Within Repository.Op.Keeps (Repository.evidence p)
  | .done _, _ => within_done
  | .act (.read _) _, h => within_act.mpr ⟨trivial, fun found =>
      evidence_keeps ((within_act.mp h).2 found)⟩
  | .act (.present _) _, h => within_act.mpr ⟨trivial, fun found =>
      evidence_keeps ((within_act.mp h).2 found.isSome)⟩
  | .act (.create _ _) _, h => absurd (within_act.mp h).1 id

theorem read_keeps {reference : Evidence} : Within Retains (host.read reference) :=
  within_bind within_lift fun _ => within_bind within_lift fun _ =>
    within_bind (within_step trivial) fun _ => within_bind within_lift fun _ => within_lift

theorem prepareCommit_keeps {input : CommitInput} : Within Retains (host.prepareCommit input) := by
  have hplanned : Within Retains (host.planned input) :=
    within_bind within_lift fun _ => within_bind read_keeps fun _ => within_bind within_lift fun _ =>
      within_bind within_lift fun _ => within_bind within_lift fun _ =>
      within_bind within_lift fun _ => within_pure
  unfold Host.prepareCommit
  refine within_bind hplanned fun planned => within_bind within_lift fun _ =>
    within_bind (within_step trivial) fun present => ?_
  show Within Retains (if present = true then _ else _)
  split
  · exact within_bind read_keeps fun _ => within_bind within_lift fun _ =>
      within_bind within_lift fun _ => within_pure
  · exact within_bind within_lift fun _ => within_pure

theorem retained_keeps {target : String} :
    Within Repository.Op.Keeps (retained host target name) := by
  unfold retained
  refine within_bind source_keeps fun found => ?_
  cases found with
  | none => exact within_pure
  | some raw => exact within_bind ownRecord_keeps fun _ => within_pure

theorem recoverable_keeps {target : String} {s : State} :
    Within Repository.Op.Keeps (recoverable host target name s) := by
  unfold recoverable
  refine within_bind retained_keeps fun record => ?_
  cases record with
  | none => exact within_pure
  | some record =>
    show Within Repository.Op.Keeps (if _ then _ else _)
    split
    · exact within_pure
    · refine within_bind within_lift fun _ => within_bind (evidence_keeps prepareCommit_keeps)
        fun _ => within_bind within_lift fun _ => within_bind source_keeps fun found => ?_
      cases found with
      | none => exact within_pure
      | some raw => exact within_bind within_lift fun _ => within_bind within_lift fun _ =>
          within_pure

theorem discoverable_keeps {target : String} {selected : List String} {mode : Value} :
    Within Repository.Op.Keeps (discoverable host target selected mode name) := by
  unfold discoverable
  split
  · exact within_pure
  · exact within_bind within_lift fun _ => within_bind retained_keeps fun _ => within_lift

theorem viewFree_looks {request : Value} {s : State} :
    Looks w (viewFree host call name request s) fun _ => True := by
  unfold viewFree
  refine looks_step (fun _ _ => ?_) fun _ => trivial
  show Looks w (if _ then _ else _) _
  split
  · refine looks_bind (looks_reads recoverable_keeps) (fun _ _ => ?_) fun _ _ => trivial
    exact looks_step (fun _ _ => looks_pure trivial) fun _ => trivial
  · split
    · exact looks_pure trivial
    · split
      · exact looks_pure trivial
      · exact looks_pure trivial

/-- A request is ready only where its skill's link is not in a collision. -/
theorem view_looks {request : Value} (hname : ((request.field "arguments").field "name").asStr =
    some name) : Looks w (view host call request) fun r =>
      ∀ action, r = .ok (.writeReady action) → ∃ o, Sees name w o ∧ o ≠ .collision := by
  unfold view
  refine looks_bind (looks_reads names_keeps) (fun selected _ => ?_) fun e _ action h => by cases h
  refine looks_step (fun found hfound => ?_) fun e action h => by cases h
  rw [hname] at hfound
  obtain rfl := Option.some.inj (okOr_eq_ok.mp hfound)
  refine looks_step (fun _ _ => ?_) fun e action h => by cases h
  refine looks_bind (looks_reads discoverable_keeps) (fun _ _ => ?_) fun e _ action h => by cases h
  refine looks_step (fun _ _ => ?_) fun e action h => by cases h
  refine looks_bind state_sees (fun s hs => ?_) fun e _ action h => by cases h
  refine looks_step (fun _ _ => ?_) fun e action h => by cases h
  have hsees := hs s rfl
  show Looks w (if s.observed = .collision then _ else _) _
  split
  · exact looks_pure fun action h => by cases h
  · rename_i hne
    exact viewFree_looks.mono fun r _ action _ => ⟨s.observed, hsees, hne⟩

/-- A revalidation passes only where the skill's link is not in a collision. -/
theorem revalidate_looks {again : Bool}
    (hname : ((argumentsOf call.invocation).field "name").asStr = some name) :
    Looks w (revalidate host call again) fun r =>
      r = .ok () → ∃ o, Sees name w o ∧ o ≠ .collision := by
  unfold revalidate
  refine looks_bind (view_looks hname) (fun viewed hviewed => ?_) fun e _ h => by cases h
  cases viewed with
  | writeReady action =>
    have hsees := hviewed action rfl
    exact looks_step (fun _ _ => looks_lift fun _ => hsees) fun e h => by cases h
  | collisionPreserved s => exact looks_lift fun h => by cases h
  | unchanged => exact looks_lift fun h => by cases h
  | authorizationRequired answer => exact looks_lift fun h => by cases h

/-! ## Steps -/

/-- **Every step leaves a path free that is free.** -/
theorem exec_free (h : Free name w) : ∀ o : Op, Free name (exec 0 w o).1
  | .file o => h
  | .look p => h
  | .symlink text p => by
    simp only [exec]
    split
    · exact h
    · by_cases hp : p = path name
      · subst hp
        refine Or.inr ?_
        rw [Mine, history_cons, mine]
      · unfold Free Mine at h ⊢
        rw [history_cons_of_ne hp, Std.ExtTreeMap.getElem?_insert, if_neg (by simpa using hp)]
        exact h
  | .unlink p => by
    have herase : Free name ⟨w.files, w.entries.erase p, (p, .unlinked) :: w.changes⟩ := by
      by_cases hp : p = path name
      · subst hp
        exact Or.inl (by simp)
      · unfold Free Mine at h ⊢
        rw [history_cons_of_ne hp, Std.ExtTreeMap.getElem?_erase, if_neg (by simpa using hp)]
        exact h
    simp only [exec]
    split
    · exact herase
    · exact herase
    · exact h
    · exact h

/-- A program that starts with a free path leaves it free wherever it is cut off. -/
theorem free_guards : ∀ {p : StoreM α} {w : World}, Free name w →
    Guards exec 0 (Free name) p (fun _ _ => True) w
  | .done _, _, h => guards_done.mpr ⟨h, trivial⟩
  | .act o _, _, h => guards_act.mpr ⟨h, free_guards (exec_free h o)⟩

/-- The entry and the marker are as they were. -/
def Still (name : String) (w w' : World) : Prop :=
  w'.entries = w.entries ∧ w'.changes = w.changes ∧
    (marker name ∈ w'.files → marker name ∈ w.files)

theorem Still.inv (h : Still name w w') (hinv : Inv name w) : Inv name w' := by
  intro entry hentry hlink hmarker
  have hmine := hinv entry (h.1 ▸ hentry) hlink (h.2.2 hmarker)
  rwa [Mine, World.history, h.2.1]

/-- How an execution leaves the path: free, or as it was. -/
def Leaves (name : String) (w w' : World) : Prop := Free name w ∧ Free name w' ∨ Still name w w'

theorem Leaves.inv (h : Leaves name w w') (hinv : Inv name w) : Inv name w' := by
  rcases h with ⟨-, hfree⟩ | hstill
  · exact hfree.inv
  · exact hstill.inv hinv

/-- A foreign entry is left as it is. -/
theorem Leaves.entry (h : Leaves name w w') {entry : Entry}
    (hentry : w.entries[path name]? = some entry) (hforeign : ¬ Mine name w) :
    w'.entries[path name]? = some entry := by
  rcases h with ⟨hfree, -⟩ | hstill
  · rcases hfree with hnone | hmine
    · rw [hentry] at hnone
      cases hnone
    · exact absurd hmine hforeign
  · rw [hstill.1]
    exact hentry

/-! ## Executions -/

theorem marker_front : startsWith ".agentic-workspace/local/effects/s" (marker name) = true :=
  startsWith_append (startsWith_append (by decide))

theorem temporary_front {invocation : Value} :
    startsWith ".agentic-workspace/local/effects/s" (temporary host name invocation) = true :=
  startsWith_append (startsWith_append (startsWith_append marker_front))

theorem marker_ne_lock : marker name ≠ LOCK := ne_of_startsWith marker_front (by decide)

theorem openLock_guards {message : String} {files : Repository.Files} :
    Guards Repository.exec 0 (fun s => marker name ∈ s → marker name ∈ files)
      (Repository.openLock LOCK message) (fun _ _ => True) files := by
  unfold Repository.openLock
  refine guards_step_bind id ?_
  simp only [Repository.exec]
  cases files[LOCK]? with
  | some bytes => exact guards_ofExcept id trivial
  | none =>
    have hcreate : marker name ∈ (Repository.exec 0 files (.create LOCK .empty)).1 →
        marker name ∈ files := by
      simp only [Repository.exec]
      split
      · exact id
      · intro hmem
        rcases Std.ExtTreeMap.mem_insert.mp hmem with heq | hmem
        · exact absurd (by simpa using heq) (@marker_ne_lock name).symm
        · exact hmem
    exact guards_step_bind id (guards_pure hcreate trivial)

/-- What follows a revalidation that passed. -/
theorem revalidate_guards {again : Bool} {f : Unit → StoreM β} (hinv : Inv name w')
    (hstill : Still name w w') (hname : ((argumentsOf call.invocation).field "name").asStr = some name) :
    Guards exec 0 (Leaves name w) (revalidate host call again >>= f) (fun _ _ => True) w' := by
  refine guards_bind (Guards.mono (fun s hs => ?_) (fun r s _ hr => ?_) (revalidate_looks hname))
  · rw [hs]
    exact Or.inr hstill
  · obtain ⟨rfl, hpass⟩ := hr
    cases r with
    | error e => trivial
    | ok u =>
      obtain ⟨o, hsees, hne⟩ := hpass rfl
      have hfree' := hsees.free hinv hne
      have hfree : Free name w := by
        rwa [Free, Mine, World.history, hstill.1, hstill.2.1] at hfree'
      exact (free_guards hfree').mono (fun s hs => Or.inl ⟨hfree, hs⟩) fun _ _ _ _ => trivial

/-- **An execution leaves the path free or as it was, wherever it is cut off.** -/
theorem execute_guards (hinv : Inv name w)
    (hname : ((argumentsOf call.invocation).field "name").asStr = some name) :
    Guards exec 0 (Leaves name w) (execute host call) (fun _ _ => True) w := by
  have hself : Still name w w := ⟨rfl, rfl, id⟩
  unfold execute admitted
  simp only [bind_assoc]
  refine guards_ofExcept_bind (Or.inr hself) (fun _ _ => ?_) fun _ _ => trivial
  refine guards_bind (Guards.mono (fun s hs => ?_) (fun r s _ hr => ?_) (looks_reads source_keeps))
  · rw [hs]
    exact Or.inr hself
  rw [hr.1]
  cases r with
  | error e => trivial
  | ok found =>
    have hlock : Guards exec 0 (Leaves name w)
        (onFiles (Repository.openLock LOCK "unrecognized configuration lock preserved"))
        (fun _ w' => Still name w w') w :=
      onFiles_guards (w := w) (fun _ hfiles => Or.inr ⟨rfl, rfl, hfiles⟩)
        (fun _ _ hfiles _ => ⟨rfl, rfl, hfiles⟩) openLock_guards
    refine guards_bind (hlock.mono (fun _ h => h) fun r s _ hstill => ?_)
    cases r with
    | error e => trivial
    | ok u => exact revalidate_guards (hstill.inv hinv) hstill hname

/-! ## Runs -/

variable (host name) in
/-- A change between or through requests. `allowed` says what the user may do at the link's path;
    all files but the marker change freely. -/
inductive Step (allowed : World → UserChange → Prop) : World → World → Prop
  | user (w : World) (c : UserChange) (h : allowed w c) : Step allowed w (w.changed (path name) c)
  | sources (w : World) (files : Repository.Files) (h : marker name ∈ files → marker name ∈ w.files) :
      Step allowed w { w with files }
  | executes {w w' : World} (call : Call)
      (hname : ((argumentsOf call.invocation).field "name").asStr = some name)
      (h : Stops exec 0 (execute host call) w w') : Step allowed w w'

variable (name) in
/-- The skill was never exposed. -/
structure Untouched (w : World) : Prop where
  marker : marker name ∉ w.files
  history : w.history (path name) = []

variable (name) in
/-- The user does not put a link to the canonical skill where a marker is, unless it is byte for
    byte the link of an expose that is in force. -/
def Careful (w : World) : UserChange → Prop
  | .put entry => observedLink name entry = true → marker name ∈ w.files →
      entry = .link (destination name) ∧ inForce (w.history (path name)) = true
  | .delete => True

variable (host name) in
/-- Only what is the product's own is reported as owned, a foreign entry is reported as a
    collision, and no execution changes it, wherever it is cut off. -/
structure Preserved (w : World) : Prop where
  owned : ∀ call s, ((state host call name).alone exec 0 w).1 = .ok s → s.observed = .owned →
    Mine name w
  collision : ∀ call s entry, ((state host call name).alone exec 0 w).1 = .ok s →
    w.entries[path name]? = some entry → ¬ Mine name w → s.observed = .collision
  kept : ∀ call w' entry, ((argumentsOf call.invocation).field "name").asStr = some name →
    Stops exec 0 (execute host call) w w' → w.entries[path name]? = some entry → ¬ Mine name w →
    w'.entries[path name]? = some entry

theorem Inv.preserved (hinv : Inv name w) : Preserved name host w where
  owned call s hstate howned := ((state_sees.alone) s hstate).mine hinv howned
  collision call s entry hstate hentry hforeign := by
    have hsees := state_sees.alone s hstate
    exact hsees.collision hentry fun howned => hforeign (hsees.mine hinv howned)
  kept call w' entry hname hstops hentry hforeign := by
    have hleaves : Leaves name w w' := stops_of_guards (execute_guards hinv hname) hstops
    exact hleaves.entry hentry hforeign

theorem Untouched.inv (h : Untouched name w) : Inv name w := fun _ _ _ hmarker =>
  absurd hmarker h.marker

/-- What the user does with care keeps the invariant. -/
theorem Careful.inv {c : UserChange} (h : Careful name w c) :
    Inv name (w.changed (path name) c) := by
  cases c with
  | put entry =>
    intro found hfound hlink hmarker
    have heq : found = entry := by
      rw [World.changed, Std.ExtTreeMap.getElem?_insert_self] at hfound
      exact (Option.some.inj hfound).symm
    subst heq
    obtain ⟨hexact, hforce⟩ := h hlink hmarker
    rw [Mine, World.changed, history_cons, mine, Bool.and_eq_true, beq_iff_eq]
    exact ⟨hexact, hforce⟩
  | delete =>
    intro found hfound
    rw [World.changed, Std.ExtTreeMap.getElem?_erase_self] at hfound
    cases hfound

/-- One step keeps the invariant. -/
theorem Step.inv (h : Step name host (Careful name) w w') (hinv : Inv name w) : Inv name w' := by
  cases h with
  | user c h => exact h.inv
  | sources files h => exact fun entry hentry hlink hmarker => hinv entry hentry hlink (h hmarker)
  | executes call hname h =>
    have hleaves : Leaves name w w' := stops_of_guards (execute_guards hinv hname) h
    exact hleaves.inv hinv

theorem run_inv {init : World} (hinit : Untouched name init)
    (hrun : Relation.ReflTransGen (Step name host (Careful name)) init w) : Inv name w := by
  induction hrun with
  | refl => exact hinit.inv
  | tail _ hstep ih => exact hstep.inv ih

/-- **In every run in which the user is careful, no foreign entry counts as owned or is changed.** -/
theorem unowned_preserved {init : World} (hinit : Untouched name init)
    (hrun : Relation.ReflTransGen (Step name host (Careful name)) init w) :
    Preserved name host w := (run_inv hinit hrun).preserved

/-! ## A run that goes wrong -/

theorem looks_exact {p : Repository.StoreM α} {r : Result α} (h : Repository.Reads w.files p r) :
    Looks w (onFiles p) (· = r) :=
  looks_onFiles (Guards.mono (fun _ h => h) (fun _ _ _ hr => ⟨hr.2, hr.1⟩) h)

/-- A program that changes nothing and succeeds, and what follows. -/
theorem looks_ok_guards {I : World → Prop} {p : StoreM α} {a : α} {f : α → StoreM β}
    {Q : Result β → World → Prop} (h : Looks w p (· = .ok a)) (hI : I w)
    (hf : Guards exec 0 I (f a) Q w) : Guards exec 0 I (p >>= f) Q w := by
  refine guards_bind (Guards.mono (fun s hs => ?_) (fun r s _ hr => ?_) h)
  · rw [hs]
    exact hI
  · rw [hr.1, hr.2]
    exact hf

theorem admitted_toVec {v : Value} (h : (toVec v).size ≤ Repository.MAX_SOURCE_BYTES) :
    Repository.admitted (some (toVec v)) = .ok (some (toVec v)) := by
  simp only [Repository.admitted, Except.bind_eq_ok_iff, check_eq_ok, Except.pure_eq_ok_iff]
  exact ⟨(), h, (), fromUTF8_toVec v, trivial⟩

theorem reads_source_toVec {p : String} {v : Value} {files : Repository.Files}
    (hfile : files[p]? = some (toVec v)) (h : (toVec v).size ≤ Repository.MAX_SOURCE_BYTES) :
    Repository.Reads files (Repository.source p) (.ok (some (toVec v))) := by
  have hreads := @Repository.reads_source files p
  rwa [hfile, admitted_toVec h] at hreads

theorem reads_source_none {p : String} {files : Repository.Files} (hfile : files[p]? = none) :
    Repository.Reads files (Repository.source p) (.ok none) := by
  have hreads := @Repository.reads_source files p
  rwa [hfile] at hreads

def sampleHost : AttemptStore.Host where
  root := "/repo"
  canonical target := if target = "/repo" then some "/repo" else none
  digest _ := "sha256:0123456789abcdef0123456789abcdef0123456789abcdef0123456789abcdef"
  hash _ := "sha256:fedcba9876543210fedcba9876543210fedcba9876543210fedcba9876543210"

def sampleRequest : Value := .object [("arguments", .object [
  ("answer", .string "authorize-write"),
  ("expected_revision", .string (sampleHost.digest .null)), ("mode", .string "expose"),
  ("name", .string "setup")])]

def sampleInvocation : Value := .object [
  ("arguments", .object [("binding", .null), ("post_revision", .string (sampleHost.digest .null)),
    ("request", sampleRequest), ("target", .string "/repo")]),
  ("effects", .strings ["configuration-source"]), ("idempotency_key", .string "effect"),
  ("kind", .string INVOCATION_KIND), ("operation_id", .string OP),
  ("operation_revision", .string "operation"), ("source_owner", .string "configuration")]

def sampleCall : Call where
  target := "/repo"
  decision := .object [("operation_revisions", .object [(OP, .string "operation")]),
    ("ready_actions", .array [sampleInvocation])]
  invocation := sampleInvocation
  binding := .null
  directory _ := .ok ()
  resolution _ := .ok ()

def sampleEffect : Repository.Effect sampleHost where
  invocation := sampleInvocation
  key := "effect"
  owner := "configuration"
  requested := "/repo"
  key_eq := rfl
  owner_eq := rfl
  requested_eq := rfl
  bound := rfl

def sampleRegistry : Value := .object [("skills", .array [.object [("id", .string "setup"),
  ("path", .string "setup/SKILL.md"), ("scope", .string "main-operating-skill"),
  ("visibility", .string "ordinary-default")]])]

def sampleWorld : World where
  files := ((∅ : Repository.Files).insert REGISTRY (toVec sampleRegistry)).insert
    (canonical "setup" ++ "/SKILL.md") (toVec (.string "body"))
  entries := ∅
  changes := []

/-- The product's sources are there, and no marker is. -/
structure Unexposed (w : World) : Prop where
  registry : w.files[REGISTRY]? = some (toVec sampleRegistry)
  body : w.files[canonical "setup" ++ "/SKILL.md"]? = some (toVec (.string "body"))
  marker : w.files[marker "setup"]? = none
  entry : w.entries[path "setup"]? = none

def sampleState : State :=
  ⟨"setup", some (sampleHost.hash .empty), none, .absent⟩

theorem Unexposed.retained (h : Unexposed w) :
    Repository.Reads w.files (retained sampleHost "/repo" "setup") (.ok none) :=
  Repository.reads_bind (reads_source_none h.marker) Repository.reads_pure

theorem Unexposed.state (h : Unexposed w) :
    Looks w (state sampleHost sampleCall "setup") (· = .ok sampleState) := by
  have hbody : (toVec (.string "body")).size ≤ Repository.MAX_SOURCE_BYTES :=
    size_le_of_bound (by decide)
  unfold SkillExposure.state
  refine looks_bind (looks_lift rfl) (fun _ _ => ?_) fun e he => by cases he
  refine looks_bind (looks_lift rfl) (fun _ _ => ?_) fun e he => by cases he
  refine looks_bind (looks_exact (reads_source_toVec h.body hbody)) (fun raw hraw => ?_)
    fun e he => by cases he
  rw [← Except.ok.inj hraw.symm]
  refine looks_bind (looks_exact h.retained) (fun record hrecord => ?_) fun e he => by cases he
  rw [← Except.ok.inj hrecord.symm]
  refine looks_look (looks_pure ?_)
  rw [h.entry]
  rfl

theorem Unexposed.names (h : Unexposed w) :
    Repository.Reads w.files names (.ok ["setup"]) := by
  have hregistry : (toVec sampleRegistry).size ≤ Repository.MAX_SOURCE_BYTES :=
    size_le_of_bound (by decide)
  refine Repository.reads_bind (reads_source_toVec h.registry hregistry) ?_
  refine Repository.reads_step (okOr_eq_ok.mpr (fromSlice_toVec _)) ?_
  refine Repository.reads_step (okOr_eq_ok.mpr rfl) ?_
  exact Repository.reads_done (by decide)

theorem Unexposed.revalidate (h : Unexposed w) {again : Bool} :
    Looks w (revalidate sampleHost sampleCall again) (· = .ok ()) := by
  have hview : Looks w (view sampleHost sampleCall sampleRequest)
      (· = .ok (.writeReady (readyAction sampleHost sampleCall "setup" sampleRequest sampleState))) := by
    unfold view
    refine looks_bind (looks_exact h.names) (fun selected hselected => ?_) fun e he => by cases he
    rw [← Except.ok.inj hselected.symm]
    refine looks_bind (Q := fun r => r = .ok "setup") (looks_lift rfl) (fun name hname => ?_)
      fun e he => by cases he
    rw [← Except.ok.inj hname.symm]
    refine looks_bind (Q := fun r => r = .ok ()) (looks_lift (check_eq_ok.mpr (by decide)))
      (fun _ _ => ?_) fun e he => by cases he
    refine looks_bind (looks_exact (r := .ok ()) ?_) (fun _ _ => ?_) fun e he => by cases he
    · unfold discoverable
      rw [if_pos (by decide)]
      exact Repository.reads_pure
    refine looks_bind (Q := fun r => r = .ok ()) (looks_lift (check_eq_ok.mpr (by decide)))
      (fun _ _ => ?_) fun e he => by cases he
    refine looks_bind h.state (fun s hs => ?_) fun e he => by cases he
    rw [← Except.ok.inj hs.symm]
    refine looks_bind (Q := fun r => r = .ok ()) (looks_lift (check_eq_ok.mpr rfl))
      (fun _ _ => ?_) fun e he => by cases he
    show Looks w (if sampleState.observed = .collision then _ else _) _
    rw [if_neg (by decide)]
    unfold viewFree
    refine looks_bind (Q := fun r => r = .ok ()) (looks_lift (check_eq_ok.mpr (by decide)))
      (fun _ _ => ?_) fun e he => by cases he
    show Looks w (if (sampleRequest.field "arguments").field "mode" = .string "recover" then _ else _) _
    rw [if_neg (by decide)]
    show Looks w (if (sampleState.observed = .owned ↔ _ = _) then _ else _) _
    rw [if_neg (by decide)]
    show Looks w (if _ ≠ _ then _ else _) _
    rw [if_neg (by decide)]
    exact looks_pure rfl
  refine looks_bind hview (fun viewed hviewed => ?_) fun e he => by cases he
  rw [← Except.ok.inj hviewed.symm]
  refine looks_bind (Q := fun r => r = .ok ()) (looks_lift (check_eq_ok.mpr ⟨rfl, rfl⟩))
    (fun _ _ => looks_lift rfl) fun e he => by cases he

/-- The files after the admission. -/
def sampleAdmitted : Repository.Files :=
  (sampleWorld.files.insert LOCK .empty).insert sampleEffect.attemptPath
    (toVec sampleEffect.attempted.toValue)

/-- The bytes of the marker. -/
def sampleRecord : Value := recordValue sampleInvocation sampleEffect.custody

def sampleStaged : Repository.Files :=
  sampleAdmitted.insert (temporary sampleHost "setup" sampleInvocation) (toVec sampleRecord)

/-- The files when the marker is there and the link is not. -/
def sampleMarked : Repository.Files := sampleStaged.insert (marker "setup") (toVec sampleRecord)

theorem sampleHost_text : Repository.HashText sampleHost := fun _ => by
  show sha256Revision "sha256:fedcba9876543210fedcba9876543210fedcba9876543210fedcba9876543210" = true
  decide

theorem sampleEffect_ready : sampleEffect.Ready sampleCall.decision :=
  ⟨rfl, _, rfl, List.mem_singleton.mpr rfl⟩

theorem attemptPath_sample : sampleEffect.attemptPath =
    ".agentic-workspace/local/effects/fedcba9876543210fedcba9876543210fedcba9876543210fedcba9876543210.attempt.json" := by
  decide

theorem resultPath_sample : sampleEffect.resultPath =
    ".agentic-workspace/local/effects/fedcba9876543210fedcba9876543210fedcba9876543210fedcba9876543210.result.json" := by
  decide

theorem temporary_sample : temporary sampleHost "setup" sampleInvocation =
    ".agentic-workspace/local/effects/skill-exposure-setup.json.0123456789abcdef0123456789abcdef0123456789abcdef0123456789abcdef.tmp" := by
  decide +kernel

theorem sampleWorld_unexposed : Unexposed sampleWorld where
  registry := by
    rw [sampleWorld, Repository.getElem?_insert_of_ne (by decide),
      Std.ExtTreeMap.getElem?_insert_self]
  body := Std.ExtTreeMap.getElem?_insert_self
  marker := by
    rw [sampleWorld, Repository.getElem?_insert_of_ne (by decide),
      Repository.getElem?_insert_of_ne (by decide)]
    exact Std.ExtTreeMap.getElem?_empty
  entry := Std.ExtTreeMap.getElem?_empty

/-- A file that is neither of the product's sources nor the marker. -/
theorem Unexposed.insert (h : Unexposed w) {p : String} {bytes : ByteArray} (hregistry : REGISTRY ≠ p)
    (hbody : canonical "setup" ++ "/SKILL.md" ≠ p) (hmarker : SkillExposure.marker "setup" ≠ p) :
    Unexposed { w with files := w.files.insert p bytes } where
  registry := (Repository.getElem?_insert_of_ne hregistry).trans h.registry
  body := (Repository.getElem?_insert_of_ne hbody).trans h.body
  marker := (Repository.getElem?_insert_of_ne hmarker).trans h.marker
  entry := h.entry

theorem sample_locked : Unexposed { sampleWorld with files := sampleWorld.files.insert LOCK .empty } :=
  sampleWorld_unexposed.insert (by decide) (by decide) (by decide)

theorem sample_admitted : Unexposed { sampleWorld with files := sampleAdmitted } :=
  sample_locked.insert (by rw [attemptPath_sample]; decide) (by rw [attemptPath_sample]; decide)
    (by rw [attemptPath_sample]; decide)

theorem sample_staged : Unexposed { sampleWorld with files := sampleStaged } :=
  sample_admitted.insert (by rw [temporary_sample]; decide) (by rw [temporary_sample]; decide)
    (by rw [temporary_sample]; decide)

theorem sample_absent {p : String} (hregistry : p ≠ REGISTRY)
    (hbody : p ≠ canonical "setup" ++ "/SKILL.md") : sampleWorld.files[p]? = none := by
  rw [sampleWorld, Repository.getElem?_insert_of_ne hbody, Repository.getElem?_insert_of_ne hregistry]
  exact Std.ExtTreeMap.getElem?_empty

theorem openLock_creates {message : String} {files : Repository.Files} (hnone : files[LOCK]? = none) :
    Guards Repository.exec 0 (fun _ => True) (Repository.openLock LOCK message)
      (fun r s => r = .ok () ∧ s = files.insert LOCK .empty) files := by
  have habsent : LOCK ∉ files := by
    rw [Std.ExtTreeMap.mem_iff_isSome_getElem?, hnone]
    simp
  unfold Repository.openLock
  refine guards_step_bind trivial ?_
  simp only [Repository.exec, hnone]
  refine guards_step_bind trivial ?_
  simp only [Repository.exec, if_neg habsent]
  exact guards_pure trivial ⟨rfl, rfl⟩

/-- The first expose is admitted. -/
theorem sample_admits : (admitted sampleHost sampleCall).alone exec 0 sampleWorld =
    (.ok ("setup", sampleState, none, sampleEffect.custody),
      { sampleWorld with files := sampleAdmitted }) := by
  have hlocked := sample_locked
  have hnone : sampleWorld.files[LOCK]? = none := sample_absent (by decide) (by decide)
  have hguards : Guards exec 0 (fun _ => True) (admitted sampleHost sampleCall)
      (fun r w' => r = .ok ("setup", sampleState, none, sampleEffect.custody) ∧
        w' = { sampleWorld with files := sampleAdmitted }) sampleWorld := by
    unfold admitted
    refine guards_ofExcept_bind trivial (fun _ _ => ?_) fun e he => by cases he
    refine looks_ok_guards (looks_exact (reads_source_none hnone)) trivial ?_
    have hlock : Guards exec 0 (fun _ => True)
        (onFiles (Repository.openLock LOCK "unrecognized configuration lock preserved"))
        (fun r w' => r = .ok () ∧
          w' = { sampleWorld with files := sampleWorld.files.insert LOCK .empty }) sampleWorld :=
      onFiles_guards (w := sampleWorld) (fun _ _ => trivial)
        (fun r files _ hr => ⟨hr.1, congrArg (World.mk · ∅ []) hr.2⟩) (openLock_creates hnone)
    refine guards_bind (hlock.mono (fun _ h => h) ?_)
    rintro _ w' - ⟨rfl, rfl⟩
    refine looks_ok_guards hlocked.revalidate trivial ?_
    refine guards_ofExcept_bind trivial (fun name hname => ?_) fun e he => by cases he
    obtain rfl := Except.ok.inj hname
    refine looks_ok_guards hlocked.state trivial ?_
    refine guards_ofExcept_bind trivial (fun _ _ => ?_) fun e he => by cases he
    refine looks_ok_guards (looks_exact hlocked.retained) trivial ?_
    refine guards_ofExcept_bind trivial (fun held hheld => ?_) fun e he => by cases he
    obtain rfl := Except.ok.inj hheld
    have hevidence : ∀ p, startsWith ".agentic-workspace/local/effects/f" p = true →
        (sampleWorld.files.insert LOCK .empty)[p]? = none := fun p hp => by
      rw [Repository.getElem?_insert_of_ne (ne_of_startsWith hp (by decide))]
      exact sample_absent (ne_of_startsWith hp (by decide)) (ne_of_startsWith hp (by decide))
    refine guards_bind (onFiles_guards (w := sampleWorld) (J := fun _ => True)
      (Q := fun r files => r = .ok (⟨.execute, sampleEffect.attempted⟩, sampleEffect.custody) ∧
        files = sampleAdmitted) (fun _ _ => trivial) (fun r files _ hr => ?_)
      (Repository.admit_guards (e := sampleEffect) sampleHost_text sampleEffect_ready
        (hevidence _ (by rw [attemptPath_sample]; decide))
        (hevidence _ (by rw [resultPath_sample]; decide)) trivial trivial ⟨rfl, rfl⟩))
    rw [hr.1, hr.2]
    exact guards_pure trivial ⟨rfl, rfl⟩
  exact Prod.ext (alone_of_guards hguards).1 (alone_of_guards hguards).2

theorem exec_hardLink {old new : String} {bytes : ByteArray} (hsource : w.files[old]? = some bytes)
    (habsent : new ∉ w.files) : exec 0 w (.file (.hardLink old new)) =
      ({ w with files := w.files.insert new bytes }, true) := by
  simp only [exec, Repository.exec, hsource, if_neg habsent]

/-- The first expose can be cut off when its marker has just been published. -/
theorem sample_stops : Stops exec 0 (execute sampleHost sampleCall) sampleWorld
    { sampleWorld with files := sampleMarked } := by
  refine Stops.after sample_admits ?_
  show Stops exec 0 (if (argumentsOf sampleInvocation).field "mode" = .string "recover" then _ else _) _ _
  rw [if_neg (by decide)]
  refine Stops.bind ?_
  have hadmitted := sample_admitted
  have hstaged := sample_staged
  have htemporary : sampleAdmitted[temporary sampleHost "setup" sampleInvocation]? = none := by
    have hfront : startsWith ".agentic-workspace/local/effects/s"
        (temporary sampleHost "setup" sampleInvocation) = true := temporary_front
    have hevidence : startsWith ".agentic-workspace/local/effects/s" sampleEffect.attemptPath = false := by
      rw [attemptPath_sample]
      decide
    rw [sampleAdmitted, Repository.getElem?_insert_of_ne (ne_of_startsWith hfront hevidence),
      Repository.getElem?_insert_of_ne (ne_of_startsWith hfront (by decide))]
    exact sample_absent (ne_of_startsWith hfront (by decide)) (ne_of_startsWith hfront (by decide))
  have hstage : (onFiles (stage sampleHost sampleCall "setup" (toVec sampleRecord))).alone exec 0
      { sampleWorld with files := sampleAdmitted } =
        (.ok (), { sampleWorld with files := sampleStaged }) := by
    have hguards : Guards exec 0 (fun _ => True)
        (onFiles (stage sampleHost sampleCall "setup" (toVec sampleRecord)))
        (fun r w' => r = .ok () ∧ w' = { sampleWorld with files := sampleStaged })
        { sampleWorld with files := sampleAdmitted } :=
      @onFiles_guards sampleWorld _ (fun _ => True)
        (fun r files => r = .ok () ∧ files = sampleStaged) _ _ (fun _ _ => trivial)
        (fun r files _ hr => ⟨hr.1, by rw [hr.2]⟩) _ _
        (Repository.reads_ok_guards (reads_source_none htemporary) trivial
          (Repository.createNew_guards htemporary trivial trivial ⟨rfl, rfl⟩))
    exact Prod.ext (alone_of_guards hguards).1 (alone_of_guards hguards).2
  refine Stops.after hstage ?_
  have hrevalidate := alone_of_guards (@Unexposed.revalidate _ hstaged true)
  refine Stops.after (Prod.ext hrevalidate.2 hrevalidate.1) ?_
  have hstate := alone_of_guards hstaged.state
  refine Stops.after (Prod.ext hstate.2 hstate.1) ?_
  refine Stops.after (a := ()) ?_
    (?_ : Stops exec 0 _ { sampleWorld with files := sampleStaged } _)
  · show ((Prog.ofExcept (check _ _) : StoreM Unit)).alone exec 0 _ = _
    rw [check_eq_ok.mpr rfl]
    rfl
  · have hsource : sampleStaged[temporary sampleHost "setup" sampleCall.invocation]? =
        some (toVec sampleRecord) := Std.ExtTreeMap.getElem?_insert_self
    have habsent : marker "setup" ∉ sampleStaged := by
      rw [Std.ExtTreeMap.mem_iff_isSome_getElem?, sample_staged.marker]
      simp
    refine Stops.later ?_
    rw [exec_hardLink (w := { sampleWorld with files := sampleStaged }) hsource habsent]
    exact Stops.here _ _

/-- The world of the interrupted expose. -/
def sampleInterrupted : World := { sampleWorld with files := sampleMarked }

theorem sampleWorld_untouched : Untouched "setup" sampleWorld where
  marker := by
    rw [Std.ExtTreeMap.mem_iff_isSome_getElem?, sampleWorld_unexposed.marker]
    simp
  history := rfl

theorem sample_executes {allowed : World → UserChange → Prop} :
    Step "setup" sampleHost allowed sampleWorld sampleInterrupted :=
  .executes sampleCall rfl sample_stops

/-- A user's file survives what the product does around it. -/
theorem unowned_preserved_sample :
    Preserved "setup" sampleHost (sampleInterrupted.changed (path "setup") (.put .file)) := by
  refine unowned_preserved sampleWorld_untouched (.tail (.single sample_executes) (.user _ _ ?_))
  intro hlink
  cases hlink

/-- The world after the user made the link of the interrupted expose by hand. -/
def sampleLinked : World :=
  sampleInterrupted.changed (path "setup") (.put (.link (destination "setup")))

/-- The marker of the interrupted expose counts. -/
theorem sample_retained : Repository.Reads sampleMarked (retained sampleHost "/repo" "setup")
    (.ok (some sampleRecord)) := by
  have hsize : (toVec sampleRecord).size ≤ Repository.MAX_SOURCE_BYTES :=
    size_le_of_bound (by decide +kernel)
  have hmarker : sampleMarked[marker "setup"]? = some (toVec sampleRecord) :=
    Std.ExtTreeMap.getElem?_insert_self
  have hevidence : startsWith ".agentic-workspace/local/effects/s" sampleEffect.attemptPath = false := by
    rw [attemptPath_sample]
    decide
  have hattempt : sampleMarked[sampleEffect.attemptPath]? =
      some (toVec sampleEffect.attempted.toValue) := by
    rw [sampleMarked, Repository.getElem?_insert_of_ne (ne_of_startsWith marker_front hevidence).symm,
      sampleStaged, Repository.getElem?_insert_of_ne (ne_of_startsWith temporary_front hevidence).symm]
    exact Std.ExtTreeMap.getElem?_insert_self
  refine Repository.reads_bind (reads_source_toVec hmarker hsize) ?_
  refine Repository.reads_bind (a := sampleRecord) ?_ Repository.reads_pure
  refine Repository.reads_step (okOr_eq_ok.mpr (fromSlice_toVec _)) ?_
  refine Repository.reads_step (Repository.readEvidence_value sampleEffect.attemptEvidence) ?_
  refine Repository.reads_bind (a := sampleEffect.attempted.toValue) ?_ ?_
  · refine Repository.reads_step (Repository.check_pos rfl) ?_
    refine Repository.reads_step (Repository.check_pos rfl) ?_
    refine Repository.reads_step (Repository.check_pos ?_) ?_
    · show ¬ (sampleEffect.attemptPath = "" ∨ '\\' ∈ sampleEffect.attemptPath.toList ∨ _)
      rw [attemptPath_sample]
      decide +kernel
    refine Repository.reads_bind Repository.reads_read ?_
    refine Repository.reads_step (okOr_eq_ok.mpr hattempt) ?_
    refine Repository.reads_step (Repository.check_pos rfl) ?_
    exact Repository.reads_done (okOr_eq_ok.mpr (fromSlice_toVec _))
  · exact Repository.reads_step (Repository.check_pos ⟨rfl, rfl, rfl, rfl, by decide⟩)
      Repository.reads_pure

/-- **The user's own link counts as owned.** -/
theorem hand_made_link_owned :
    Relation.ReflTransGen (Step "setup" sampleHost fun _ _ => True) sampleWorld sampleLinked ∧
      ¬ Preserved "setup" sampleHost sampleLinked := by
  refine ⟨.tail (.single sample_executes) (.user _ _ trivial), fun h => ?_⟩
  have hstate : Looks sampleLinked (state sampleHost sampleCall "setup") fun r =>
      ∃ s, r = .ok s ∧ s.observed = .owned := by
    have hbody : (toVec (.string "body")).size ≤ Repository.MAX_SOURCE_BYTES :=
      size_le_of_bound (by decide)
    have hsource : sampleMarked[canonical "setup" ++ "/SKILL.md"]? = some (toVec (.string "body")) := by
      rw [sampleMarked, Repository.getElem?_insert_of_ne (by decide)]
      exact sample_staged.body
    unfold state
    refine looks_bind (looks_lift rfl) (fun _ _ => ?_) fun e he => by cases he
    refine looks_bind (looks_lift rfl) (fun _ _ => ?_) fun e he => by cases he
    refine looks_bind (looks_exact (reads_source_toVec hsource hbody)) (fun raw _ => ?_)
      fun e he => by cases he
    refine looks_bind (looks_exact sample_retained) (fun record hrecord => ?_) fun e he => by cases he
    rw [← Except.ok.inj hrecord.symm]
    refine looks_look (looks_pure ⟨_, rfl, ?_⟩)
    rw [sampleLinked, World.changed, Std.ExtTreeMap.getElem?_insert_self]
    show observe "setup" true (some (.link (destination "setup"))) = .owned
    rw [observe, if_pos ⟨beq_self_eq_true _, rfl⟩]
  obtain ⟨s, hs, howned⟩ := hstate.alone
  have hmine := h.owned sampleCall s hs howned
  revert hmine
  unfold Mine
  decide

end AgenticCore.SkillExposure
