import AgenticCore.NativePatch
import AgenticCore.RepositoryPaths

/-!
# The stores of one patch integration

What one integration of any number of files finds in its repository, and what its steps keep.

* `Integration` : an invocation that the view proposes, with its files.
* `Inv`         : what holds from the complete carrier on.
* `Inv.stage`, `Inv.replace`, `Inv.commit` : the steps that keep it.
* `reads_retained`, `reads_revalidate` : what the carrier and the view say of such a store.
-/

set_option autoImplicit false

namespace AgenticCore.NativePatch

open Json Text Interleaving Attempt Repository
open AttemptStore hiding StoreM Op Answer exec

/-! ## Paths -/

theorem concrete_relative {path : String} (h : concrete path = .ok ()) :
    DecisionSource.relative path = .ok () := by
  simp only [concrete, Except.bind_eq_ok_iff] at h
  obtain ⟨_, hrelative, -⟩ := h
  exact hrelative

/-- A concrete path is not the workspace's own. -/
theorem concrete_apart {path : String} (h : concrete path = .ok ()) :
    startsWith OWNED path = false := by
  simp only [concrete, Except.bind_eq_ok_iff, check_eq_ok] at h
  obtain ⟨_, -, _, hfirst, -⟩ := h
  by_contra howned
  rw [Bool.not_eq_false, startsWith, List.isPrefixOf_iff_prefix] at howned
  obtain ⟨rest, hrest⟩ := howned
  have hsplit : path.toList = ".agentic-workspace".toList ++ '/' :: rest := by
    rw [← hrest]
    rfl
  have hhead : (split '/' path).head? = some ".agentic-workspace" := by
    rw [split, hsplit, List.splitOn_append_cons_self,
      List.splitOn_eq_singleton (by decide : '/' ∉ ".agentic-workspace".toList)]
    rfl
  have hno := (hfirst ".agentic-workspace" hhead).1
  revert hno
  decide

variable {host : Host}

/-- What a temporary adds to its path. -/
def suffixOf (host : Host) (invocation : Value) : String :=
  "." ++ dropChars 7 (host.digest invocation) ++ ".tmp"

theorem temporary_eq {invocation : Value} {path : String} :
    host.temporary invocation path = path ++ suffixOf host invocation := by
  simp only [Host.temporary, suffixOf, String.append_assoc]

theorem suffix_name (hdigest : ∀ v, sha256Revision (host.digest v) = true) (invocation : Value) :
    (suffixOf host invocation).toList.all nameChar = true := by
  rw [suffixOf, String.toList_append, String.toList_append, List.all_append, List.all_append,
    digits_name (hdigest invocation)]
  decide

theorem temporary_apart (hdigest : ∀ v, sha256Revision (host.digest v) = true) {invocation : Value}
    {path : String} (h : startsWith OWNED path = false) :
    startsWith OWNED (host.temporary invocation path) = false := by
  by_contra howned
  rw [Bool.not_eq_false, startsWith, List.isPrefixOf_iff_prefix, temporary_eq,
    String.toList_append] at howned
  have hnot : ¬ OWNED.toList <+: path.toList := by
    intro hpath
    rw [startsWith, List.isPrefixOf_iff_prefix.mpr hpath] at h
    cases h
  rcases List.prefix_or_prefix_of_prefix howned (List.prefix_append _ _) with hpath | ⟨rest, hrest⟩
  · exact hnot hpath
  · -- The slash that ends the prefix would be part of what the temporary adds.
    rw [← hrest, List.prefix_append_right_inj] at howned
    have hlast : OWNED.toList.getLast? = some '/' := by decide
    rw [← hrest] at hlast
    cases rest with
    | nil => exact hnot (by rw [← hrest, List.append_nil])
    | cons c rest =>
      rw [List.getLast?_append_of_ne_nil _ (by simp)] at hlast
      have hmem := howned.subset (List.mem_of_getLast? hlast)
      have hslash := List.all_eq_true.mp (suffix_name hdigest invocation) '/' hmem
      revert hslash
      decide

/-- A temporary is read as its path is. -/
theorem temporary_read (hdigest : ∀ v, sha256Revision (host.digest v) = true) {invocation : Value}
    {path : String} (h : Verification.repositoryRelative path = true) :
    Verification.repositoryRelative (host.temporary invocation path) = true := by
  simp only [Verification.repositoryRelative, Bool.and_eq_true, List.all_eq_true] at h
  obtain ⟨⟨-, hchars⟩, hparts⟩ := h
  rw [temporary_eq]
  refine append_read (List.all_eq_true.mpr hchars) (fun part hpart => ?_) (fun part hpart => ?_)
    (suffix_name hdigest invocation) (by simp [suffixOf])
  · exact of_decide_eq_true (hparts part (List.dropLast_subset _ hpart)).1
  · exact List.all_eq_true.mpr (hparts part hpart).2

/-- The characters that tell a carrier's path from those of evidence. -/
theorem carrier_toList (digits : String) :
    (".agentic-workspace/local/patch-integrations/" ++ digits ++ ".json").toList =
      ".agentic-workspace/local/p".toList ++
        ("atch-integrations/".toList ++ digits.toList ++ ".json".toList) := by
  have hdirectory : ".agentic-workspace/local/patch-integrations/".toList =
      ".agentic-workspace/local/p".toList ++ "atch-integrations/".toList := by decide
  rw [String.toList_append, String.toList_append, hdirectory, List.append_assoc, List.append_assoc,
    List.append_assoc]

theorem marker_not_effect (host : Host) (source : String) :
    startsWith (DIRECTORY ++ "/") (host.marker source) = false := by
  have hnot : ¬ (DIRECTORY ++ "/").toList <+: (host.marker source).toList := by
    have hmarker : (host.marker source).toList = _ := carrier_toList _
    rw [hmarker]
    intro h
    rcases List.prefix_or_prefix_of_prefix h (List.prefix_append _ _) with h | h
    · revert h
      decide
    · revert h
      decide
  rw [startsWith, ← Bool.not_eq_true, List.isPrefixOf_iff_prefix]
  exact hnot

/-! ## Integrations -/

/-- One file: the delta's two texts, the text it had, and the merged one. -/
structure Subject where
  path : String
  base : String
  worker : String
  before : String
  after : String

def Subject.delta (f : Subject) : FileDelta := ⟨f.path, f.base, f.worker⟩

def Subject.change (f : Subject) : FileChange := ⟨f.path, f.before, f.after⟩

/-- An invocation that the view of its own request proposes. -/
structure Integration (host : Host) where
  effect : Effect host.toHost
  ctx : Context
  files : List Subject
  request : Value
  source_owner : effect.invocation.field "source_owner" = .string "assignment"
  operation : effect.invocation.field "operation_id" = .string OP
  effects : effect.invocation.field "effects" = .strings ["implementation"]
  deltas : ctx.files = files.map Subject.delta
  proposed : proposalOf effect.invocation = ctx.proposal (files.map Subject.change)
  requested : requestOf (requestsOf effect.invocation) = some request
  template : request = ctx.template host (proposalOf effect.invocation)
  merged : ∀ f ∈ files, host.merge f.base f.worker f.before = .ok f.after
  concrete : ∀ f ∈ files, concrete f.path = .ok ()
  nodup : (files.map Subject.path).Nodup
  /-- A temporary's name holds the digest of the invocation that lists the files. -/
  apart : ∀ f ∈ files, ∀ g ∈ files, f.path ≠ host.temporary effect.invocation g.path
  digest_text : ∀ v, sha256Revision (host.digest v) = true
  hash_text : HashText host.toHost

namespace Integration

variable (I : Integration host)

abbrev invocation : Value := I.effect.invocation

def source : String := I.ctx.source host (proposalOf I.invocation)

def outcome : Value := host.outcome I.invocation

def carrier : Held := ⟨I.effect.custody, I.invocation, I.outcome⟩

/-- The carrier as it is read once the result is there. -/
def settled : Held := ⟨I.effect.settled I.outcome, I.invocation, I.outcome⟩

def marker : String := host.marker I.source

def temporary (f : Subject) : String := host.temporary I.invocation f.path

/-- Merging a merged text again gives it again. -/
def Stable : Prop := ∀ f ∈ I.files, host.merge f.base f.worker f.after = .ok f.after

def revalidate : StoreM Unit := host.revalidate I.ctx I.effect.requested I.invocation

def execute (decision : Value) : StoreM Executed :=
  host.execute I.effect.requested decision I.invocation I.revalidate

/-- The carrier and the result can be read again. -/
structure Fits : Prop where
  envelope : envelope I.effect.requested I.invocation I.outcome ≤ Verification.MAX_SOURCE_BYTES
  carrier : (toVec I.carrier.toValue).size ≤ Verification.MAX_SOURCE_BYTES

/-- What holds from the complete carrier on. -/
structure Inv (s : Files) : Prop where
  lock : s[LOCK]? = none ∨ s[LOCK]? = some .empty
  carried : s[I.marker]? = some (toVec I.carrier.toValue)
  attempted : I.effect.Attempted s
  opened : I.effect.Open I.outcome s
  file : ∀ f ∈ I.files, s[f.path]? = some f.before.toUTF8 ∨ s[f.path]? = some f.after.toUTF8
  temporary : ∀ f ∈ I.files, ∀ bytes, s[I.temporary f]? = some bytes →
    bytes = f.after.toUTF8 ∧ s[f.path]? = some f.before.toUTF8 ∧ f.before.toUTF8 ≠ f.after.toUTF8
  committed : I.effect.Committed I.outcome s →
    (∀ f ∈ I.files, s[f.path]? = some f.after.toUTF8) ∧ I.Stable

variable {I} {s : Files}

/-! ### The parts of the invocation -/

theorem files_eq : filesOf I.invocation = I.files.map fun f => f.change.toValue := by
  rw [filesOf, I.proposed]
  show (List.map FileChange.toValue (I.files.map Subject.change)) = _
  rw [List.map_map]
  rfl

theorem changes_eq : changesOf I.invocation = .ok (I.files.map Subject.change) := by
  have h : ∀ files : List Subject,
      (files.map fun f => f.change.toValue).mapM FileChange.ofValue =
        .ok (files.map Subject.change) := by
    intro files
    induction files with
    | nil => rfl
    | cons f files ih =>
      rw [List.map_cons, List.mapM_cons, ih]
      rfl
  rw [changesOf, files_eq, h]

theorem request_source :
    (I.request.field "source_revision").asStr = some I.source := by
  rw [I.template]
  rfl

theorem allows : I.effect.Allows I.outcome := by
  simp only [Effect.Allows, operationResult, Except.bind_eq_ok_iff, check_eq_ok, okOr_eq_ok,
    Except.pure_eq_ok_iff, I.effects]
  refine ⟨_, ⟨"applied", ["implementation"], I.outcome.field "value"⟩, rfl, (), by simp, _, rfl, (),
    ?_, rfl⟩
  simp

/-- A file's change, as the view looks it up. -/
theorem find_change {f : Subject} (hf : f ∈ I.files) :
    (filesOf I.invocation).find? (·.field "path" = .string f.path) = some f.change.toValue := by
  rw [files_eq]
  have hnodup := I.nodup
  revert hf hnodup
  generalize I.files = files
  induction files with
  | nil => simp
  | cons g files ih =>
    intro hf hnodup
    rw [List.map_cons, List.find?_cons]
    rw [List.map_cons, List.nodup_cons] at hnodup
    rcases List.mem_cons.mp hf with rfl | hf
    · have : decide ((f.change.toValue).field "path" = .string f.path) = true := decide_eq_true rfl
      rw [this]
    · have hne : g.path ≠ f.path := fun heq =>
        hnodup.1 (heq ▸ List.mem_map_of_mem hf)
      have : decide ((g.change.toValue).field "path" = .string f.path) = false := by
        apply decide_eq_false
        intro heq
        exact hne (Value.string.inj heq)
      rw [this]
      exact ih hf hnodup.2

/-! ### Paths that are never the same -/

theorem lock_owned : startsWith OWNED LOCK = true := by decide

theorem marker_owned : startsWith OWNED I.marker = true := by
  have hdirectory : startsWith OWNED ".agentic-workspace/local/patch-integrations/" = true := by
    decide
  have h := startsWith_append (t := dropChars 7 (host.digest (.string I.source))) hdirectory
  exact startsWith_append h

theorem path_owned {f : Subject} (hf : f ∈ I.files) : startsWith OWNED f.path = false :=
  concrete_apart (I.concrete f hf)

theorem temporary_owned {f : Subject} (hf : f ∈ I.files) :
    startsWith OWNED (I.temporary f) = false :=
  temporary_apart I.digest_text (path_owned hf)

/-- A path outside the workspace's own directory is none of the effect's records. -/
theorem apart_owned {path : String} (h : startsWith OWNED path = false) :
    path ≠ LOCK ∧ path ≠ I.marker ∧ path ≠ I.effect.attemptPath ∧ path ≠ I.effect.resultPath :=
  ⟨(ne_of_startsWith lock_owned h).symm, (ne_of_startsWith (marker_owned (I := I)) h).symm,
    (evidence_apart h).1, (evidence_apart h).2⟩

theorem lock_apart : LOCK ≠ I.effect.attemptPath ∧ LOCK ≠ I.effect.resultPath := by
  have hlast : LOCK.toList.getLast? = some 'k' := by decide
  refine ⟨ne_of_getLast ?_, ne_of_getLast ?_⟩
  · rw [hlast, evidence_last.1]
    decide
  · rw [hlast, evidence_last.2]
    decide

theorem marker_apart :
    LOCK ≠ I.marker ∧ I.effect.attemptPath ≠ I.marker ∧ I.effect.resultPath ≠ I.marker := by
  have hmarker := marker_not_effect host I.source
  have hlock : startsWith (DIRECTORY ++ "/") LOCK = true := by decide
  exact ⟨ne_of_startsWith hlock hmarker, ne_of_startsWith evidence_prefix.1 hmarker,
    ne_of_startsWith evidence_prefix.2 hmarker⟩

theorem temporary_inj {f g : Subject} (h : I.temporary f = I.temporary g) : f.path = g.path := by
  rw [temporary, temporary, temporary_eq, temporary_eq] at h
  have hlist := congrArg String.toList h
  rw [String.toList_append, String.toList_append] at hlist
  exact String.toList_inj.mp (List.append_cancel_right hlist)

theorem eq_of_path {f g : Subject} (hf : f ∈ I.files) (hg : g ∈ I.files) (h : f.path = g.path) :
    f = g :=
  List.inj_on_of_nodup_map I.nodup hf hg h

/-! ### What each step keeps -/

namespace Inv

/-- Changes outside the effect's own files keep the invariant. -/
theorem of_same {s' : Files} (h : I.Inv s) (hlock : s'[LOCK]? = none ∨ s'[LOCK]? = some .empty)
    (hsame : ∀ path, path ≠ LOCK → s'[path]? = s[path]?) : I.Inv s' := by
  have hfile : ∀ f ∈ I.files, s'[f.path]? = s[f.path]? := fun f hf =>
    hsame _ (apart_owned (I := I) (path_owned hf)).1
  have htemporary : ∀ f ∈ I.files, s'[I.temporary f]? = s[I.temporary f]? := fun f hf =>
    hsame _ (apart_owned (I := I) (temporary_owned hf)).1
  have hattempt := hsame _ (lock_apart (I := I)).1.symm
  have hresult := hsame _ (lock_apart (I := I)).2.symm
  refine ⟨hlock, ?_, ?_, ?_, ?_, ?_, ?_⟩
  · rw [hsame _ marker_apart.1.symm]
    exact h.carried
  · rw [Effect.Attempted, hattempt]
    exact h.attempted
  · rw [Effect.Open, Effect.Committed, hresult]
    exact h.opened
  · intro f hf
    rw [hfile f hf]
    exact h.file f hf
  · intro f hf bytes hbytes
    rw [htemporary f hf] at hbytes
    rw [hfile f hf]
    exact h.temporary f hf bytes hbytes
  · intro hcommitted
    rw [Effect.Committed, hresult] at hcommitted
    obtain ⟨hafter, hstable⟩ := h.committed hcommitted
    refine ⟨fun f hf => ?_, hstable⟩
    rw [hfile f hf]
    exact hafter f hf

/-- A change to a file or to its temporary, before the result is there. -/
theorem of_files {s' : Files} (h : I.Inv s) (hnone : s[I.effect.resultPath]? = none)
    (hsame : ∀ path, startsWith OWNED path = true → s'[path]? = s[path]?)
    (hfile : ∀ f ∈ I.files, s'[f.path]? = some f.before.toUTF8 ∨ s'[f.path]? = some f.after.toUTF8)
    (htemporary : ∀ f ∈ I.files, ∀ bytes, s'[I.temporary f]? = some bytes →
      bytes = f.after.toUTF8 ∧ s'[f.path]? = some f.before.toUTF8 ∧
        f.before.toUTF8 ≠ f.after.toUTF8) :
    I.Inv s' ∧ s'[I.effect.resultPath]? = none := by
  have howned : ∀ path, startsWith (DIRECTORY ++ "/") path = true → startsWith OWNED path = true := by
    intro path hpath
    rw [startsWith, List.isPrefixOf_iff_prefix] at hpath ⊢
    exact (List.isPrefixOf_iff_prefix.mp (by decide)).trans hpath
  have hresult : s'[I.effect.resultPath]? = none := by
    rw [hsame _ (howned _ evidence_prefix.2)]
    exact hnone
  refine ⟨⟨?_, ?_, ?_, Or.inl hresult, hfile, htemporary, ?_⟩, hresult⟩
  · rw [hsame _ lock_owned]
    exact h.lock
  · rw [hsame _ marker_owned]
    exact h.carried
  · rw [Effect.Attempted, hsame _ (howned _ evidence_prefix.1)]
    exact h.attempted
  · intro hcommitted
    rw [Effect.Committed, hresult] at hcommitted
    cases hcommitted

/-- A temporary is written. -/
theorem stage {f : Subject} (hf : f ∈ I.files) (h : I.Inv s)
    (hnone : s[I.effect.resultPath]? = none) (hbefore : s[f.path]? = some f.before.toUTF8)
    (hne : f.before.toUTF8 ≠ f.after.toUTF8) :
    I.Inv (s.insert (I.temporary f) f.after.toUTF8) ∧
      (s.insert (I.temporary f) f.after.toUTF8)[I.effect.resultPath]? = none := by
  have hpath : ∀ g ∈ I.files, (s.insert (I.temporary f) f.after.toUTF8)[g.path]? = s[g.path]? :=
    fun g hg => getElem?_insert_of_ne (I.apart g hg f hf)
  refine of_files h hnone (fun path howned => ?_) (fun g hg => ?_) fun g hg bytes hbytes => ?_
  · exact getElem?_insert_of_ne (ne_of_startsWith howned (temporary_owned hf))
  · rw [hpath g hg]
    exact h.file g hg
  · rw [hpath g hg]
    by_cases hg' : I.temporary g = I.temporary f
    · obtain rfl := eq_of_path hg hf (temporary_inj hg')
      rw [Std.ExtTreeMap.getElem?_insert_self] at hbytes
      exact ⟨(Option.some.inj hbytes).symm, hbefore, hne⟩
    · rw [getElem?_insert_of_ne hg'] at hbytes
      exact h.temporary g hg bytes hbytes

/-- A file is replaced by its temporary. -/
theorem replace {f : Subject} (hf : f ∈ I.files) (h : I.Inv s)
    (hnone : s[I.effect.resultPath]? = none) :
    I.Inv ((s.erase (I.temporary f)).insert f.path f.after.toUTF8) ∧
      ((s.erase (I.temporary f)).insert f.path f.after.toUTF8)[I.effect.resultPath]? = none := by
  have hother : ∀ path, path ≠ f.path → path ≠ I.temporary f →
      ((s.erase (I.temporary f)).insert f.path f.after.toUTF8)[path]? = s[path]? := by
    intro path hpath htemporary
    rw [getElem?_insert_of_ne hpath, getElem?_erase_of_ne htemporary]
  have hpath : ∀ g ∈ I.files, g.path ≠ f.path →
      ((s.erase (I.temporary f)).insert f.path f.after.toUTF8)[g.path]? = s[g.path]? :=
    fun g hg hne => hother _ hne (I.apart g hg f hf)
  refine of_files h hnone (fun path howned => ?_) (fun g hg => ?_) fun g hg bytes hbytes => ?_
  · exact hother _ (ne_of_startsWith howned (path_owned hf))
      (ne_of_startsWith howned (temporary_owned hf))
  · by_cases hg' : g.path = f.path
    · obtain rfl := eq_of_path hg hf hg'
      exact Or.inr Std.ExtTreeMap.getElem?_insert_self
    · rw [hpath g hg hg']
      exact h.file g hg
  · have hne : I.temporary g ≠ f.path := (I.apart f hf g hg).symm
    by_cases hg' : g.path = f.path
    · obtain rfl := eq_of_path hg hf hg'
      rw [getElem?_insert_of_ne hne, Std.ExtTreeMap.getElem?_erase_self] at hbytes
      cases hbytes
    · rw [hother _ hne fun heq => hg' (temporary_inj heq)] at hbytes
      rw [hpath g hg hg']
      exact h.temporary g hg bytes hbytes

/-- The result is written. -/
theorem commit (h : I.Inv s)
    (hafter : ∀ f ∈ I.files, s[f.path]? = some f.after.toUTF8) (hstable : I.Stable) :
    I.Inv (s.insert I.effect.resultPath (toVec (I.effect.completed I.outcome).toValue)) := by
  have hother : ∀ path, path ≠ I.effect.resultPath →
      (s.insert I.effect.resultPath (toVec (I.effect.completed I.outcome).toValue))[path]? =
        s[path]? := fun path hpath => getElem?_insert_of_ne hpath
  have hfile : ∀ f ∈ I.files, _ := fun f hf =>
    hother f.path (apart_owned (I := I) (path_owned hf)).2.2.2
  refine ⟨?_, ?_, ?_, Or.inr Std.ExtTreeMap.getElem?_insert_self, fun f hf => ?_, ?_, ?_⟩
  · rw [hother _ lock_apart.2]
    exact h.lock
  · rw [hother _ marker_apart.2.2.symm]
    exact h.carried
  · rw [Effect.Attempted, hother _ Effect.attemptPath_ne_resultPath]
    exact h.attempted
  · rw [hfile f hf]
    exact h.file f hf
  · intro f hf bytes hbytes
    rw [hother _ (apart_owned (I := I) (temporary_owned hf)).2.2.2] at hbytes
    rw [hfile f hf]
    exact h.temporary f hf bytes hbytes
  · refine fun _ => ⟨fun f hf => ?_, hstable⟩
    rw [hfile f hf]
    exact hafter f hf

end Inv

/-! ### The carrier that is read -/

theorem ofValue_toValue (held : Held) : Held.ofValue held.toValue = .ok held := by
  simp only [Held.ofValue, Except.bind_eq_ok_iff, Except.pure_eq_ok_iff]
  exact ⟨held.custody, readCustody_value held.custody, rfl⟩

theorem marker_read : Verification.repositoryRelative I.marker = true :=
  digits_read (by decide) (by decide) (by decide) (I.digest_text _) (by decide) (by decide)

theorem reads_retained_none {target : String} (hnone : s[I.marker]? = none) :
    Repository.Reads s (host.retained target I.source) (.ok none) := by
  unfold Host.retained
  refine reads_bind (reads_verification marker_read ?_) ?_
  · show ∀ bytes ∈ s[I.marker]?, _
    rw [hnone]
    simp
  · rw [hnone]
    exact reads_pure

theorem result_size (hfits : I.Fits) : (toVec (I.effect.completed I.outcome).toValue).size ≤
    Verification.MAX_SOURCE_BYTES := by
  have hsize := @completed_size _ I.effect I.outcome I.digest_text
  have henvelope : (toVec (.object [("invocation", I.effect.invocation), ("outcome", I.outcome)])).size
      + 3 * (toVec (.string I.effect.requested)).size + 16384 ≤ Verification.MAX_SOURCE_BYTES :=
    hfits.envelope
  omega

/-- The carrier is read back, with the custody of the result once that is there. -/
theorem reads_retained (hfits : I.Fits) (h : I.Inv s) :
    (s[I.effect.resultPath]? = none →
      Repository.Reads s (host.retained I.effect.requested I.source) (.ok (some I.carrier))) ∧
    (I.effect.Committed I.outcome s →
      Repository.Reads s (host.retained I.effect.requested I.source) (.ok (some I.settled))) := by
  have hsize : ∀ bytes ∈ s[I.marker]?, bytes.size ≤ Verification.MAX_SOURCE_BYTES := by
    intro bytes hbytes
    rw [h.carried] at hbytes
    rw [← Option.some.inj hbytes]
    exact hfits.carrier
  have hprepare : Repository.Reads s
      (evidence (host.prepareCommit ⟨I.effect.requested, I.effect.custody, I.outcome⟩))
        (.ok (I.effect.completed I.outcome, I.effect.settled I.outcome)) :=
    reads_prepareCommit I.hash_text h.attempted allows h.opened (by simp)
  -- Both cases read the carrier and the result; they differ in what follows.
  have hcarrier : ∀ r, Repository.Reads s
      (s[I.effect.resultPath]?.elim (pure (some I.carrier) : StoreM (Option Held)) fun _ => do
        let _ ← evidence (host.inspectCommitted ⟨I.effect.requested, I.effect.settled I.outcome⟩)
        pure (some I.settled)) r → Repository.Reads s (host.retained I.effect.requested I.source) r := by
    intro r hr
    unfold Host.retained
    refine reads_bind (reads_verification marker_read hsize) ?_
    rw [h.carried]
    refine reads_step (okOr_eq_ok.mpr (fromSlice_toVec _)) ?_
    refine reads_step (ofValue_toValue _) ?_
    refine reads_bind hprepare ?_
    refine reads_step (check_pos ⟨rfl, I.source_owner, I.operation, rfl⟩) ?_
    refine reads_step (a := I.effect.resultEvidence I.outcome) (okOr_eq_ok.mpr rfl) ?_
    refine reads_bind (reads_verification (evidence_read I.hash_text).2 fun bytes hbytes => ?_) ?_
    · rcases h.opened with hnone | hcommitted
      · rw [hnone] at hbytes
        cases hbytes
      · rw [hcommitted] at hbytes
        rw [← Option.some.inj hbytes]
        exact result_size hfits
    · cases hresult : s[I.effect.resultPath]? with
      | none =>
        rw [hresult] at hr
        exact hr
      | some bytes =>
        rw [hresult] at hr
        exact hr
  constructor
  · intro hnone
    refine hcarrier _ ?_
    rw [hnone]
    exact reads_pure
  · intro hcommitted
    refine hcarrier _ ?_
    rw [hcommitted]
    exact reads_bind (reads_inspectCommitted I.hash_text h.attempted allows hcommitted) reads_pure

/-! ### Revalidation -/

theorem merge_size {before after current output : String}
    (h : host.merge before after current = .ok output) :
    current.utf8ByteSize ≤ MAX_BYTES ∧ output.utf8ByteSize ≤ MAX_BYTES := by
  simp only [Host.merge, normalize, Except.bind_eq_ok_iff, check_eq_ok, Except.pure_eq_ok_iff] at h
  obtain ⟨_, -, _, ⟨_, ⟨hcurrent, -⟩, -⟩, _, -, _, -, _, -, _, houtput, hpure⟩ := h
  rw [hpure] at houtput
  exact ⟨hcurrent, houtput⟩

theorem path_read {f : Subject} (hf : f ∈ I.files) :
    Verification.repositoryRelative f.path = true :=
  relative_read (concrete_relative (I.concrete f hf))

/-- Both texts of a file are of bounded size. -/
theorem text_size {f : Subject} (hf : f ∈ I.files) :
    f.before.toUTF8.size ≤ Verification.MAX_SOURCE_BYTES ∧
      f.after.toUTF8.size ≤ Verification.MAX_SOURCE_BYTES := by
  have hbound : MAX_BYTES ≤ Verification.MAX_SOURCE_BYTES := by decide
  have hsize := merge_size (I.merged f hf)
  exact ⟨hsize.1.trans hbound, hsize.2.trans hbound⟩

theorem reads_path {f : Subject} (hf : f ∈ I.files)
    (hfile : s[f.path]? = some f.before.toUTF8 ∨ s[f.path]? = some f.after.toUTF8) :
    Repository.Reads s (Verification.read f.path) (.ok s[f.path]?) := by
  refine reads_verification (path_read hf) fun bytes hbytes => ?_
  rcases hfile with hfile | hfile
  · rw [hfile] at hbytes
    rw [← Option.some.inj hbytes]
    exact (text_size hf).1
  · rw [hfile] at hbytes
    rw [← Option.some.inj hbytes]
    exact (text_size hf).2

variable (I) in
/-- What revalidation makes of the files it finds. -/
def judge (held : Option Held) (s : Files) : Result Unit := do
  let files ← I.files.mapM fun f => host.propose held f.delta s[f.path]?
  check (I.request = I.ctx.template host (I.ctx.proposal files))
    "patch integration proposal or authority changed"
  check (I.ctx.proposal files = proposalOf I.invocation)
    "invocation is stale or differs from the exact returned action"

theorem mapM_deltas {f : FileDelta → StoreM FileChange} {g : Subject → Result FileChange}
    {files : List Subject} (h : ∀ a ∈ files, Repository.Reads s (f a.delta) (g a)) :
    Repository.Reads s ((files.map Subject.delta).mapM f) (files.mapM g) := by
  rw [List.mapM_map]
  exact reads_mapM h

theorem reads_judge {held : Option Held}
    (hretained : Repository.Reads s (host.retained I.effect.requested I.source) (.ok held))
    (hfile : ∀ f ∈ I.files, s[f.path]? = some f.before.toUTF8 ∨ s[f.path]? = some f.after.toUTF8) :
    Repository.Reads s I.revalidate (I.judge held s) := by
  have hchange : ∀ f ∈ I.files,
      Repository.Reads s (host.change held f.delta) (host.propose held f.delta s[f.path]?) := fun f hf =>
    reads_bind (reads_path hf (hfile f hf)) reads_lift
  have hview : Repository.Reads s (host.view I.ctx I.effect.requested (requestsOf I.invocation)) (do
      let files ← I.files.mapM fun f => host.propose held f.delta s[f.path]?
      check (I.request = I.ctx.template host (I.ctx.proposal files))
        "patch integration proposal or authority changed"
      pure (I.ctx.proposal files)) := by
    unfold Host.view
    refine reads_step (okOr_eq_ok.mpr I.requested) ?_
    rw [request_source]
    refine reads_bind hretained ?_
    rw [I.deltas]
    refine reads_bind_result (mapM_deltas hchange) fun files _ => ?_
    exact reads_bind_result reads_lift fun _ _ => reads_pure
  have hbind := reads_bind_result hview fun proposal _ => reads_lift (r :=
    check (proposal = proposalOf I.invocation)
      "invocation is stale or differs from the exact returned action")
  simp only [bind_assoc, pure_bind] at hbind
  exact hbind

/-- Revalidation accepts exactly the files' own changes. -/
theorem judge_ok {held : Option Held}
    (hpropose : ∀ f ∈ I.files, ∀ change, host.propose held f.delta s[f.path]? = .ok change →
      change = f.change) :
    I.judge held s = .ok () ↔
      ∀ f ∈ I.files, host.propose held f.delta s[f.path]? = .ok f.change := by
  simp only [judge, Except.bind_eq_ok_iff, check_eq_ok]
  constructor
  · rintro ⟨changes, hchanges, -⟩ f hf
    obtain ⟨change, -, hchange⟩ := mapM_ok_mem hchanges f hf
    rw [← hpropose f hf change hchange]
    exact hchange
  · intro h
    have hchanges : (I.files.mapM fun f => host.propose held f.delta s[f.path]?) =
        .ok (I.files.map Subject.change) := by
      refine mapM_eq_ok.mpr ?_
      rw [List.forall₂_map_right_iff, List.forall₂_same]
      exact h
    refine ⟨_, hchanges, (), ?_, ?_⟩
    · rw [← I.proposed]
      exact I.template
    · exact I.proposed.symm

/-- Before the carrier is there, every file is at its first text. -/
theorem reads_revalidate_first (hnone : s[I.marker]? = none)
    (hbefore : ∀ f ∈ I.files, s[f.path]? = some f.before.toUTF8) :
    Repository.Reads s I.revalidate (.ok ()) := by
  have hpropose : ∀ f ∈ I.files, host.propose none f.delta s[f.path]? = .ok f.change := by
    intro f hf
    simp only [Host.propose, hbefore f hf, Except.bind_eq_ok_iff, okOr_eq_ok]
    exact ⟨_, rfl, _, fromUTF8_toUTF8 _, _, I.merged f hf, rfl⟩
  have hjudge : I.judge none s = .ok () := by
    refine (judge_ok fun f hf change hchange => ?_).mpr hpropose
    rw [hpropose f hf] at hchange
    exact (Except.ok.inj hchange).symm
  rw [← hjudge]
  exact reads_judge (reads_retained_none hnone) fun f hf => Or.inl (hbefore f hf)

variable (I) in
/-- The files that are at their merged text merge to it again. -/
def Again (s : Files) : Prop := ∀ f ∈ I.files, s[f.path]? = some f.after.toUTF8 →
  host.merge f.base f.worker f.after = .ok f.after

theorem propose_text {held : Held} {f : Subject} (hf : f ∈ I.files)
    (hheld : held.invocation = I.invocation) {text : String} {change : FileChange} :
    host.propose (some held) f.delta (some text.toUTF8) = .ok change ↔
      host.merge f.base f.worker text = .ok f.after ∧ (f.before = text ∨ f.after = text) ∧
        (held.custody.committed.isSome = true → f.after = text) ∧ change = f.change := by
  have hfind : (filesOf held.invocation).find? (·.field "path" = .string f.delta.path) =
      some f.change.toValue := by
    rw [hheld]
    exact find_change hf
  simp only [Host.propose, hfind, Except.bind_eq_ok_iff, okOr_eq_ok, check_eq_ok,
    Except.pure_eq_ok_iff]
  constructor
  · rintro ⟨bytes, hbytes, current, htext, after, hmerge, retained, hretained, _,
      ⟨hafter, hcurrent, hcommitted⟩, before, hbefore, rfl⟩
    cases hbytes
    cases hretained
    obtain rfl : f.after = after := Value.string.inj hafter
    obtain rfl : f.before = before := Option.some.inj hbefore
    rw [fromUTF8_toUTF8, Option.some.injEq] at htext
    rw [← htext] at hmerge hcurrent hcommitted
    exact ⟨hmerge, hcurrent.imp Value.string.inj Value.string.inj,
      fun h => Value.string.inj (hcommitted h), rfl⟩
  · rintro ⟨hmerge, hcurrent, hcommitted, rfl⟩
    refine ⟨_, rfl, text, fromUTF8_toUTF8 _, _, hmerge, _, rfl, (), ⟨rfl, ?_, fun h => ?_⟩, _, rfl, rfl⟩
    · exact hcurrent.imp (congrArg _) (congrArg _)
    · exact congrArg Value.string (hcommitted h)

/-- What the view proposes for a file, from the carrier. -/
theorem propose_held {held : Held} {f : Subject} (hf : f ∈ I.files) (h : I.Inv s)
    (hheld : held = I.carrier ∨ held = I.settled ∧ I.effect.Committed I.outcome s) :
    (∀ change, host.propose (some held) f.delta s[f.path]? = .ok change → change = f.change) ∧
      (host.propose (some held) f.delta s[f.path]? = .ok f.change ↔
        (s[f.path]? = some f.after.toUTF8 → host.merge f.base f.worker f.after = .ok f.after)) := by
  have hinvocation : held.invocation = I.invocation := by
    rcases hheld with rfl | ⟨rfl, -⟩
    · rfl
    · rfl
  rcases h.file f hf with hbefore | hafter
  · rw [hbefore]
    refine ⟨fun change hchange => ((propose_text hf hinvocation).mp hchange).2.2.2, ?_⟩
    rw [propose_text hf hinvocation]
    constructor
    · rintro ⟨hmerge, -, -, -⟩ hsame
      obtain hsame : f.before = f.after := toUTF8_inj (Option.some.inj hsame)
      rw [hsame] at hmerge
      exact hmerge
    · intro hagain
      refine ⟨I.merged f hf, Or.inl rfl, fun hcommitted => ?_, rfl⟩
      rcases hheld with rfl | ⟨rfl, hcommit⟩
      · cases hcommitted
      · have hafter := (h.committed hcommit).1 f hf
        rw [hbefore] at hafter
        exact (toUTF8_inj (Option.some.inj hafter)).symm
  · rw [hafter]
    refine ⟨fun change hchange => ((propose_text hf hinvocation).mp hchange).2.2.2, ?_⟩
    rw [propose_text hf hinvocation]
    constructor
    · rintro ⟨hmerge, -, -, -⟩ -
      exact hmerge
    · intro hagain
      exact ⟨hagain rfl, Or.inr rfl, fun _ => rfl, rfl⟩

/-- From the carrier on, revalidation accepts the files that merge to themselves again. -/
theorem reads_revalidate (hfits : I.Fits) (h : I.Inv s) :
    ∃ r, Repository.Reads s I.revalidate r ∧ (r = .ok () ↔ I.Again s) := by
  have hjudge : ∀ held, (held = I.carrier ∨ held = I.settled ∧ I.effect.Committed I.outcome s) →
      (I.judge (some held) s = .ok () ↔ I.Again s) := by
    intro held hheld
    rw [judge_ok fun f hf => (propose_held hf h hheld).1]
    exact forall₂_congr fun f hf => (propose_held hf h hheld).2
  obtain ⟨hopen, hsettled⟩ := reads_retained hfits h
  rcases h.opened with hnone | hcommitted
  · exact ⟨_, reads_judge (hopen hnone) h.file, hjudge _ (Or.inl rfl)⟩
  · exact ⟨_, reads_judge (hsettled hcommitted) h.file, hjudge _ (Or.inr ⟨rfl, hcommitted⟩)⟩

/-- What follows a revalidation. -/
theorem revalidate_guards (hfits : I.Fits) (h : I.Inv s) {α : Type} {next : Unit → StoreM α}
    {Q : Result α → Files → Prop} (hok : I.Again s → Guards exec 0 I.Inv (next ()) Q s)
    (herror : ∀ e, ¬ I.Stable → Q (.error e) s) :
    Guards exec 0 I.Inv (I.revalidate >>= next) Q s := by
  obtain ⟨r, hread, hiff⟩ := reads_revalidate hfits h
  refine reads_bind_guards hread h (fun _ hr => hok (hiff.mp hr)) fun e hr => herror e ?_
  intro hstable
  have hagain := hiff.mpr fun f hf _ => hstable f hf
  rw [hr] at hagain
  cases hagain

end Integration

end AgenticCore.NativePatch
