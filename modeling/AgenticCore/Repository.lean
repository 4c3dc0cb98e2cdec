import AgenticCore.AttemptStore
import AgenticCore.Footprint

/-!
# The files of a repository, as its native effects change them

Effects run under an exclusive lock: each is a program of atomic steps on the regular files, which
a crash can cut off after any of them.

* `exec`     : the steps.
* `evidence` : an operation of the effect store, on the repository that holds the store.
* `source`   : the bounded reader of texts.
* `Reads`    : a program that changes nothing, with its result.
-/

set_option autoImplicit false

namespace AgenticCore.Repository

open Json Text Interleaving

/-- The regular files and their bytes. -/
abbrev Files := BTreeMap String ByteArray

inductive Op where
  | read (path : String)
  /-- All files at once. -/
  | files
  /-- A new file with its whole content. -/
  | create (path : String) (bytes : ByteArray)
  | rename (source target : String)
  | hardLink (source target : String)
  | remove (path : String)

abbrev Answer : Op → Type
  | .read _ => Option ByteArray
  | .files => Files
  | .create _ _ => Bool
  | .rename _ _ => Bool
  | .hardLink _ _ => Bool
  | .remove _ => Bool

def exec : Exec Files Op Answer
  | _, files, .read path => (files, files[path]?)
  | _, files, .files => (files, files)
  | _, files, .create path bytes =>
    if path ∈ files then (files, false) else (files.insert path bytes, true)
  | _, files, .rename source target =>
    match files[source]? with
    | some bytes => ((files.erase source).insert target bytes, true)
    | none => (files, false)
  | _, files, .hardLink source target =>
    match files[source]? with
    | some bytes => if target ∈ files then (files, false) else (files.insert target bytes, true)
    | none => (files, false)
  | _, files, .remove path => if path ∈ files then (files.erase path, true) else (files, false)

abbrev StoreM (α : Type) := Prog Answer CoreError α

/-- An operation of the effect store. -/
def evidence {α : Type} : AttemptStore.StoreM α → StoreM α
  | .done r => .done r
  | .act (.read path) next => .act (.read path) fun found => evidence (next found)
  | .act (.present path) next => .act (.read path) fun found => evidence (next found.isSome)
  | .act (.create path bytes) next => .act (.create path bytes) fun created => evidence (next created)

def MAX_SOURCE_BYTES : Nat := 262144

/-- The bounded reader of texts: no file, or UTF-8 of bounded size. -/
def admitted (found : Option ByteArray) : Result (Option ByteArray) :=
  match found with
  | none => .ok none
  | some bytes => do
    check (bytes.size ≤ MAX_SOURCE_BYTES) "decision source exceeds bounded read"
    check ((String.fromUTF8? bytes).isSome = true) "invalid utf-8"
    pure (some bytes)

/-- `native_planning::read`. -/
def source (path : String) : StoreM (Option ByteArray) := do
  let found ← Prog.step (Op.read path)
  admitted found

namespace Verification

def MAX_SOURCE_BYTES : Nat := 1048576

/-- The path checks of `native_verification::read`; its link checks belong to the file system. -/
def repositoryRelative (path : String) : Bool :=
  path != "" && path.toList.all (· ≠ '\\') &&
    (split '/' path).all fun part => part ∉ ["", ".", ".."] && part.toList.all (· ≠ ':')

/-- `native_verification::read`. -/
def read (path : String) : StoreM (Option ByteArray) := do
  check (repositoryRelative path = true) "source path is not repository-relative"
  let found ← Prog.step (Op.read path)
  check (∀ bytes ∈ found, bytes.size ≤ MAX_SOURCE_BYTES) "Verification source exceeds bounded read"
  pure found

end Verification

/-- `create_new`, `write_all` and `sync_all`. -/
def createNew (path : String) (bytes : ByteArray) : StoreM Unit := do
  let created ← Prog.step (Op.create path bytes)
  check (created = true) "File exists"

def rename (old new : String) : StoreM Unit := do
  let moved ← Prog.step (Op.rename old new)
  check (moved = true) "No such file or directory"

def removeFile (path : String) : StoreM Unit := do
  let removed ← Prog.step (Op.remove path)
  check (removed = true) "No such file or directory"

/-- The lock file, created when it is not there. Nobody else holds the lock. -/
def openLock (path message : String) : StoreM Unit := do
  let found ← Prog.step (Op.read path)
  match found with
  | some bytes => check (bytes.size = 0) message
  | none => do
    let _ ← Prog.step (Op.create path .empty)
    pure ()

/-! ## Programs that change nothing -/

theorem check_pos {cond : Prop} [Decidable cond] {message : String} (h : cond) :
    check cond message = .ok () := check_eq_ok.mpr h

def Op.Keeps : Op → Prop
  | .read _ | .files => True
  | .create _ _ | .rename _ _ | .hardLink _ _ | .remove _ => False

theorem exec_keeps (o : Op) (h : o.Keeps) (files : Files) : (exec 0 files o).1 = files := by
  cases o with
  | read path => rfl
  | files => rfl
  | create path bytes => cases h
  | rename source target => cases h
  | hardLink source target => cases h
  | remove path => cases h

variable {α β : Type} {files : Files} {I : Files → Prop}

/-- The program changes nothing and returns the result. -/
def Reads (files : Files) (p : StoreM α) (r : Result α) : Prop :=
  Guards exec 0 (fun s => s = files) p (fun r' s => r' = r ∧ s = files) files

theorem reads_within {p : StoreM α} (h : Within Op.Keeps p) :
    Reads files p (p.alone exec 0 files).1 :=
  guards_within (fun o ho s => exec_keeps o ho s) h

theorem reads_guards {p : StoreM α} {r : Result α} (h : Reads files p r) (hI : I files)
    {Q : Result α → Files → Prop} (hQ : Q r files) : Guards exec 0 I p Q files := by
  refine Guards.mono (fun s hs => ?_) (fun r' s _ hr => ?_) h
  · rw [hs]
    exact hI
  · rw [hr.1, hr.2]
    exact hQ

theorem reads_bind_guards {p : StoreM α} {r : Result α} (h : Reads files p r) (hI : I files)
    {f : α → StoreM β} {Q : Result β → Files → Prop}
    (hok : ∀ a, r = .ok a → Guards exec 0 I (f a) Q files)
    (herror : ∀ e, r = .error e → Q (.error e) files) : Guards exec 0 I (p >>= f) Q files := by
  refine guards_bind (reads_guards h hI ?_)
  cases r with
  | ok a => exact hok a rfl
  | error e => exact herror e rfl

/-- A read that is known to succeed. -/
theorem reads_ok_guards {p : StoreM α} {a : α} (h : Reads files p (.ok a)) (hI : I files)
    {f : α → StoreM β} {Q : Result β → Files → Prop} (hf : Guards exec 0 I (f a) Q files) :
    Guards exec 0 I (p >>= f) Q files := by
  refine reads_bind_guards h hI (fun a' ha => ?_) fun e he => ?_
  · rw [← Except.ok.inj ha]
    exact hf
  · cases he

/-- A computation that succeeds, before steps that change something. -/
theorem step_guards {r : Result α} {a : α} (h : r = .ok a) (hI : I files) {f : α → StoreM β}
    {Q : Result β → Files → Prop} (hf : Guards exec 0 I (f a) Q files) :
    Guards exec 0 I ((liftM r : StoreM α) >>= f) Q files := by
  rw [h]
  exact guards_ofExcept_bind hI (fun a' ha => Except.ok.inj ha ▸ hf) fun e he => by cases he

theorem reads_bind {p : StoreM α} {a : α} (h : Reads files p (.ok a)) {f : α → StoreM β}
    {r : Result β} (hf : Reads files (f a) r) : Reads files (p >>= f) r := by
  unfold Reads at hf ⊢
  exact reads_ok_guards (I := fun s => s = files) h rfl hf

theorem reads_bind_error {p : StoreM α} {e : CoreError} (h : Reads files p (.error e))
    {f : α → StoreM β} : Reads files (p >>= f) (.error e) := by
  unfold Reads
  refine reads_bind_guards (I := fun s => s = files) h rfl (fun a ha => ?_) fun e' he => ?_
  · cases ha
  · rw [← Except.error.inj he]
    exact ⟨rfl, rfl⟩

theorem reads_pure {a : α} : Reads files (pure a : StoreM α) (.ok a) :=
  guards_pure rfl ⟨rfl, rfl⟩

theorem reads_lift {r : Result α} : Reads files (liftM r : StoreM α) r :=
  guards_ofExcept rfl ⟨rfl, rfl⟩

theorem reads_done {r : Result α} {a : α} (h : r = .ok a) :
    Reads files (liftM r : StoreM α) (.ok a) := by
  rw [h]
  exact reads_lift

/-- A computation that succeeds, and what follows. -/
theorem reads_step {r : Result α} {a : α} (h : r = .ok a) {f : α → StoreM β} {r' : Result β}
    (hf : Reads files (f a) r') : Reads files ((liftM r : StoreM α) >>= f) r' :=
  reads_bind (reads_done h) hf

theorem reads_read {path : String} :
    Reads files (Prog.step (Op.read path) : StoreM _) (.ok files[path]?) :=
  guards_step rfl rfl ⟨rfl, rfl⟩

theorem reads_files : Reads files (Prog.step Op.files : StoreM _) (.ok files) :=
  guards_step rfl rfl ⟨rfl, rfl⟩

theorem Reads.alone {p : StoreM α} {r : Result α} (h : Reads files p r) :
    p.alone exec 0 files = (r, files) :=
  Prod.ext (alone_of_guards h).1 (alone_of_guards h).2

theorem admitted_ok {found bytes : Option ByteArray} (h : admitted found = .ok bytes) :
    bytes = found := by
  cases found with
  | none => exact (Except.ok.inj h).symm
  | some content =>
    simp only [admitted, Except.bind_eq_ok_iff, Except.pure_eq_ok_iff] at h
    obtain ⟨_, -, _, -, rfl⟩ := h
    rfl

theorem reads_source {path : String} :
    Reads files (source path) (admitted files[path]?) :=
  reads_bind reads_read reads_lift

theorem reads_verification {path : String} (hpath : Verification.repositoryRelative path = true)
    (hsize : ∀ bytes ∈ files[path]?, bytes.size ≤ Verification.MAX_SOURCE_BYTES) :
    Reads files (Verification.read path) (.ok files[path]?) := by
  refine reads_step (check_pos hpath) (reads_bind reads_read ?_)
  exact reads_step (check_pos hsize) reads_pure

/-- A read whose result is known step by step. -/
theorem reads_bind_result {p : StoreM α} {r : Result α} (h : Reads files p r) {f : α → StoreM β}
    {g : α → Result β} (hf : ∀ a, r = .ok a → Reads files (f a) (g a)) :
    Reads files (p >>= f) (r >>= g) := by
  cases r with
  | error e => exact reads_bind_error h
  | ok a => exact reads_bind h (hf a rfl)

/-- Element by element. -/
theorem reads_mapM {f : α → StoreM β} {g : α → Result β} :
    ∀ {l : List α}, (∀ a ∈ l, Reads files (f a) (g a)) → Reads files (l.mapM f) (l.mapM g)
  | [], _ => reads_pure
  | a :: l, h => by
    rw [List.mapM_cons, List.mapM_cons]
    refine reads_bind_result (h a List.mem_cons_self) fun b _ => ?_
    exact reads_bind_result (reads_mapM fun b hb => h b (List.mem_cons_of_mem _ hb)) fun _ _ =>
      reads_pure

theorem fromUTF8_toUTF8 (text : String) : String.fromUTF8? text.toUTF8 = some text := by
  have hvalid : text.toUTF8.IsValidUTF8 := text.isValidUTF8
  rw [String.fromUTF8?, dif_pos hvalid]
  rfl

theorem toUTF8_inj {text other : String} (h : text.toUTF8 = other.toUTF8) : text = other := by
  have hread := fromUTF8_toUTF8 text
  rw [h, fromUTF8_toUTF8] at hread
  exact (Option.some.inj hread).symm

/-! ## Looking up after a change -/

theorem getElem?_insert_of_ne {path other : String} {bytes : ByteArray} (h : other ≠ path) :
    (files.insert path bytes)[other]? = files[other]? := by
  rw [Std.ExtTreeMap.getElem?_insert, if_neg (by simpa using h.symm)]

theorem getElem?_erase_of_ne {path other : String} (h : other ≠ path) :
    (files.erase path)[other]? = files[other]? := by
  rw [Std.ExtTreeMap.getElem?_erase, if_neg (by simpa using h.symm)]

/-! ## Steps that change something -/

theorem createNew_guards {path : String} {bytes : ByteArray} {Q : Result Unit → Files → Prop}
    (hnone : files[path]? = none) (hI : I files) (hI' : I (files.insert path bytes))
    (hQ : Q (.ok ()) (files.insert path bytes)) :
    Guards exec 0 I (createNew path bytes) Q files := by
  have habsent : path ∉ files := by
    rw [Std.ExtTreeMap.mem_iff_isSome_getElem?, hnone]
    simp
  refine guards_step_bind hI ?_
  simp only [exec, if_neg habsent]
  exact guards_ofExcept hI' hQ

theorem createNew_refused {path : String} {bytes : ByteArray} {Q : Result Unit → Files → Prop}
    (hsome : path ∈ files) (hI : I files) (hQ : Q (.error ⟨"File exists"⟩) files) :
    Guards exec 0 I (createNew path bytes) Q files := by
  refine guards_step_bind hI ?_
  simp only [exec, if_pos hsome]
  exact guards_ofExcept hI hQ

theorem rename_guards {old new : String} {bytes : ByteArray} {Q : Result Unit → Files → Prop}
    (hsome : files[old]? = some bytes) (hI : I files)
    (hI' : I ((files.erase old).insert new bytes))
    (hQ : Q (.ok ()) ((files.erase old).insert new bytes)) :
    Guards exec 0 I (rename old new) Q files := by
  refine guards_step_bind hI ?_
  simp only [exec, hsome]
  exact guards_ofExcept hI' hQ

theorem removeFile_guards {path : String} {Q : Result Unit → Files → Prop}
    (hsome : path ∈ files) (hI : I files) (hI' : I (files.erase path))
    (hQ : Q (.ok ()) (files.erase path)) : Guards exec 0 I (removeFile path) Q files := by
  refine guards_step_bind hI ?_
  simp only [exec, if_pos hsome]
  exact guards_ofExcept hI' hQ

theorem openLock_guards {path message : String} {Q : Result Unit → Files → Prop}
    (hlock : files[path]? = none ∨ files[path]? = some .empty) (hI : I files)
    (hI' : I (files.insert path .empty)) (hQ : ∀ s, s[path]? = some .empty →
      (∀ p, p ≠ path → s[p]? = files[p]?) → I s → Q (.ok ()) s) :
    Guards exec 0 I (openLock path message) Q files := by
  refine guards_step_bind hI ?_
  simp only [exec]
  rcases hlock with hnone | hsome
  · have habsent : path ∉ files := by
      rw [Std.ExtTreeMap.mem_iff_isSome_getElem?, hnone]
      simp
    rw [hnone]
    refine guards_step_bind hI ?_
    simp only [exec, if_neg habsent]
    refine guards_pure hI' (hQ _ Std.ExtTreeMap.getElem?_insert_self (fun p hp => ?_) hI')
    rw [Std.ExtTreeMap.getElem?_insert, if_neg (by simpa using Ne.symm hp)]
  · rw [hsome]
    exact guards_ofExcept hI (hQ _ hsome (fun _ _ => rfl) hI)

/-! ## Programs that leave a file as it is -/

def Op.Adds : Op → Prop
  | .read _ | .files | .create _ _ => True
  | .rename _ _ | .hardLink _ _ | .remove _ => False

theorem evidence_adds : ∀ p : AttemptStore.StoreM α, Within Op.Adds (evidence p)
  | .done _ => within_done
  | .act (.read _) next => within_act.mpr ⟨trivial, fun found => evidence_adds (next found)⟩
  | .act (.present _) next =>
    within_act.mpr ⟨trivial, fun found => evidence_adds (next found.isSome)⟩
  | .act (.create _ _) next =>
    within_act.mpr ⟨trivial, fun created => evidence_adds (next created)⟩

theorem verification_adds {path : String} : Within Op.Adds (Verification.read path) :=
  within_bind within_lift fun _ => within_bind (within_step trivial) fun _ =>
    within_bind within_lift fun _ => within_pure

/-- Wherever the program is cut off, a file with these bytes keeps them. -/
def Preserves (path : String) (bytes : ByteArray) (p : StoreM α) : Prop :=
  ∀ s : Files, s[path]? = some bytes →
    Guards exec 0 (fun s' => s'[path]? = some bytes) p (fun _ s' => s'[path]? = some bytes) s

variable {path : String} {bytes : ByteArray}

theorem preserves_bind {p : StoreM α} {f : α → StoreM β} (hp : Preserves path bytes p)
    (hf : ∀ a, Preserves path bytes (f a)) : Preserves path bytes (p >>= f) := by
  intro s hs
  refine guards_bind ((hp s hs).mono (fun _ h => h) fun r s' _ hs' => ?_)
  cases r with
  | ok a => exact hf a s' hs'
  | error e => exact hs'

theorem Preserves.stops {p : StoreM α} (h : Preserves path bytes p) {s s' : Files}
    (hs : s[path]? = some bytes) (hstops : Stops exec 0 p s s') : s'[path]? = some bytes :=
  stops_of_guards (I := fun s' => s'[path]? = some bytes) (h s hs) hstops

/-- Adding files changes none that is there. -/
theorem preserves_adds : ∀ {p : StoreM α}, Within Op.Adds p → Preserves path bytes p
  | .done _, _, s, hs => guards_ofExcept hs hs
  | .act o next, hwithin, s, hs => by
    have h := within_act.mp hwithin
    have hkeep : (exec 0 s o).1[path]? = some bytes := by
      cases o with
      | read other => exact hs
      | files => exact hs
      | create other content =>
        simp only [exec]
        split
        · exact hs
        · rename_i hother
          refine (getElem?_insert_of_ne ?_).trans hs
          rintro rfl
          refine hother (Std.ExtTreeMap.mem_iff_isSome_getElem?.mpr ?_)
          rw [hs]
          rfl
      | rename old new => exact absurd h.1 id
      | hardLink old new => exact absurd h.1 id
      | remove other => exact absurd h.1 id
    exact guards_step_bind (f := next) hs (preserves_adds (h.2 _) _ hkeep)

theorem preserves_step {r : Result α} {f : α → StoreM β}
    (hf : ∀ a, r = .ok a → Preserves path bytes (f a)) :
    Preserves path bytes ((liftM r : StoreM α) >>= f) := fun _ hs =>
  guards_ofExcept_bind hs (fun a ha => hf a ha _ hs) fun _ _ => hs

theorem preserves_forM {f : α → StoreM Unit} :
    ∀ {l : List α}, (∀ a ∈ l, Preserves path bytes (f a)) → Preserves path bytes (l.forM f)
  | [], _ => preserves_adds within_pure
  | a :: l, h => by
    show Preserves path bytes (f a >>= fun _ => l.forM f)
    exact preserves_bind (h a List.mem_cons_self) fun _ =>
      preserves_forM fun b hb => h b (List.mem_cons_of_mem _ hb)

theorem preserves_rename {old new : String} (hold : path ≠ old) (hnew : path ≠ new) :
    Preserves path bytes (rename old new) := by
  intro s hs
  refine guards_step_bind hs ?_
  cases hfound : s[old]? with
  | none =>
    simp only [exec, hfound]
    exact guards_ofExcept hs hs
  | some content =>
    simp only [exec, hfound]
    have hkeep : ((s.erase old).insert new content)[path]? = some bytes :=
      ((getElem?_insert_of_ne hnew).trans (getElem?_erase_of_ne hold)).trans hs
    exact guards_ofExcept hkeep hkeep

theorem createNew_adds {other : String} {content : ByteArray} :
    Within Op.Adds (createNew other content) :=
  within_bind (within_step trivial) fun _ => within_lift

theorem openLock_adds {other message : String} : Within Op.Adds (openLock other message) := by
  refine within_bind (within_step trivial) fun found => ?_
  cases found with
  | none => exact within_bind (within_step trivial) fun _ => within_pure
  | some content => exact within_lift

/-- A check that the file, as it is read, does not pass. -/
theorem preserves_refused {f : StoreM α} {expected : ByteArray} {message : String}
    (hne : bytes ≠ expected) : Preserves path bytes (do
      let found ← Verification.read path
      check (found = some expected) message
      f) := by
  intro s hs
  refine guards_bind ?_
  refine guards_ofExcept_bind hs (fun _ _ => ?_) fun _ _ => hs
  refine guards_step_bind hs ?_
  refine guards_ofExcept_bind hs (fun _ _ => ?_) fun _ _ => hs
  refine guards_pure hs ?_
  refine guards_ofExcept_bind hs (fun _ hcheck => ?_) fun _ _ => hs
  have hfound : s[path]? = some expected := check_eq_ok.mp hcheck
  rw [hs] at hfound
  exact absurd (Option.some.inj hfound) hne

end AgenticCore.Repository
