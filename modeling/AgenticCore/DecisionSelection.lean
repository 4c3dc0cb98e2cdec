import AgenticCore.DecisionSource
import AgenticCore.JsonText

/-!
# What the selection from an archive guarantees

* `loadArchive_loaded` : the selection is the closure of the matched and required records under
                         supersession, with the dependencies the adapter could observe.
* `reported_iff`       : what `project` reports as current, in terms of the archive.
* `unsuperseded_iff`   : exactly when nothing that the archive has superseded is reported as
                         current.
-/

set_option autoImplicit false

namespace AgenticCore.DecisionSource

open Json Text Continuity

/-! ## The selection -/

/-- The archive at its admitted revision; a repository that admits none has no archive. -/
def Input.admitted (input : Input) : List Blob :=
  if input.owner = "repository" ∧ input.admittedRevision = "" then [] else input.archive

/-- Matched by the request, required, or superseded by a selected record. -/
inductive Selected (input : Input) : String → Prop
  | matched {blob : Blob} : blob ∈ input.admitted → input.matchesRequest blob.body = true →
      Selected input blob.body.id
  | required {ancestor : Required} : ancestor ∈ input.required → Selected input ancestor.id
  | superseded {blob : Blob} {relation : Supersedes} : blob ∈ input.admitted →
      Selected input blob.body.id → relation ∈ blob.body.supersedes → Selected input relation.id

variable {digest : Value → String}

theorem matchesRequest_normal {input : Input} {blob : Blob} {normal : Record}
    (h : normalized digest (blob.record input.owner) = .ok normal) :
    input.matchesRequest normal = input.matchesRequest blob.body := by
  have n := normalized_ok h
  unfold Input.matchesRequest
  congr 1
  · rw [Bool.eq_iff_iff, List.any_eq_true, List.any_eq_true]
    simp only [n.mem_scope, Blob.record]
  · rw [Bool.eq_iff_iff, List.any_eq_true, List.any_eq_true]
    simp only [n.mem_routes, Blob.record]

theorem normalBlob_ok {owner : String} {blob : Blob} {entry : Record × Blob}
    (h : normalBlob digest owner blob = .ok entry) :
    entry.2 = blob ∧ normalized digest (blob.record owner) = .ok entry.1 := by
  simp only [normalBlob, Except.bind_eq_ok_iff, Except.pure_eq_ok_iff] at h
  obtain ⟨normal, hnormal, rfl⟩ := h
  exact ⟨rfl, hnormal⟩

theorem normalBlob_eq_ok {owner : String} {blob : Blob} {normal : Record} :
    normalBlob digest owner blob = .ok (normal, blob) ↔
      normalized digest (blob.record owner) = .ok normal := by
  constructor
  · exact fun h => (normalBlob_ok h).2
  · intro h
    rw [normalBlob, h]
    rfl

/-- The admitted archive by identity. -/
structure Indexed (digest : Value → String) (owner : String) (archive : List Blob)
    (available : Available) : Prop where
  holds : ∀ blob ∈ archive, ∃ normal, normalized digest (blob.record owner) = .ok normal ∧
    available[blob.body.id]? = some (normal, blob)
  origin : ∀ (id : String) (normal : Record) (blob : Blob), available[id]? = some (normal, blob) →
    blob ∈ archive ∧ blob.body.id = id ∧ normalized digest (blob.record owner) = .ok normal

theorem available_indexed {owner : String} {archive : List Blob} {entries : Available}
    (h : available digest owner archive = .ok entries) : Indexed digest owner archive entries := by
  have K := keyedBy_of_foldlM h
  refine ⟨?_, ?_⟩
  · intro blob hblob
    obtain ⟨entry, hentry, hm⟩ := K.holds blob hblob
    obtain ⟨normal, other⟩ := entry
    obtain ⟨rfl, hnormal⟩ := normalBlob_ok hentry
    rw [(normalized_ok hnormal).id] at hm
    exact ⟨normal, hnormal, hm⟩
  · intro id normal blob hm
    obtain ⟨other, hother, hentry, hid⟩ := K.origin id (normal, blob) hm
    obtain ⟨hsnd, hnormal⟩ := normalBlob_ok hentry
    obtain rfl : blob = other := hsnd
    exact ⟨hother, by rw [← hid]; exact (normalized_ok hnormal).id.symm, hnormal⟩

theorem Indexed.mem_iff {owner : String} {archive : List Blob} {entries : Available}
    (I : Indexed digest owner archive entries) {id : String} :
    id ∈ entries ↔ ∃ blob ∈ archive, blob.body.id = id := by
  rw [Std.ExtTreeMap.mem_iff_isSome_getElem?, Option.isSome_iff_exists]
  constructor
  · rintro ⟨⟨normal, blob⟩, h⟩
    obtain ⟨hblob, hid, -⟩ := I.origin id normal blob h
    exact ⟨blob, hblob, hid⟩
  · rintro ⟨blob, hblob, rfl⟩
    obtain ⟨normal, -, h⟩ := I.holds blob hblob
    exact ⟨_, h⟩

theorem Indexed.mem_priors {owner : String} {archive : List Blob} {entries : Available}
    (I : Indexed digest owner archive entries) {id prior : String} :
    prior ∈ priors entries id ↔ ∃ blob ∈ archive, blob.body.id = id ∧
      ∃ relation ∈ blob.body.supersedes, relation.id = prior := by
  have hone : ∀ blob normal, normalized digest (Blob.record owner blob) = .ok normal →
      (prior ∈ normal.supersedes.map (·.id) ↔
        ∃ relation ∈ blob.body.supersedes, relation.id = prior) := by
    intro blob normal hnormal
    rw [List.mem_map]
    constructor
    · rintro ⟨_, hmem, hid⟩
      obtain ⟨raw, hraw, rfl⟩ := (normalized_ok hnormal).mem_supersedes.mp hmem
      exact ⟨raw, hraw, hid⟩
    · rintro ⟨raw, hraw, hid⟩
      exact ⟨raw.normal, (normalized_ok hnormal).mem_supersedes.mpr ⟨raw, hraw, rfl⟩, hid⟩
  unfold priors
  constructor
  · intro h
    split at h
    · rename_i normal blob hm
      obtain ⟨hblob, hid, hnormal⟩ := I.origin id normal blob hm
      exact ⟨blob, hblob, hid, (hone blob normal hnormal).mp h⟩
    · cases h
  · rintro ⟨blob, hblob, rfl, hrel⟩
    obtain ⟨normal, hnormal, hm⟩ := I.holds blob hblob
    rw [hm]
    exact (hone blob normal hnormal).mpr hrel

theorem selectPriors_follows {entries : Available} :
    Worklist.Follows (selectPriors entries) (priors entries) := by
  intro id s s' next h
  simp only [selectPriors, Except.bind_eq_ok_iff, Except.pure_eq_ok_iff] at h
  obtain ⟨_, -, h⟩ := h
  exact (Prod.mk.inj h).2.symm

/-- The bound on the selection walk is never reached. -/
theorem selectWalk_isSome (input : Input) (entries : Available) :
    (Worklist.walk (selectPriors entries) (entries.size + 2) (input.pending entries) [] ()).isSome
    := by
  have hleaves : ∀ id, id ∈ entries.keys.toFinset ∨ Worklist.Leaves (selectPriors entries) id := by
    intro id
    by_cases hid : id ∈ entries
    · exact Or.inl (by simpa using hid)
    · refine Or.inr fun _ =>
        ⟨⟨"supersession closure is incomplete in admitted archive"⟩, ?_⟩
      rw [selectPriors, Std.ExtTreeMap.getElem?_eq_none hid]
      rfl
  refine Worklist.walk_isSome selectPriors_follows entries.keys.toFinset
    (fun _ _ y _ => hleaves y) (fun x _ => hleaves x) ?_
  have := List.toFinset_card_le entries.keys
  rw [Std.ExtTreeMap.length_keys] at this
  simp only [List.toFinset_nil, Finset.sdiff_empty]
  omega

theorem selected_ok {input : Input} {entries : Available} {ids : List String}
    (I : Indexed digest input.owner input.admitted entries)
    (h : input.selected entries = .ok ids) (id : String) :
    id ∈ ids ↔ Selected input id := by
  unfold Input.selected at h
  split at h
  · rename_i visited hwalk
    cases h
    obtain ⟨order, hvisited, V⟩ := Worklist.walk_ok selectPriors_follows hwalk
    have horder : id ∈ sortDedup visited ↔ Worklist.ReachFrom (priors entries)
        (input.pending entries) id := by
      rw [mem_sortDedup, ← V.mem_iff]
      simp only [List.append_nil] at hvisited
      rw [hvisited, List.mem_reverse]
    -- The start of the walk: matched or required records.
    have hpending : ∀ start, start ∈ input.pending entries ↔
        (∃ blob ∈ input.admitted, blob.body.id = start ∧ input.matchesRequest blob.body = true) ∨
          ∃ ancestor ∈ input.required, ancestor.id = start := by
      intro start
      simp only [Input.pending, List.mem_reverse, List.mem_append, List.mem_map, List.mem_filter]
      refine or_congr ?_ Iff.rfl
      constructor
      · rintro ⟨⟨key, normal, blob⟩, ⟨hentry, hmatch⟩, rfl⟩
        rw [Std.ExtTreeMap.mem_toList_iff_getElem?_eq_some] at hentry
        obtain ⟨hblob, hid, hnormal⟩ := I.origin _ _ _ hentry
        exact ⟨blob, hblob, hid, by rw [← matchesRequest_normal hnormal]; exact hmatch⟩
      · rintro ⟨blob, hblob, rfl, hmatch⟩
        obtain ⟨normal, hnormal, hm⟩ := I.holds blob hblob
        exact ⟨(blob.body.id, normal, blob),
          ⟨Std.ExtTreeMap.mem_toList_iff_getElem?_eq_some.mpr hm,
            by rw [matchesRequest_normal hnormal]; exact hmatch⟩, rfl⟩
    rw [horder]
    clear horder
    constructor
    · rintro ⟨start, hstart, hreach⟩
      induction hreach with
      | refl =>
        rcases (hpending start).mp hstart with ⟨blob, hblob, rfl, hmatch⟩ | ⟨ancestor, ha, rfl⟩
        · exact .matched hblob hmatch
        · exact .required ha
      | tail _ hstep ih =>
        obtain ⟨blob, hblob, rfl, relation, hrel, rfl⟩ := I.mem_priors.mp hstep
        exact .superseded hblob ih hrel
    · intro hsel
      induction hsel with
      | matched hblob hmatch =>
        exact ⟨_, (hpending _).mpr (Or.inl ⟨_, hblob, rfl, hmatch⟩), .refl⟩
      | required ha => exact ⟨_, (hpending _).mpr (Or.inr ⟨_, ha, rfl⟩), .refl⟩
      | superseded hblob _ hrel ih =>
        obtain ⟨start, hstart, hreach⟩ := ih
        exact ⟨start, hstart, hreach.tail (I.mem_priors.mpr ⟨_, hblob, rfl, _, hrel, rfl⟩)⟩
  · cases h
  · cases h

/-! ## The observed dependencies -/

/-- A row `d` the adapter may hold under `key`: an observed repository source under its path, or
    an admitted record's source under its owner and path. -/
def Row (input : Input) (key : String) (d : Reference) : Prop :=
  input.sourceHash d.reference = .ok d.revision ∧
    (d.owner = "repository" ∧ key = d.reference ∨
      d.owner = input.owner ∧ key = sourceKey input.owner d.reference)

theorem sourceHash_no_colon {input : Input} {path revision : String}
    (h : input.sourceHash path = .ok revision) : ':' ∉ path.toList := by
  simp only [Input.sourceHash, relative, Except.bind_eq_ok_iff, check_eq_ok] at h
  obtain ⟨-, ⟨-, hchars, -⟩, -⟩ := h
  intro hcolon
  have := List.all_eq_true.mp hchars ':' hcolon
  simp at this

theorem sourceKey_toList {owner path : String} :
    (sourceKey owner path).toList = owner.toList ++ ':' :: path.toList := by
  simp [sourceKey, String.toList_append]

/-- A key holds one row only. -/
theorem Row.unique {input : Input} {key : String} {d d' : Reference} (h : Row input key d)
    (h' : Row input key d') : d = d' := by
  obtain ⟨hhash, hrow⟩ := h
  obtain ⟨hhash', hrow'⟩ := h'
  have hmixed : ∀ {a b : Reference}, input.sourceHash a.reference = .ok a.revision →
      key = a.reference → key = sourceKey input.owner b.reference → False := by
    intro a b ha hka hkb
    apply sourceHash_no_colon ha
    rw [← hka, hkb, sourceKey_toList]
    simp
  have hrev : d.reference = d'.reference → d.revision = d'.revision := by
    intro href
    rw [href, hhash'] at hhash
    exact (Except.ok.inj hhash).symm
  have hmk : d.owner = d'.owner → d.reference = d'.reference → d = d' := by
    intro howner href
    cases d
    cases d'
    simp only at howner href hrev ⊢
    rw [howner, href, hrev href]
  rcases hrow with ⟨ho, hk⟩ | ⟨ho, hk⟩ <;> rcases hrow' with ⟨ho', hk'⟩ | ⟨ho', hk'⟩
  · exact hmk (ho.trans ho'.symm) (hk.symm.trans hk')
  · exact absurd hk' (fun hk' => hmixed hhash hk hk')
  · exact absurd hk (fun hk => hmixed hhash' hk' hk)
  · refine hmk (ho.trans ho'.symm) ?_
    have := congrArg String.toList (hk.symm.trans hk')
    rw [sourceKey_toList, sourceKey_toList] at this
    have := List.append_cancel_left this
    exact String.toList_injective (List.cons.inj this).2

/-- The rows of `m` are the old ones and those of `added`. -/
structure Grown (input : Input) (m m' : BTreeMap String Reference) (added : Reference → Prop) :
    Prop where
  rows : (∀ (k : String) (d : Reference), m[k]? = some d → Row input k d) →
    ∀ (k : String) (d : Reference), m'[k]? = some d → Row input k d
  mem_iff : (∀ (k : String) (d : Reference), m[k]? = some d → Row input k d) →
    ∀ d, d ∈ valuesOf m' ↔ d ∈ valuesOf m ∨ added d

theorem Grown.refl {input : Input} {m : BTreeMap String Reference} :
    Grown input m m fun _ => False :=
  ⟨fun h => h, fun _ d => by simp⟩

theorem Grown.trans {input : Input} {m mid m' : BTreeMap String Reference}
    {added added' : Reference → Prop} (h : Grown input m mid added)
    (h' : Grown input mid m' added') : Grown input m m' fun d => added d ∨ added' d :=
  ⟨fun hm => h'.rows (h.rows hm), fun hm d => by rw [h'.mem_iff (h.rows hm), h.mem_iff hm, or_assoc]⟩

theorem Grown.insert {input : Input} {m : BTreeMap String Reference} {key : String}
    {row : Reference} (hrow : Row input key row) :
    Grown input m (m.insert key row) fun d => d = row := by
  refine ⟨fun hm k d hk => ?_, fun hm d => ?_⟩
  · rw [Std.ExtTreeMap.getElem?_insert] at hk
    split at hk
    · rename_i heq
      cases hk
      rw [← Std.LawfulEqCmp.compare_eq_iff_eq.mp heq]
      exact hrow
    · exact hm k d hk
  · rw [mem_valuesOf, mem_valuesOf]
    simp only [Std.ExtTreeMap.getElem?_insert, Std.LawfulEqCmp.compare_eq_iff_eq]
    constructor
    · rintro ⟨k, hk⟩
      split at hk
      · cases hk
        exact Or.inr rfl
      · exact Or.inl ⟨k, hk⟩
    · rintro (⟨k, hk⟩ | rfl)
      · by_cases hkey : key = k
        · subst hkey
          exact ⟨key, by rw [if_pos rfl, hrow.unique (hm key d hk)]⟩
        · exact ⟨k, by rw [if_neg hkey, hk]⟩
      · exact ⟨key, by rw [if_pos rfl]⟩

theorem Grown.congr {input : Input} {m m' : BTreeMap String Reference}
    {added added' : Reference → Prop} (h : Grown input m m' added)
    (hiff : ∀ d, added d ↔ added' d) : Grown input m m' added' :=
  ⟨h.rows, fun hm d => by rw [h.mem_iff hm, hiff]⟩

/-- What the adapter observes of the dependency `d`. -/
def Observed (input : Input) (d row : Reference) : Prop :=
  d.owner = "repository" ∧ row.owner = "repository" ∧ row.reference = d.reference ∧
    input.sourceHash row.reference = .ok row.revision

theorem observe_grown {input : Input} {m : BTreeMap String Reference} {d : Reference} :
    Grown input m (input.observe m d) (Observed input d) := by
  unfold Input.observe
  split
  · rename_i howner
    exact Grown.refl.congr fun row => by simp [Observed, howner]
  rename_i howner
  rw [ne_eq, not_not] at howner
  split
  · rename_i revision hrev
    have hrow : Row input d.reference ⟨"repository", d.reference, revision⟩ :=
      ⟨hrev, Or.inl ⟨rfl, rfl⟩⟩
    refine (Grown.insert hrow).congr fun row => ?_
    constructor
    · rintro rfl
      exact ⟨howner, rfl, rfl, hrev⟩
    · rintro ⟨-, hro, href, hhash⟩
      rw [href, hrev] at hhash
      cases row
      cases hhash
      simp_all
  · rename_i e herr
    refine Grown.refl.congr fun row => ?_
    simp only [false_iff]
    rintro ⟨-, -, href, hhash⟩
    rw [href, herr] at hhash
    cases hhash

theorem observeAll_grown {input : Input} :
    ∀ {ds : List Reference} {m : BTreeMap String Reference},
      Grown input m (ds.foldl input.observe m) fun row => ∃ d ∈ ds, Observed input d row
  | [], _ => Grown.refl.congr fun row => by simp
  | d :: ds, m =>
    (Grown.trans (@observe_grown input m d) (@observeAll_grown input ds _)).congr fun row => by simp

/-! ## The loaded context -/

/-- What one selected record adds to the observed dependencies. -/
def RowOf (input : Input) (normal : Record) (blob : Blob) (row : Reference) : Prop :=
  (∃ d ∈ normal.restsOn, Observed input d row) ∨ row = blob.source input.owner

theorem selectRecord_ok {input : Input} {entries : Available} {selection next : Selection}
    {id : String} {normal : Record} {blob : Blob}
    (I : Indexed digest input.owner input.admitted entries)
    (hentry : entries[id]? = some (normal, blob))
    (h : input.selectRecord entries selection id = .ok next) :
    next.records = selection.records ++ [normal] ∧
      Grown input selection.dependencies next.dependencies (RowOf input normal blob) := by
  simp only [Input.selectRecord, hentry, Except.bind_eq_ok_iff, check_eq_ok,
    Except.pure_eq_ok_iff] at h
  obtain ⟨revision, hrev, -, rfl, rfl⟩ := h
  obtain ⟨-, -, hnormal⟩ := I.origin id normal blob hentry
  have hsource : normal.source = blob.source input.owner := (normalized_ok hnormal).source
  have hrow : Row input (sourceKey input.owner blob.path) (blob.source input.owner) :=
    ⟨hrev, Or.inr ⟨rfl, rfl⟩⟩
  refine ⟨rfl, ?_⟩
  rw [hsource]
  exact observeAll_grown.trans (Grown.insert hrow)

/-- The context `load` returns, in terms of the archive. -/
structure Loaded (digest : Value → String) (input : Input) (context : Context) : Prop where
  records : ∀ normal, normal ∈ context.records ↔ ∃ blob ∈ input.admitted,
    Selected input blob.body.id ∧ normalized digest (blob.record input.owner) = .ok normal
  normal : ∀ blob ∈ input.admitted, ∃ normal, normalized digest (blob.record input.owner) = .ok normal
  distinct : ∀ a ∈ input.admitted, ∀ b ∈ input.admitted, a.body.id = b.body.id → a = b
  current : ∀ row, row ∈ context.currentDependencies ↔ ∃ blob ∈ input.admitted,
    Selected input blob.body.id ∧
      ((∃ d ∈ blob.body.restsOn, Observed input d row) ∨ row = blob.source input.owner)
  scope : context.applicableScope = input.applicableScope

theorem loadArchive_loaded {input : Input} {context : Context} (hadmitted : input.admitted = input.archive)
    (h : loadArchive digest input = .ok context) : Loaded digest input context := by
  simp only [loadArchive, Except.bind_eq_ok_iff, Except.pure_eq_ok_iff] at h
  obtain ⟨_, -, _, -, entries, hentries, _, -, ids, hids, selection, hselection, rfl⟩ := h
  rw [← hadmitted] at hentries
  have I := available_indexed hentries
  have hmem := selected_ok I hids
  have hfold : (∀ normal, normal ∈ selection.records ↔
        ∃ id ∈ ids, ∃ blob, entries[id]? = some (normal, blob)) ∧
      Grown input ∅ selection.dependencies fun row => ∃ id ∈ ids, ∃ normal blob,
        entries[id]? = some (normal, blob) ∧ RowOf input normal blob row := by
    refine foldlM_ok_induction
      (fun done selection => (∀ normal, normal ∈ selection.records ↔
          ∃ id ∈ done, ∃ blob, entries[id]? = some (normal, blob)) ∧
        Grown input ∅ selection.dependencies fun row => ∃ id ∈ done, ∃ normal blob,
          entries[id]? = some (normal, blob) ∧ RowOf input normal blob row)
      ?_ ⟨by simp, Grown.refl.congr fun row => by simp⟩ hselection
    rintro done id selection next ⟨hrecords, hgrown⟩ hnext
    cases hentry : entries[id]? with
    | none =>
      simp only [Input.selectRecord, hentry] at hnext
      cases hnext
      refine ⟨fun normal => ?_, hgrown.congr fun row => ?_⟩
      · rw [hrecords]
        simp [or_and_right, exists_or, hentry]
      · simp [or_and_right, exists_or, hentry]
    | some entry =>
      obtain ⟨normal, blob⟩ := entry
      obtain ⟨hnew, hadds⟩ := selectRecord_ok I hentry hnext
      refine ⟨fun other => ?_, (hgrown.trans hadds).congr fun row => ?_⟩
      · rw [hnew, List.mem_append, hrecords]
        simp [or_and_right, exists_or, hentry, eq_comm]
      · simp [or_and_right, exists_or, hentry]
  obtain ⟨hrecords, hgrown⟩ := hfold
  have hblob : ∀ blob ∈ input.admitted, ∃ normal, entries[blob.body.id]? = some (normal, blob) ∧
      normalized digest (blob.record input.owner) = .ok normal := by
    intro blob hb
    obtain ⟨normal, hnormal, hm⟩ := I.holds blob hb
    exact ⟨normal, hm, hnormal⟩
  refine ⟨?_, ?_, ?_, ?_, rfl⟩
  · intro normal
    rw [hrecords]
    constructor
    · rintro ⟨id, hid, blob, hm⟩
      obtain ⟨hb, rfl, hnormal⟩ := I.origin id normal blob hm
      exact ⟨blob, hb, (hmem _).mp hid, hnormal⟩
    · rintro ⟨blob, hb, hsel, hnormal⟩
      obtain ⟨other, hm, hother⟩ := hblob blob hb
      rw [hnormal] at hother
      cases hother
      exact ⟨_, (hmem _).mpr hsel, blob, hm⟩
  · exact fun blob hb => (hblob blob hb).imp fun _ h => h.2
  · intro a ha b hb hid
    obtain ⟨n, hn, -⟩ := hblob a ha
    obtain ⟨m, hm, -⟩ := hblob b hb
    rw [hid, hm] at hn
    exact (Prod.mk.inj (Option.some.inj hn)).2.symm
  · intro row
    rw [hgrown.mem_iff (by simp)]
    have hempty : row ∉ valuesOf (∅ : BTreeMap String Reference) := by
      rw [mem_valuesOf]
      simp
    rw [or_iff_right hempty]
    constructor
    · rintro ⟨id, hid, normal, blob, hm, hrow⟩
      obtain ⟨hb, rfl, hnormal⟩ := I.origin id normal blob hm
      refine ⟨blob, hb, (hmem _).mp hid, hrow.imp_left ?_⟩
      rintro ⟨d, hd, hobs⟩
      exact ⟨d, (normalized_ok hnormal).mem_restsOn.mp hd, hobs⟩
    · rintro ⟨blob, hb, hsel, hrow⟩
      obtain ⟨normal, hm, hnormal⟩ := hblob blob hb
      refine ⟨_, (hmem _).mpr hsel, normal, blob, hm, hrow.imp_left ?_⟩
      rintro ⟨d, hd, hobs⟩
      exact ⟨d, (normalized_ok hnormal).mem_restsOn.mpr hd, hobs⟩

/-! ## Superseded decisions are not reported as current -/

/-- A dependency the adapter finds current: unchanged repository bytes, or the source of a
    selected record. -/
def DependencyCurrent (input : Input) (d : Reference) : Prop :=
  d.owner = "repository" ∧ input.sourceHash d.reference = .ok d.revision ∨
    ∃ blob ∈ input.admitted, Selected input blob.body.id ∧ d = blob.source input.owner

/-- No scope for which a record of the archive supersedes another is reported as current. -/
def Unsuperseded (input : Input) (report : Option Projection) : Prop :=
  ∀ blob ∈ input.admitted, ∀ s, Reported report blob.body.id s →
    ∀ later ∈ input.admitted, ¬ later.body.Replaces s blob.body

/-- Every scope of a record that only a route selects, and that the archive has superseded, is
    superseded by a selected record; records with stale dependencies are exempt. -/
def RouteClosed (input : Input) : Prop :=
  ∀ blob ∈ input.admitted, (∀ t ∈ blob.body.scope, t ∉ input.applicableScope) →
    routeMatches input.routes blob.body = true →
    (∀ d ∈ blob.body.restsOn, DependencyCurrent input d) →
    ∀ s ∈ blob.body.scope, ∀ later ∈ input.admitted, later.body.Replaces s blob.body →
      ∃ other ∈ input.admitted, Selected input other.body.id ∧ other.body.Replaces s blob.body

/-- A route that `project` matches is one that `load` selected by. -/
theorem routeMatches_matchesRequest {input : Input} {record : Record}
    (h : routeMatches input.routes record = true) : input.matchesRequest record = true := by
  unfold routeMatches at h
  split at h
  · cases h
  · rename_i fact hfact
    rw [Bool.and_eq_true] at h
    obtain ⟨-, h⟩ := h
    split at h
    · rename_i ids hids
      simp only [Input.matchesRequest, Input.selectedRoutes, hfact, hids, Option.getD_some]
      rw [h, Bool.or_true]
    · cases h

theorem replaces_normal {owner : String} {later prior : Blob} {n m : Record} {s : String}
    (hn : normalized digest (later.record owner) = .ok n)
    (hm : normalized digest (prior.record owner) = .ok m) :
    n.Replaces s m ↔ later.body.Replaces s prior.body := by
  unfold Record.Replaces
  rw [(normalized_ok hn).names_iff, (normalized_ok hm).id]
  rfl

/-- What is reported as current, in terms of the archive. -/
theorem reported_iff {input : Input} {context : Context} {report : Option Projection}
    (L : Loaded digest input context) (h : project digest context input.routes = .ok report)
    {blob : Blob} (hblob : blob ∈ input.admitted) {s : String} :
    Reported report blob.body.id s ↔ Selected input blob.body.id ∧
      Requested input.applicableScope input.routes blob.body s ∧
      (∀ later ∈ input.admitted, Selected input later.body.id → ¬ later.body.Replaces s blob.body) ∧
      ∀ d ∈ blob.body.restsOn, DependencyCurrent input d := by
  obtain ⟨normal, hnormal⟩ := L.normal blob hblob
  have N := normalized_ok hnormal
  have hreq : Requested input.applicableScope input.routes normal s ↔
      Requested input.applicableScope input.routes blob.body s := N.requested_iff
  have hrests : ∀ d, d ∈ normal.restsOn ↔ d ∈ blob.body.restsOn := fun d => N.mem_restsOn
  have hcurrent : Selected input blob.body.id → ((∀ d ∈ normal.restsOn, d ∈ context.currentDependencies) ↔
      ∀ d ∈ blob.body.restsOn, DependencyCurrent input d) := by
    intro hsel
    refine forall_congr' fun d => ?_
    rw [hrests]
    refine imp_congr_right fun hd => ?_
    rw [L.current]
    constructor
    · rintro ⟨other, hother, hosel, ⟨e, -, -, howner, -, hhash⟩ | rfl⟩
      · exact Or.inl ⟨howner, hhash⟩
      · exact Or.inr ⟨other, hother, hosel, rfl⟩
    · rintro (⟨howner, hhash⟩ | ⟨other, hother, hosel, rfl⟩)
      · exact ⟨blob, hblob, hsel, Or.inl ⟨d, hd, howner, howner, rfl, hhash⟩⟩
      · exact ⟨other, hother, hosel, Or.inr rfl⟩
  have hlater : (∀ later ∈ context.records, ¬ later.Replaces s normal) ↔
      ∀ later ∈ input.admitted, Selected input later.body.id → ¬ later.body.Replaces s blob.body := by
    constructor
    · intro hall later hl hsel hrep
      obtain ⟨n, hn⟩ := L.normal later hl
      exact hall n ((L.records n).mpr ⟨later, hl, hsel, hn⟩) ((replaces_normal hn hnormal).mpr hrep)
    · intro hall n hn hrep
      obtain ⟨later, hl, hsel, hnl⟩ := (L.records n).mp hn
      exact hall later hl hsel ((replaces_normal hnl hnormal).mp hrep)
  rw [project_reported_iff h, L.scope]
  constructor
  · rintro ⟨record, hrecord, hid, hrequested, hall, hdeps⟩
    obtain ⟨other, hother, hsel, hn⟩ := (L.records record).mp hrecord
    obtain rfl : other = blob := by
      refine L.distinct other hother blob hblob ?_
      rw [← hid]
      exact (normalized_ok hn).id.symm
    rw [hnormal] at hn
    cases hn
    exact ⟨hsel, hreq.mp hrequested, hlater.mp hall, (hcurrent hsel).mp hdeps⟩
  · rintro ⟨hsel, hrequested, hall, hdeps⟩
    exact ⟨normal, (L.records normal).mpr ⟨blob, hblob, hsel, hnormal⟩, N.id, hreq.mpr hrequested,
      hlater.mpr hall, (hcurrent hsel).mpr hdeps⟩

theorem unsuperseded_iff_of_loaded {input : Input} {context : Context} {report : Option Projection}
    (L : Loaded digest input context) (h : project digest context input.routes = .ok report) :
    Unsuperseded input report ↔ RouteClosed input := by
  constructor
  · intro hun blob hblob hscope hroute hdeps s hs later hlater hrep
    by_contra hnone
    push Not at hnone
    have hsel : Selected input blob.body.id :=
      .matched hblob (routeMatches_matchesRequest hroute)
    exact hun blob hblob s ((reported_iff L h hblob).mpr
      ⟨hsel, ⟨hs, Or.inr ⟨hscope, hroute⟩⟩, hnone, hdeps⟩) later hlater hrep
  · intro hclosed blob hblob s hreported later hlater hrep
    obtain ⟨-, ⟨hs, hrequested⟩, hall, hdeps⟩ := (reported_iff L h hblob).mp hreported
    rcases hrequested with happ | ⟨hscope, hroute⟩
    · -- The superseding record carries the scope, so the request matches it too.
      obtain ⟨n, hn⟩ := L.normal later hlater
      obtain ⟨relation, hmem, hid, hsr⟩ := hrep
      have hlscope : s ∈ later.body.scope := ((normalized_ok hn).within relation hmem).2 s hsr
      have hmatch : input.matchesRequest later.body = true := by
        simp only [Input.matchesRequest, Bool.or_eq_true, List.any_eq_true, decide_eq_true_eq]
        exact Or.inl ⟨s, hlscope, happ⟩
      exact hall later hlater (.matched hlater hmatch) ⟨relation, hmem, hid, hsr⟩
    · obtain ⟨other, hother, hosel, horep⟩ := hclosed blob hblob hscope hroute hdeps s hs later hlater hrep
      exact hall other hother hosel horep

/-- **No superseded decision is presented as current** exactly when every record that only a
    route selects brings its superseding records along. -/
theorem unsuperseded_iff {input : Input} {context : Context} {report : Option Projection}
    (hload : load digest input = .ok context)
    (hproject : project digest context input.routes = .ok report) :
    Unsuperseded input report ↔ RouteClosed input := by
  simp only [load, Except.bind_eq_ok_iff] at hload
  obtain ⟨_, -, hload⟩ := hload
  have hnone : input.admitted = [] → (Unsuperseded input report ↔ RouteClosed input) := by
    intro hnil
    simp [Unsuperseded, RouteClosed, hnil]
  split at hload
  · rename_i hunadmitted
    exact hnone (if_pos hunadmitted)
  · rename_i hunadmitted
    have hadmitted : input.admitted = input.archive := if_neg hunadmitted
    obtain ⟨_, -, hload⟩ := Except.bind_eq_ok_iff.mp hload
    split at hload
    · rename_i hempty
      exact hnone (hadmitted.trans hempty)
    · exact unsuperseded_iff_of_loaded (loadArchive_loaded hadmitted hload) hproject

/-- The whole archive as one context: it is admitted when every supersession target is present at
    the named revision and scope, and the relation is acyclic and non-competing. -/
def Input.archiveContext (digest : Value → String) (input : Input) : Context where
  records := input.admitted.map (Blob.record input.owner)
  admissions := input.admitted.map fun blob =>
    let revision := match normalized digest (blob.record input.owner) with
      | .ok normal => normal.materialRevision.getD ""
      | .error _ => ""
    ⟨blob.path, blob.body.id, revision, blob.source input.owner⟩
  currentDependencies := []
  applicableScope := []
  reconciliation := none

def routedRecord : Record :=
  { sampleRecord "a" [] with
    semanticRoutes := ["x/y"], authority := ⟨⟨.human, "h"⟩, [⟨"repository", "b", "1"⟩]⟩ }

/-- A digest that tells the two records of the sample apart. -/
def idDigest (v : Value) : String := (v.field "id").asStr.getD ""

/-- `b` supersedes `a`, which alone declares the selected route. -/
def routedInput : Input where
  owner := "memory"
  archivePath := "d"
  admittedRevision := "0123456789012345678901234567890123456789"
  applicableScope := []
  routes := some (.object [("routes", .array [.string "x/y"]), ("status", .string "current")])
  required := []
  archive := [⟨"a", "1", routedRecord⟩,
    ⟨"b", "1", { routedRecord with
      id := "b", semanticRoutes := [], supersedes := [⟨"a", "a", ["path:p"]⟩] }⟩]
  working := fun _ => .ok "1"
  destination := .ok ()

/-- What the request reports as current scopes of the record `id`. -/
def reportedScopes (digest : Value → String) (input : Input) (id : String) : List String :=
  match load digest input with
  | .error _ => []
  | .ok context =>
    match project digest context input.routes with
    | .ok (some p) => (p.states.filter (·.id = id)).flatMap (·.currentScope)
    | _ => []

theorem reported_of_scopes {input : Input} {id s : String}
    (h : s ∈ reportedScopes digest input id) : ∃ context report,
      load digest input = .ok context ∧ project digest context input.routes = .ok report ∧
        Reported report id s := by
  unfold reportedScopes at h
  split at h
  · cases h
  · rename_i context hload
    split at h
    · rename_i p hproject
      obtain ⟨state, hstate, hs⟩ := List.mem_flatMap.mp h
      rw [List.mem_filter, decide_eq_true_eq] at hstate
      exact ⟨context, some p, hload, hproject, p, rfl, state, hstate.1, hstate.2, hs⟩
    · cases h

set_option maxRecDepth 20000 in
/-- The whole archive is admitted, and a record it supersedes is reported as current. -/
theorem superseded_reported :
    (admitContext idDigest (routedInput.archiveContext idDigest)).isOk = true ∧
      ∃ context report, load idDigest routedInput = .ok context ∧
        project idDigest context routedInput.routes = .ok report ∧
        ¬ Unsuperseded routedInput report := by
  refine ⟨by decide, ?_⟩
  have hscopes : "path:p" ∈ reportedScopes idDigest routedInput "a" := by decide
  obtain ⟨context, report, hload, hproject, hreported⟩ := reported_of_scopes hscopes
  refine ⟨context, report, hload, hproject, fun hun => ?_⟩
  exact hun _ (by simp [Input.admitted, routedInput]; exact Or.inl rfl) "path:p" hreported _
    (by simp [Input.admitted, routedInput]; exact Or.inr rfl)
    ⟨_, List.mem_singleton_self _, rfl, by simp⟩

/-- The same archive, asked for the scope itself. -/
def scopedInput : Input := { routedInput with applicableScope := ["path:p"] }

set_option maxRecDepth 20000 in
theorem unsuperseded_iff_scoped : ∃ context report, load idDigest scopedInput = .ok context ∧
    project idDigest context scopedInput.routes = .ok report ∧ Unsuperseded scopedInput report := by
  have hscopes : "path:p" ∈ reportedScopes idDigest scopedInput "b" := by decide
  obtain ⟨context, report, hload, hproject, -⟩ := reported_of_scopes hscopes
  refine ⟨context, report, hload, hproject, (unsuperseded_iff hload hproject).mpr ?_⟩
  intro blob hblob hscope
  have hall : ∀ blob ∈ scopedInput.admitted, "path:p" ∈ blob.body.scope := by decide
  exact absurd (show "path:p" ∈ scopedInput.applicableScope by simp [scopedInput])
    (hscope "path:p" (hall blob hblob))

end AgenticCore.DecisionSource
