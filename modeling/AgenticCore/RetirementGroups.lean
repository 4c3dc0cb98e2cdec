import AgenticCore.PlanningRetention
import AgenticCore.Registry

/-!
# Retirement leaves no reference behind

* `stringValues_contained`      : a string value stands in its document's text, escaped.
* `Names`, `Refers`         : the names of a source, and who refers to it by one of them.
* `ReferenceClosed`         : a group with every source that refers to it, receipts passed through.
* `inventory_closed`        : **what is offered is offered in closed groups**.
* `inventory_mentions`      : with references read before custody is stripped it is not.
-/

set_option autoImplicit false

namespace Json

mutual
/-- The strings a document holds, the names of its members aside. -/
def Value.stringValues : Value → List String
  | .string s => [s]
  | .array items => itemStrings items
  | .object members => memberStrings members
  | .null | .bool _ | .number _ => []
def itemStrings : List Value → List String
  | [] => []
  | v :: rest => v.stringValues ++ itemStrings rest
def memberStrings : List (String × Value) → List String
  | [] => []
  | (_, v) :: rest => v.stringValues ++ memberStrings rest
end

mutual
theorem stringValues_contained (esc : Char → List Char) {s : String} :
    ∀ v : Value, s ∈ v.stringValues → s.toList.flatMap esc <:+: print esc v
  | .string t, h => by
    rw [Value.stringValues, List.mem_singleton] at h
    subst h
    exact ⟨['"'], ['"'], by simp [print, quote]⟩
  | .array items, h => by
    rw [Value.stringValues] at h
    rw [print]
    exact List.infix_cons (itemStrings_contained esc [] items h)
  | .object members, h => by
    rw [Value.stringValues] at h
    rw [print]
    exact List.infix_cons (memberStrings_contained esc [] members h)
  | .null, h | .bool _, h | .number _, h => by simp [Value.stringValues] at h
theorem itemStrings_contained (esc : Char → List Char) (sep : List Char) {s : String} :
    ∀ items : List Value, s ∈ itemStrings items →
      s.toList.flatMap esc <:+: printItems esc sep items
  | [], h => by simp [itemStrings] at h
  | v :: rest, h => by
    rw [itemStrings, List.mem_append] at h
    rw [printItems]
    rcases h with h | h
    · exact (stringValues_contained esc v h).trans
        ((List.prefix_append _ _).isInfix.trans (List.suffix_append _ _).isInfix)
    · exact (itemStrings_contained esc [','] rest h).trans
        ((List.suffix_append _ _).isInfix.trans (List.suffix_append _ _).isInfix)
theorem memberStrings_contained (esc : Char → List Char) (sep : List Char) {s : String} :
    ∀ members : List (String × Value), s ∈ memberStrings members →
      s.toList.flatMap esc <:+: printMembers esc sep members
  | [], h => by simp [memberStrings] at h
  | (k, v) :: rest, h => by
    rw [memberStrings, List.mem_append] at h
    rw [printMembers]
    rcases h with h | h
    · exact (stringValues_contained esc v h).trans ((List.prefix_append _ _).isInfix.trans
        ((List.suffix_cons _ _).isInfix.trans ((List.suffix_append _ _).isInfix.trans
          (List.suffix_append _ _).isInfix)))
    · exact (memberStrings_contained esc [','] rest h).trans ((List.suffix_append _ _).isInfix.trans
        ((List.suffix_cons _ _).isInfix.trans ((List.suffix_append _ _).isInfix.trans
          (List.suffix_append _ _).isInfix)))
end

/-- A text that stands in JSON strings as it is. -/
def Unescaped (s : String) : Prop := ∀ c ∈ s.toList, escape c = [c]

theorem Unescaped.flatMap {s : String} (h : Unescaped s) : s.toList.flatMap escape = s.toList := by
  unfold Unescaped at h
  generalize s.toList = cs at h ⊢
  induction cs with
  | nil => rfl
  | cons c cs ih =>
    rw [List.forall_mem_cons] at h
    rw [List.flatMap_cons, h.1, ih h.2]
    rfl

theorem infix_flatMap {α β : Type} {f : α → List β} {l l' : List α} (h : l <:+: l') :
    l.flatMap f <:+: l'.flatMap f := by
  obtain ⟨s, t, rfl⟩ := h
  exact ⟨s.flatMap f, t.flatMap f, by simp [List.flatMap_append]⟩

/-- A document's text shows what its string values contain. -/
theorem infix_text {v : Value} {s name : String} (hs : s ∈ v.stringValues)
    (hname : name.toList <:+: s.toList) (hplain : Unescaped name) :
    name.toList <:+: (text v).toList := by
  rw [text, String.toList_ofList, ← hplain.flatMap]
  exact (infix_flatMap hname).trans (stringValues_contained escape v hs)

end Json

namespace AgenticCore.PlanningRetention

open Json Text ClosedGroups

/-! ## Names and references -/

variable (host : Host) (o : Observed) (selected : Option SelectedOwner)

/-- `name` is one of the names of the source `r`. -/
def Names (r name : String) : Prop :=
  ∃ bytes, o.sources[r]? = some bytes ∧
    (r = STATE ∧ aggregateReady host o = true ∧ name = r ∨
      ∃ body, ¬ (r = STATE ∧ aggregateReady host o = true) ∧ host.parse bytes = some body ∧
        (isPlan host selected r bytes = true ∨ isProof r body = true) ∧
        ∃ known, names host r body = .ok known ∧ name ∈ known)

/-- Some string value of the document contains the name. -/
def Mentions (_path : String) (bytes : ByteArray) (name : String) : Prop :=
  ∃ body, host.parse bytes = some body ∧ ∃ s ∈ body.stringValues, name.toList <:+: s.toList

/-- A document as references are read from it: a receipt that is only provenance without its
    custody, its subject the one its committed publication names. -/
def citing (path : String) (body : Value) : Value :=
  if provenance host path body && body.isObject then
    let stripped := body.remove "publication_custody"
    match proofSubject host path body with
    | some subject => stripped.insert "planning_subject" (.string subject)
    | none => stripped
  else body

/-- Some string value of the document so read contains the name, which JSON writes as it is; what
    is no document is searched as it stands. -/
def Cites (path : String) (bytes : ByteArray) (name : String) : Prop :=
  (∃ body, host.parse bytes = some body ∧ Unescaped name ∧
      ∃ s ∈ (citing host path body).stringValues, name.toList <:+: s.toList) ∨
    host.parse bytes = none ∧ name.toList <:+: (host.lossy bytes).toList

/-- `q` refers to `r` by one of its names. -/
def Refers (mentions : String → ByteArray → String → Prop) (r q : String) : Prop :=
  r ≠ q ∧ q ∉ [INDEX, CARRIER] ∧ ∃ name, Names host o selected r name ∧
    ∃ bytes, o.sources[q]? = some bytes ∧ mentions q bytes name

def ProvenanceReceipt (q : String) : Prop :=
  ∃ bytes body, o.sources[q]? = some bytes ∧ host.parse bytes = some body ∧
    provenance host q body = true

/-- Terminal, not the selected owner, and no producer's outcome about it open. -/
def Eligible (p : String) : Prop :=
  ∃ bytes, o.sources[p]? = some bytes ∧
    (p = STATE ∧ aggregateReady host o = true ∨
      terminal host p bytes = true ∧
        ∃ body, host.parse bytes = some body ∧ uncertain host p body = false)

/-- Every source that refers to a member of the group is a member or a receipt passed through, whose
    own referrers are so in turn. -/
def ReferenceClosed (mentions : String → ByteArray → String → Prop) (group : List String) : Prop :=
  ∀ r ∈ group, ∀ q, Relation.ReflTransGen (Refers host o selected mentions) r q →
    q ∈ group ∨ ProvenanceReceipt host o q

/-- What an inventory offers, it offers in closed groups. -/
structure Inventory.Closed (mentions : String → ByteArray → String → Prop) (inv : Inventory) :
    Prop where
  bound : inv.sources.size ≤ LIMIT
  eligible : ∀ p ∈ inv.sources, Eligible host o p ∧ selected.map (·.ref) ≠ some p
  groups : ∀ p ∈ inv.sources, ∃ group, inv.required[p]? = some group ∧ p ∈ group ∧
    (∀ r ∈ group, r ∈ inv.sources) ∧ ReferenceClosed host o selected mentions group
  selections : ∀ args, checkSelection inv args = .ok true →
    ReferenceClosed host o selected mentions args.sources

/-- The matcher reports every occurrence of every pattern. -/
def Host.MatcherComplete : Prop :=
  ∀ patterns find, host.matcher patterns = .ok find → ∀ (content : String) (p : String), p ∈ patterns →
    p.toList <:+: content.toList → p ∈ find content

/-! ## Classified sources -/

variable {host o selected}

/-- What the loop over the sources makes of one of them. -/
structure Classified (host : Host) (o : Observed) (selected : Option SelectedOwner) (path : String)
    (bytes : ByteArray) (s : Source) : Prop where
  path_eq : s.path = path
  bytes_eq : s.bytes = bytes
  eligible : s.eligible = true → path = STATE ∧ aggregateReady host o = true ∨
    isPlan host selected path bytes = true ∧
      ∃ body, host.parse bytes = some body ∧ uncertain host path body = false
  provenance : s.provenance = true →
    ∃ body, host.parse bytes = some body ∧ provenance host path body = true
  searched : ∀ name, Cites host path bytes name → name.toList <:+: (searched host s).toList

theorem isProof_state (body : Value) : isProof STATE body = false := by
  have h : startsWith ".agentic-workspace/proof/receipts/" STATE = false := by decide
  simp [isProof, h]

theorem provenance_state (body : Value) : provenance host STATE body = false := by
  simp [provenance, isProof_state]

theorem searched_of_cites {s : Source} {path name : String} {bytes : ByteArray}
    (hbytes : s.bytes = bytes)
    (hbody : ∀ body, host.parse bytes = some body → searchedBody s body = citing host path body)
    (h : Cites host path bytes name) : name.toList <:+: (searched host s).toList := by
  unfold searched
  rw [hbytes]
  rcases h with ⟨body, hparse, hplain, t, ht, hname⟩ | ⟨hparse, hname⟩
  · rw [hparse]
    simp only [hbody body hparse]
    exact infix_text ht hname hplain
  · rw [hparse]
    exact hname

theorem classify_ok {path : String} {bytes : ByteArray} {s : Source}
    (h : classify host selected (aggregateReady host o) path bytes = .ok s) :
    Classified host o selected path bytes s := by
  unfold classify at h
  split at h
  · rename_i hstate
    obtain ⟨rfl, hready⟩ := hstate
    cases h
    refine ⟨rfl, rfl, fun _ => Or.inl ⟨rfl, hready⟩, nofun, fun name hname => ?_⟩
    refine searched_of_cites rfl (fun body _ => ?_) hname
    simp [searchedBody, citing, provenance_state]
  · split at h
    · rename_i hparse
      cases h
      refine ⟨rfl, rfl, nofun, nofun, fun name hname => ?_⟩
      refine searched_of_cites rfl (fun body hbody => ?_) hname
      rw [hparse] at hbody
      cases hbody
    · rename_i body hparse
      rw [Except.bind_eq_ok_iff] at h
      obtain ⟨known, -, hs⟩ := h
      rw [Except.pure_eq_ok_iff] at hs
      subst hs
      refine ⟨rfl, rfl, fun heligible => Or.inr ?_, fun hprovenance => ⟨body, hparse, hprovenance⟩,
        fun name hname => searched_of_cites rfl (fun body' hbody => ?_) hname⟩
      · simp only [Bool.and_eq_true, Bool.not_eq_true'] at heligible
        obtain ⟨hplan, hsure⟩ := heligible
        rw [hplan, Bool.true_and] at hsure
        exact ⟨hplan, body, hparse, hsure⟩
      · rw [hparse, Option.some.injEq] at hbody
        subst hbody
        rfl

/-- The names of a source are entered under it. -/
theorem classify_names {path name : String} {bytes : ByteArray} {s : Source}
    (h : classify host selected (aggregateReady host o) path bytes = .ok s)
    (hbytes : o.sources[path]? = some bytes) (hname : Names host o selected path name) :
    name ∈ s.names := by
  obtain ⟨bytes', hbytes', hname⟩ := hname
  obtain rfl : bytes = bytes' := Option.some.inj (hbytes.symm.trans hbytes')
  unfold classify at h
  rcases hname with ⟨hstate, hready, rfl⟩ | ⟨body, hstate, hparse, hnamed, known, hknown, hmem⟩
  · rw [if_pos ⟨hstate, hready⟩] at h
    cases h
    exact List.mem_cons_self
  · rw [if_neg hstate, hparse] at h
    simp only [Except.bind_eq_ok_iff, Except.pure_eq_ok_iff, referenceNames, Bool.or_eq_true,
      if_pos hnamed, hknown] at h
    obtain ⟨_, hsame, rfl⟩ := h
    cases hsame
    exact hmem

/-! ## The graph of references -/

section Graph

variable {sources : List Source} {found : List (Source × List String)}

/-- The sources are the observed ones, each as the loop classifies it. -/
def Lists (host : Host) (o : Observed) (selected : Option SelectedOwner) (sources : List Source) :
    Prop :=
  List.Forall₂ (fun e s => classify host selected (aggregateReady host o) e.1 e.2 = .ok s)
    o.sources.toList sources

theorem Lists.source (L : Lists host o selected sources) {q : String} {bytes : ByteArray}
    (h : o.sources[q]? = some bytes) :
    ∃ s ∈ sources, classify host selected (aggregateReady host o) q bytes = .ok s :=
  List.Forall₂.exists_right L (q, bytes) (Std.ExtTreeMap.mem_toList_iff_getElem?_eq_some.mpr h)

theorem Lists.classified (L : Lists host o selected sources) {s : Source} (hs : s ∈ sources) :
    ∃ bytes, o.sources[s.path]? = some bytes ∧ Classified host o selected s.path bytes s := by
  obtain ⟨⟨path, bytes⟩, he, hclassify⟩ := List.Forall₂.exists_left L s hs
  have C := classify_ok hclassify
  rw [C.path_eq]
  exact ⟨bytes, Std.ExtTreeMap.mem_toList_iff_getElem?_eq_some.mp he, C⟩

theorem member_iff {p : String} : (graph sources found).member p = true ↔
    ∃ s ∈ sources, s.path = p ∧ s.eligible = true := by
  simp [graph]

theorem through_iff {p : String} : (graph sources found).through p = true ↔
    ∃ s ∈ sources, s.path = p ∧ s.provenance = true := by
  simp [graph]

theorem mem_referrers {p q : String} : q ∈ (graph sources found).referrers p ↔
    ∃ e ∈ found, e.1.path = q ∧ q ≠ p ∧
      ∃ s ∈ sources, s.path = p ∧ ∃ name ∈ s.names, name ∈ e.2 := by
  simp only [graph, mem_sortDedup, List.mem_map, List.mem_filter, Bool.and_eq_true,
    decide_eq_true_eq, List.any_eq_true]
  constructor
  · rintro ⟨e, ⟨he, hne, s, hs, hpath, name, hname, hhit⟩, rfl⟩
    exact ⟨e, he, rfl, hne, s, hs, hpath, name, hname, hhit⟩
  · rintro ⟨e, he, rfl, hne, s, hs, hpath, name, hname, hhit⟩
    exact ⟨e, ⟨he, hne, s, hs, hpath, name, hname, hhit⟩, rfl⟩

/-- Only observed sources are found to refer. -/
theorem search_sources (h : search host sources = .ok found) : ∀ e ∈ found, e.1 ∈ sources := by
  unfold search at h
  simp only at h
  split at h
  · cases h
    simp
  · simp only [Except.bind_eq_ok_iff, Except.pure_eq_ok_iff] at h
    obtain ⟨find, -, rfl⟩ := h
    intro e he
    obtain ⟨s, hs, rfl⟩ := List.mem_map.mp he
    exact (List.mem_filter.mp hs).1

/-- **No reference is missed**: a source that cites a name of another is among its referrers. -/
theorem refers_referrers (hmatcher : host.MatcherComplete) (L : Lists host o selected sources)
    (h : search host sources = .ok found) {r q : String}
    (hrefers : Refers host o selected (Cites host) r q) :
    q ∈ (graph sources found).referrers r := by
  obtain ⟨hne, hsearchable, name, hname, bytes, hbytes, hcites⟩ := hrefers
  obtain ⟨rbytes, hrbytes, -⟩ := id hname
  obtain ⟨sr, hsr, hclassify⟩ := L.source hrbytes
  obtain ⟨sq, hsq, hclassify'⟩ := L.source hbytes
  have hmem := classify_names hclassify hrbytes hname
  have C := classify_ok hclassify
  have C' := classify_ok hclassify'
  have hpattern : name ∈ sortDedup (sources.flatMap (·.names)) :=
    mem_sortDedup.mpr (List.mem_flatMap.mpr ⟨sr, hsr, hmem⟩)
  unfold search at h
  simp only at h
  rw [if_neg fun hnil => by rw [hnil] at hpattern; cases hpattern] at h
  simp only [Except.bind_eq_ok_iff, Except.pure_eq_ok_iff] at h
  obtain ⟨find, hfind, rfl⟩ := h
  refine mem_referrers.mpr ⟨(sq, find (searched host sq)), ?_, C'.path_eq, Ne.symm hne, sr, hsr,
    C.path_eq, name, hmem, ?_⟩
  · refine List.mem_map.mpr ⟨sq, List.mem_filter.mpr ⟨hsq, ?_⟩, rfl⟩
    simpa [searchable, C'.path_eq] using hsearchable
  · exact hmatcher _ _ hfind _ _ hpattern (C'.searched name hcites)

/-- What refers to the members of an unblocked group, in however many steps, reaches its seed. -/
theorem reaches_of_refers (hmatcher : host.MatcherComplete) (L : Lists host o selected sources)
    (h : search host sources = .ok found) {p r q : String}
    (hclear : Clear (graph sources found) p) (hr : Reaches (graph sources found) p r)
    (hq : Relation.ReflTransGen (Refers host o selected (Cites host)) r q) :
    Reaches (graph sources found) p q := by
  induction hq with
  | refl => exact hr
  | tail _ hstep ih =>
    refine ih.tail ?_
    unfold Graph.next
    rw [if_pos (by simpa using hclear _ ih)]
    exact refers_referrers hmatcher L h hstep

theorem complete_closed (hmatcher : host.MatcherComplete) (L : Lists host o selected sources)
    (h : search host sources = .ok found) {offered group : List String} {p : String}
    (C : Complete (graph sources found) offered p group) :
    ReferenceClosed host o selected (Cites host) group := by
  intro r hr q hq
  have hreach := reaches_of_refers hmatcher L h C.clear ((C.mem_iff r).mp hr).1 hq
  rcases C.clear q hreach with hmember | hthrough
  · exact Or.inl ((C.mem_iff q).mpr ⟨hreach, hmember⟩)
  · obtain ⟨s, hs, rfl, hprovenance⟩ := through_iff.mp hthrough
    obtain ⟨bytes, hbytes, K⟩ := L.classified hs
    obtain ⟨body, hparse, hreceipt⟩ := K.provenance hprovenance
    exact Or.inr ⟨bytes, body, hbytes, hparse, hreceipt⟩

theorem seeds_member {preferred : List String} :
    ∀ p ∈ seeds sources preferred, (graph sources found).member p = true := by
  have heligible : ∀ p ∈ (sources.filter (·.eligible)).map (·.path),
      (graph sources found).member p = true := by
    intro p hp
    obtain ⟨s, hs, rfl⟩ := List.mem_map.mp hp
    exact member_iff.mpr ⟨s, (List.mem_filter.mp hs).1, rfl, (List.mem_filter.mp hs).2⟩
  intro p hp
  unfold seeds at hp
  simp only at hp
  split at hp
  · exact heligible p hp
  · exact heligible p (by simpa using (List.mem_filter.mp hp).2)

/-- The search of the groups ends. -/
theorem search_ends (h : search host sources = .ok found) (preferred : List String) :
    ∃ offer, offerAll (graph sources found) LIMIT (sources.length + 1) (seeds sources preferred) =
      some offer := by
  have hpaths : ∀ s ∈ sources, s.path ∈ (sources.map (·.path)).toFinset := fun s hs =>
    List.mem_toFinset.mpr (List.mem_map.mpr ⟨s, hs, rfl⟩)
  have hmember : ∀ p, (graph sources found).member p = true →
      p ∈ (sources.map (·.path)).toFinset := by
    intro p hp
    obtain ⟨s, hs, rfl, -⟩ := member_iff.mp hp
    exact hpaths s hs
  refine offerAll_isSome (sources.map (·.path)).toFinset
    (fun p hp => hmember p (seeds_member p hp)) hmember ?_ ?_
  · intro p _ q hq
    obtain ⟨e, he, rfl, -⟩ := mem_referrers.mp hq
    exact hpaths e.1 (search_sources h e he)
  · have hle := List.toFinset_card_le (sources.map (·.path))
    rw [List.length_map] at hle
    omega

end Graph

/-! ## The inventory -/

theorem pairwise_keys {β : Type} {l : List (String × β)} (h : (l.map Prod.fst).Nodup) :
    l.Pairwise fun a b => ¬ compare a.1 b.1 = .eq := by
  rw [List.Nodup, List.pairwise_map] at h
  exact h.imp fun hne heq => hne (Std.LawfulEqCmp.eq_of_compare heq)

theorem offered_eligible {sources : List Source} {found : List (Source × List String)}
    (L : Lists host o selected sources) {p : String}
    (hp : (graph sources found).member p = true) :
    Eligible host o p ∧ selected.map (·.ref) ≠ some p := by
  obtain ⟨s, hs, rfl, heligible⟩ := member_iff.mp hp
  obtain ⟨bytes, hbytes, K⟩ := L.classified hs
  rcases K.eligible heligible with hstate | ⟨hplan, body, hparse, hsure⟩
  · refine ⟨⟨bytes, hbytes, Or.inl hstate⟩, ?_⟩
    rw [hstate.1]
    intro hselected
    obtain ⟨owner, -, howner⟩ := Option.map_eq_some_iff.mp hselected
    have hcanonical := owner.canonical
    rw [howner] at hcanonical
    revert hcanonical
    decide
  · rw [isPlan, Bool.and_eq_true, decide_eq_true_eq] at hplan
    exact ⟨⟨bytes, hbytes, Or.inr ⟨hplan.1, body, hparse, hsure⟩⟩, hplan.2⟩

/-- What an inventory is when some candidate makes the graph needed. -/
theorem inventory_of_offer (hmatcher : host.MatcherComplete) {sources : List Source}
    {found : List (Source × List String)} {preferred : List String} {offer : Offer String}
    (L : Lists host o selected sources) (h : search host sources = .ok found)
    (hoffer : offerAll (graph sources found) LIMIT (sources.length + 1) (seeds sources preferred) =
      some offer) {inv : Inventory}
    (hsources : ∀ p, p ∈ inv.sources ↔ p ∈ offer.offered)
    (hsize : inv.sources.size ≤ offer.offered.length)
    (hrequired : inv.required = .ofList offer.required compare) :
    inv.Closed host o selected (Cites host) := by
  obtain ⟨⟨processed, O⟩, hall⟩ := offerAll_offers seeds_member hoffer
  have hgroup : ∀ p ∈ offer.offered, ∃ group, inv.required[p]? = some group ∧
      Complete (graph sources found) offer.offered p group := by
    intro p hp
    obtain ⟨⟨_, group⟩, he, rfl⟩ := hall p hp
    refine ⟨group, ?_, O.complete _ he⟩
    rw [hrequired]
    exact Std.ExtTreeMap.getElem?_ofList_of_mem (by simp) (pairwise_keys O.distinct) he
  have hmember : ∀ p ∈ offer.offered, (graph sources found).member p = true := by
    intro p hp
    obtain ⟨e, he, hpe⟩ := O.covered p hp
    exact (((O.complete e he).mem_iff p).mp hpe).2
  have hclosed : ∀ p ∈ inv.sources, ∃ group, inv.required[p]? = some group ∧ p ∈ group ∧
      (∀ r ∈ group, r ∈ inv.sources) ∧ ReferenceClosed host o selected (Cites host) group := by
    intro p hp
    obtain ⟨group, hget, C⟩ := hgroup p ((hsources p).mp hp)
    exact ⟨group, hget, (C.mem_iff p).mpr ⟨.refl, hmember p ((hsources p).mp hp)⟩,
      fun r hr => (hsources r).mpr (C.offered r hr), complete_closed hmatcher L h C⟩
  refine ⟨hsize.trans O.bound, fun p hp => ?_, hclosed, fun args hargs => ?_⟩
  · exact offered_eligible L (hmember p ((hsources p).mp hp))
  · -- an accepted selection is the union of the groups of its members
    intro r hr q hq
    unfold checkSelection at hargs
    split at hargs
    · cases hargs
    · simp only [Except.bind_eq_ok_iff, forM_eq_ok, check_eq_ok] at hargs
      obtain ⟨_, hchecked, -⟩ := hargs
      obtain ⟨_, hoffered, hcomplete⟩ := hchecked r hr
      obtain ⟨group, hget, hmem, -, hrclosed⟩ := hclosed r hoffered
      rw [hget, Option.getD_some] at hcomplete
      exact (hrclosed r hmem q hq).imp_left (hcomplete q)

theorem empty_closed {mentions : String → ByteArray → String → Prop} {inv : Inventory}
    (h : inv.sources = ∅) : inv.Closed host o selected mentions := by
  refine ⟨by simp [h], by simp [h], by simp [h], fun args hargs r hr => ?_⟩
  unfold checkSelection at hargs
  split at hargs
  · cases hargs
  · simp only [Except.bind_eq_ok_iff, forM_eq_ok, check_eq_ok] at hargs
    obtain ⟨_, hchecked, -⟩ := hargs
    obtain ⟨_, hoffered, -⟩ := hchecked r hr
    simp [h] at hoffered

theorem names_error {path : String} {body : Value} {e : CoreError}
    (h : names host path body = .error e) : host.canonical = .error e := by
  unfold names at h
  generalize (if startsWith HOME path = true then (body.field "id").asStr else none) = id at h
  cases id with
  | none => cases h
  | some id =>
    cases hcanonical : host.canonical with
    | error e' =>
      simp only [transposeM, hcanonical] at h
      cases h
      rfl
    | ok target =>
      simp only [transposeM, hcanonical] at h
      cases h

theorem classify_error {ready : Bool} {path : String} {bytes : ByteArray} {e : CoreError}
    (h : classify host selected ready path bytes = .error e) : host.canonical = .error e := by
  unfold classify at h
  split at h
  · cases h
  · split at h
    · cases h
    · rename_i body _
      cases hnames : referenceNames host selected path bytes body with
      | ok known =>
        rw [hnames] at h
        cases h
      | error e' =>
        rw [hnames] at h
        cases h
        unfold referenceNames at hnames
        split at hnames
        · exact names_error hnames
        · cases hnames

/-- An inventory fails only where the target cannot be resolved or the matcher not be built. -/
theorem inventory_error {preferred : List String} {e : CoreError}
    (h : inventoryFor host selected o preferred = .error e) :
    host.canonical = .error e ∨ ∃ patterns, host.matcher patterns = .error e := by
  unfold inventoryFor at h
  simp only at h
  split at h
  · cases h
  rw [Except.bind_eq_error_iff] at h
  rcases h with h | ⟨sources, hsources, h⟩
  · obtain ⟨⟨path, bytes⟩, -, hclassify⟩ := mapM_error h
    exact Or.inl (classify_error hclassify)
  rw [Except.bind_eq_error_iff] at h
  rcases h with h | ⟨found, hfound, h⟩
  · unfold search at h
    simp only at h
    split at h
    · cases h
    · simp only [Except.bind_eq_error_iff, Except.pure_ne_error, and_false, exists_false,
        or_false] at h
      exact Or.inr ⟨_, h⟩
  -- from here on nothing fails
  obtain ⟨offer, hoffer⟩ := search_ends hfound preferred
  obtain ⟨-, hall⟩ := offerAll_offers seeds_member hoffer
  have hcomplete : ∀ p ∈ offer.offered,
      (Std.ExtTreeMap.ofList offer.required compare).contains p = true := by
    intro p hp
    obtain ⟨entry, he, rfl⟩ := hall p hp
    rw [Std.ExtTreeMap.contains_ofList]
    exact List.elem_eq_true_of_mem (List.mem_map.mpr ⟨entry, he, rfl⟩)
  simp only [hoffer, Except.bind_eq_error_iff, okOr_eq_ok, Option.some.injEq, Except.pure_ne_error,
    and_false, exists_false, or_false, exists_eq_left'] at h
  rcases h with h | h
  · cases h
  · have hok : check _ INCOMPLETE = .ok () := check_eq_ok.mpr hcomplete
    rw [hok] at h
    cases h

/-- The sources of an inventory are the offered ones. -/
theorem mem_offered {sources : List Source} {offered : List String}
    (hobserved : ∀ p ∈ offered, ∃ s ∈ sources, s.path = p) (p : String) :
    p ∈ (Std.ExtTreeMap.ofList ((sources.filter (·.path ∈ offered)).map fun s =>
      (s.path, host.revision s.bytes)) compare : BTreeMap String String) ↔ p ∈ offered := by
  rw [Std.ExtTreeMap.mem_ofList, List.map_map, List.contains_iff_mem, List.mem_map]
  constructor
  · rintro ⟨s, hs, rfl⟩
    simpa using (List.mem_filter.mp hs).2
  · intro hp
    obtain ⟨s, hs, rfl⟩ := hobserved p hp
    exact ⟨s, List.mem_filter.mpr ⟨hs, by simpa using hp⟩, rfl⟩

theorem inventory_ok (hmatcher : host.MatcherComplete) {preferred : List String} {inv : Inventory}
    (h : inventoryFor host selected o preferred = .ok inv) :
    inv.Closed host o selected (Cites host) := by
  unfold inventoryFor at h
  simp only at h
  split at h
  · cases h
    exact empty_closed rfl
  simp only [Except.bind_eq_ok_iff, okOr_eq_ok, Except.pure_eq_ok_iff, mapM_eq_ok] at h
  obtain ⟨sources, hsources, found, hfound, offer, hoffer, _, -, rfl⟩ := h
  have L : Lists host o selected sources := hsources
  obtain ⟨⟨processed, O⟩, -⟩ := offerAll_offers seeds_member hoffer
  have hobserved : ∀ p ∈ offer.offered, ∃ s ∈ sources, s.path = p := by
    intro p hp
    obtain ⟨e, he, hpe⟩ := O.covered p hp
    obtain ⟨s, hs, hpath, -⟩ := member_iff.mp (((O.complete e he).mem_iff p).mp hpe).2
    exact ⟨s, hs, hpath⟩
  refine inventory_of_offer hmatcher L hfound hoffer ?_ ?_ rfl
  · exact mem_offered hobserved
  · rw [← Std.ExtTreeMap.length_keys]
    refine (Std.ExtTreeMap.nodup_keys.subperm fun p hp => ?_).length_le
    exact (mem_offered hobserved p).mp (Std.ExtTreeMap.mem_keys.mp hp)

/-- **Retirement leaves no reference behind**: an inventory fails only where the target cannot be
resolved or the matcher not be built, and what it offers it offers in closed groups. -/
theorem inventory_closed (hmatcher : host.MatcherComplete) (preferred : List String) :
    (∀ e, inventoryFor host selected o preferred = .error e →
      host.canonical = .error e ∨ ∃ patterns, host.matcher patterns = .error e) ∧
    ∀ inv, inventoryFor host selected o preferred = .ok inv →
      inv.Closed host o selected (Cites host) :=
  ⟨fun _ h => inventory_error h, fun _ h => inventory_ok hmatcher h⟩

/-- The steps of an inventory that is taken. -/
theorem inventoryFor_of
    {preferred : List String} {sources : List Source} {found : List (Source × List String)}
    {offer : ClosedGroups.Offer String}
    (hplan : (o.planning.toList.any fun (path, bytes) => isPlan host selected path bytes) = true)
    (hsources : (o.sources.toList.mapM fun (path, bytes) =>
      classify host selected (aggregateReady host o) path bytes) = .ok sources)
    (hfound : search host sources = .ok found)
    (hoffer : ClosedGroups.offerAll (graph sources found) LIMIT (sources.length + 1)
      (seeds sources preferred) = some offer)
    (hcheck : ∀ path ∈ offer.offered,
      (Std.ExtTreeMap.ofList offer.required compare).contains path = true) :
    ∃ inv, inventoryFor host selected o preferred = .ok inv ∧
      inv.sources = .ofList ((sources.filter (·.path ∈ offer.offered)).map fun s =>
        (s.path, host.revision s.bytes)) compare ∧
      inv.required = .ofList offer.required compare := by
  simp only [inventoryFor, hplan, Bool.not_true, Bool.and_false, Bool.false_eq_true, if_false,
    hsources, hfound, hoffer, okOr, bind, Except.bind]
  split
  · rename_i e herror
    rw [(check_eq_ok (u := ())).mpr hcheck] at herror
    cases herror
  · exact ⟨_, rfl, rfl, rfl⟩

/-! ## A finished plan and its receipt -/

def sampleHost : Host where
  parse := fromSlice
  lossy _ := ""
  revision _ := "sha256:00"
  digest := text
  canonical := .ok "/repository"
  aggregate := .ok "absent"
  recognised _ _ := true
  update _ _ := .ok none
  planningSubject _ := none
  reusable _ := .ok false
  committed _ := true
  matcher patterns := .ok fun content => patterns.filter (contains · content)

theorem sampleHost_matcher : sampleHost.MatcherComplete := by
  intro patterns find hfind content p hp hinfix
  cases hfind
  exact List.mem_filter.mpr ⟨hp, decide_eq_true hinfix⟩

def samplePlan : String := ".agentic-workspace/planning/execplans/archive/plan.json"
def sampleReceipt : String := ".agentic-workspace/proof/receipts/0123456789abcdef.json"
def sampleConsumer : String := ".agentic-workspace/evaluations.json"

def planBody : Value := .object [("id", .string "proof-publication")]

def receiptBody : Value := .object [("kind", .string "agentic-workspace/proof-receipt/v1"),
  ("publication_custody", .object [
    ("kind", .string "agentic-workspace/proof-publication-custody/v1")]),
  ("receipt_id", .string "0123456789abcdef")]

def consumerBody : Value := .object [("proof", .string sampleReceipt)]

/-- The receipt names the plan in its custody only; a live source names the receipt. -/
def sampleObserved : Observed where
  planning := .ofList [(samplePlan, toVec planBody)] compare
  consumers := .ofList [(sampleConsumer, toVec consumerBody), (sampleReceipt, toVec receiptBody)]
    compare

theorem sampleHost_parse (v : Value) : sampleHost.parse (toVec v) = some v := fromSlice_toVec v

/-- The name under which the plan is referred to beside its path and its identity. -/
def sampleIdentity : String := "planning:" ++ text (.object [("id", .string "proof-publication"),
  ("target", .string "/repository")])

def planSource : Source :=
  ⟨samplePlan, toVec planBody, true, false, false, none,
    [samplePlan, "proof-publication", sampleIdentity]⟩

def receiptSource : Source :=
  ⟨sampleReceipt, toVec receiptBody, false, false, true, none, [sampleReceipt, "0123456789abcdef"]⟩

def consumerSource : Source :=
  ⟨sampleConsumer, toVec consumerBody, false, false, false, none, []⟩

theorem plan_isPlan : isPlan sampleHost none samplePlan (toVec planBody) = true := by
  simp only [isPlan, terminal, sampleHost_parse]
  decide

theorem receipt_isPlan : isPlan sampleHost none sampleReceipt (toVec receiptBody) = false := by
  simp only [isPlan, terminal, sampleHost_parse]
  decide

theorem consumer_isPlan : isPlan sampleHost none sampleConsumer (toVec consumerBody) = false := by
  simp only [isPlan, terminal, sampleHost_parse]
  decide

theorem plan_classified :
    classify sampleHost none false samplePlan (toVec planBody) = .ok planSource := by
  have hproof : isProof samplePlan planBody = false := by decide
  have hnames : names sampleHost samplePlan planBody = .ok planSource.names := rfl
  simp only [classify, Bool.false_eq_true, and_false, if_false, sampleHost_parse,
    referenceNames, plan_isPlan, hproof, hnames, proofSubject, provenance, Bool.true_or, if_true,
    Bool.false_and]
  rfl

theorem receipt_classified :
    classify sampleHost none false sampleReceipt (toVec receiptBody) = .ok receiptSource := by
  have hproof : isProof sampleReceipt receiptBody = true := by decide
  have hnames : names sampleHost sampleReceipt receiptBody = .ok receiptSource.names := rfl
  have hprovenance : provenance sampleHost sampleReceipt receiptBody = true := by
    rw [provenance, hproof]
    rfl
  simp only [classify, Bool.false_eq_true, and_false, if_false, sampleHost_parse,
    referenceNames, receipt_isPlan, hproof, hnames, proofSubject, hprovenance, Bool.or_true, if_true,
    Bool.false_and]
  rfl

theorem consumer_classified :
    classify sampleHost none false sampleConsumer (toVec consumerBody) = .ok consumerSource := by
  have hproof : isProof sampleConsumer consumerBody = false := by decide
  simp only [classify, Bool.false_eq_true, and_false, if_false, sampleHost_parse,
    referenceNames, consumer_isPlan, hproof, proofSubject, provenance, Bool.or_false, Bool.false_and]
  rfl

theorem sample_listed : sampleObserved.sources.toList.mapM
    (fun (path, bytes) => classify sampleHost none false path bytes) =
      .ok [consumerSource, planSource, receiptSource] := by
  have hsources : sampleObserved.sources.toList = [(sampleConsumer, toVec consumerBody),
      (samplePlan, toVec planBody), (sampleReceipt, toVec receiptBody)] := rfl
  simp only [hsources, List.mapM_cons, List.mapM_nil, consumer_classified, plan_classified,
    receipt_classified]
  rfl

/-- No other source names the plan outside a custody. -/
theorem sample_unnamed : ∀ n ∈ planSource.names,
    contains n (searched sampleHost consumerSource) = false ∧
      contains n (searched sampleHost receiptSource) = false := by
  have hsearched : ∀ s body, s.bytes = toVec body →
      searched sampleHost s = text (searchedBody s body) := by
    intro s body h
    rw [searched, h, sampleHost_parse]
  rw [hsearched consumerSource consumerBody rfl, hsearched receiptSource receiptBody rfl]
  decide +kernel

theorem sample_apart : sampleConsumer ≠ samplePlan ∧ sampleReceipt ≠ samplePlan := by
  decide

theorem sample_alone {found : List (Source × List String)}
    (hfound : search sampleHost [consumerSource, planSource, receiptSource] = .ok found) :
    (graph [consumerSource, planSource, receiptSource] found).referrers samplePlan = [] := by
  have hentry : ∀ e ∈ found, e.1 ∈ [consumerSource, planSource, receiptSource] ∧
      ∀ n ∈ e.2, contains n (searched sampleHost e.1) = true := by
    intro e he
    unfold search at hfound
    simp only at hfound
    split at hfound
    · cases hfound
      cases he
    · cases hfound
      obtain ⟨s, hs, rfl⟩ := List.mem_map.mp he
      exact ⟨(List.mem_filter.mp hs).1, fun n hn => (List.mem_filter.mp hn).2⟩
  have hplan : ∀ s ∈ [consumerSource, planSource, receiptSource], s.path = samplePlan →
      s = planSource := by
    intro s hs hpath
    simp only [List.mem_cons, List.not_mem_nil, or_false] at hs
    rcases hs with rfl | rfl | rfl
    · exact absurd hpath sample_apart.1
    · rfl
    · exact absurd hpath sample_apart.2
  have hnone : found.filter (fun e => e.1.path ≠ samplePlan &&
      [consumerSource, planSource, receiptSource].any fun s =>
        s.path = samplePlan && s.names.any (· ∈ e.2)) = [] := by
    rw [List.filter_eq_nil_iff]
    rintro ⟨q, hits⟩ he hreferrer
    obtain ⟨hq, hhits⟩ := hentry _ he
    simp only [Bool.and_eq_true, decide_eq_true_eq, List.any_eq_true] at hreferrer
    obtain ⟨hother, s, hs, hpath, n, hn, hhit⟩ := hreferrer
    obtain rfl := hplan s hs hpath
    have hcontains := hhits n hhit
    simp only [List.mem_cons, List.not_mem_nil, or_false] at hq
    rcases hq with rfl | rfl | rfl
    · rw [(sample_unnamed n hn).1] at hcontains
      cases hcontains
    · exact hother rfl
    · rw [(sample_unnamed n hn).2] at hcontains
      cases hcontains
  show sortDedup _ = []
  rw [hnone]
  rfl

theorem sample_found : ∃ found,
    search sampleHost [consumerSource, planSource, receiptSource] = .ok found := by
  cases hfound : search sampleHost [consumerSource, planSource, receiptSource] with
  | ok found => exact ⟨found, rfl⟩
  | error e =>
    unfold search at hfound
    simp only at hfound
    split at hfound <;> cases hfound

theorem sample_offered : ∃ inv, inventoryFor sampleHost none sampleObserved [] = .ok inv ∧
    inv.sources.keys = [samplePlan] ∧ inv.required.toList = [(samplePlan, [samplePlan])] := by
  have hplanning : sampleObserved.planning.toList = [(samplePlan, toVec planBody)] := rfl
  have hany : (sampleObserved.planning.toList.any fun (path, bytes) =>
      isPlan sampleHost none path bytes) = true := by
    simp only [hplanning, List.any_cons, plan_isPlan, Bool.true_or]
  have hready : aggregateReady sampleHost sampleObserved = false := rfl
  obtain ⟨found, hfound⟩ := sample_found
  have hmember : (graph [consumerSource, planSource, receiptSource] found).member samplePlan =
      true :=
    List.any_eq_true.mpr ⟨planSource, by simp, by simp [planSource]⟩
  have hoffer : ClosedGroups.offerAll (graph [consumerSource, planSource, receiptSource] found)
      LIMIT 4 (seeds [consumerSource, planSource, receiptSource] []) =
        some ⟨[samplePlan], [(samplePlan, [samplePlan])], []⟩ :=
    ClosedGroups.offerAll_alone hmember (sample_alone hfound) (by decide)
  have hrequired : ∀ path ∈ [samplePlan],
      (Std.ExtTreeMap.ofList [(samplePlan, [samplePlan])] compare).contains path = true := by
    intro path hpath
    rw [List.mem_singleton.mp hpath, Std.ExtTreeMap.contains_ofList]
    simp
  obtain ⟨inv, hinv, hsources, hgroups⟩ := inventoryFor_of hany
    (hready.symm ▸ sample_listed) hfound hoffer hrequired
  refine ⟨inv, hinv, ?_, ?_⟩
  · rw [hsources, show [consumerSource, planSource, receiptSource].filter (·.path ∈ [samplePlan]) =
      [planSource] by simp [consumerSource, planSource, receiptSource, sample_apart]]
    rfl
  · rw [hgroups]
    rfl

theorem sampleSources : sampleObserved.sources[samplePlan]? = some (toVec planBody) ∧
    sampleObserved.sources[sampleReceipt]? = some (toVec receiptBody) ∧
    sampleObserved.sources[sampleConsumer]? = some (toVec consumerBody) :=
  ⟨rfl, rfl, rfl⟩

theorem sample_mentions : Refers sampleHost sampleObserved none (Mentions sampleHost) samplePlan
      sampleReceipt ∧
    Refers sampleHost sampleObserved none (Mentions sampleHost) sampleReceipt sampleConsumer := by
  obtain ⟨hplan, hreceipt, hconsumer⟩ := sampleSources
  constructor
  · refine ⟨by decide, by decide, "proof-publication", ⟨_, hplan, Or.inr ⟨planBody, by decide,
      fromSlice_toVec _, Or.inl (by decide +kernel), [samplePlan, "proof-publication", _], rfl,
      by decide⟩⟩, _, hreceipt, receiptBody, fromSlice_toVec _,
      "agentic-workspace/proof-publication-custody/v1", by decide, by decide⟩
  · refine ⟨by decide, by decide, sampleReceipt, ⟨_, hreceipt, Or.inr ⟨receiptBody, by decide,
      fromSlice_toVec _, Or.inr (by decide), [sampleReceipt, "0123456789abcdef"], by decide,
      by decide⟩⟩, _, hconsumer, consumerBody, fromSlice_toVec _, sampleReceipt, by decide,
      by decide⟩

/-- **Custody is no reference**: a receipt that mentions the plan in its publication custody does
not hold it back, nor does what refers to that receipt. -/
theorem inventory_mentions : sampleHost.MatcherComplete ∧
    ∃ inv, inventoryFor sampleHost none sampleObserved [] = .ok inv ∧
      ¬ inv.Closed sampleHost sampleObserved none (Mentions sampleHost) := by
  refine ⟨sampleHost_matcher, ?_⟩
  obtain ⟨inv, hinv, hkeys, hrequired⟩ := sample_offered
  refine ⟨inv, hinv, fun C => ?_⟩
  have hmem : samplePlan ∈ inv.sources := by
    rw [← Std.ExtTreeMap.mem_keys, hkeys]
    exact List.mem_cons_self
  obtain ⟨group, hgroup, -, -, hclosed⟩ := C.groups samplePlan hmem
  rw [← Std.ExtTreeMap.mem_toList_iff_getElem?_eq_some, hrequired, List.mem_singleton] at hgroup
  obtain rfl : group = [samplePlan] := congrArg Prod.snd hgroup
  rcases hclosed samplePlan List.mem_cons_self sampleConsumer
    ((Relation.ReflTransGen.single sample_mentions.1).tail sample_mentions.2) with hin | hin
  · revert hin
    decide
  · obtain ⟨bytes, body, -, -, hreceipt⟩ := hin
    have hno : isProof sampleConsumer body = false := by
      simp [isProof, show startsWith ".agentic-workspace/proof/receipts/" sampleConsumer = false
        by decide]
    simp [provenance, hno] at hreceipt

theorem inventory_closed_sample : ∃ inv,
    inventoryFor sampleHost none sampleObserved [] = .ok inv ∧
      inv.Closed sampleHost sampleObserved none (Cites sampleHost) := by
  obtain ⟨inv, hinv, -⟩ := sample_offered
  exact ⟨inv, hinv, (inventory_closed sampleHost_matcher []).2 inv hinv⟩

end AgenticCore.PlanningRetention
