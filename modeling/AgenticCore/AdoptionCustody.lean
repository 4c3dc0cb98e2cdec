import AgenticCore.Adoption

/-!
# What adoption overwrites and what its removal deletes

* `add_cases`          : the one step by which a file enters the updates.
* `Removes`            : the reasons for which removal touches a path.
* `Replaces`           : the reason for which adoption touches an existing package file.
* `removal_owned`      : **removal touches nothing else, except an edited adoption identity**.
-/

set_option autoImplicit false

namespace AgenticCore.Adoption

open Json Text

variable {host : Host} {s : Surfaces} {target : String} {root : Node} {record : Option Value}

/-- Every update is in order. -/
def Every (P : String → Update → Prop) (m : BTreeMap String Update) : Prop :=
  ∀ path u, m[path]? = some u → P path u

theorem every_empty {P : String → Update → Prop} : Every P ∅ := by
  intro path u h
  simp at h

theorem Every.insert {P : String → Update → Prop} {m : BTreeMap String Update} (h : Every P m)
    {path : String} {u : Update} (hu : P path u) : Every P (m.insert path u) := by
  intro path' u' h'
  rw [Std.ExtTreeMap.getElem?_insert] at h'
  split at h'
  · rename_i heq
    obtain rfl := Std.LawfulEqCmp.eq_of_compare heq
    cases h'
    exact hu
  · exact h path' u' h'

/-! ## One file -/

theorem add_cases {mode : Mode} {path : String} {after : Option String} {package : Bool}
    {c c' : Changes} (h : add host root mode record path after package c = .ok c') :
    ∃ before, bytes root path = .ok before ∧
      ((before = after ∨ package = true) ∧ c'.updates = c.updates ∨
        before ≠ after ∧
          (package = true → before.isSome = true → mode = .adopt → path ∉ [LEDGER, PROFILE] →
            installedRevision record path = some (revision host before)) ∧
          c'.updates = c.updates.insert path ⟨revision host before, after, false⟩) := by
  simp only [add, Except.bind_eq_ok_iff] at h
  obtain ⟨before, hbefore, h⟩ := h
  refine ⟨before, hbefore, ?_⟩
  split at h
  · rename_i heq
    rw [Except.pure_eq_ok_iff] at h
    subst h
    exact Or.inl ⟨Or.inl heq, rfl⟩
  · rename_i hne
    split at h
    · rename_i hguard
      rw [Except.pure_eq_ok_iff] at h
      subst h
      exact Or.inl ⟨Or.inr hguard.1, rfl⟩
    · rename_i hguard
      rw [Except.pure_eq_ok_iff] at h
      subst h
      refine Or.inr ⟨hne, fun hp hb hm hpath => ?_, rfl⟩
      by_contra hinstalled
      exact hguard ⟨hp, hb, hm, hpath, hinstalled⟩

/-- A file enters the updates in order, or not at all. -/
theorem add_every {P : String → Update → Prop} {mode : Mode} {path : String}
    {after : Option String} {package : Bool} {c c' : Changes}
    (h : add host root mode record path after package c = .ok c') (hc : Every P c.updates)
    (hP : ∀ before, bytes root path = .ok before → before ≠ after →
      (package = true → before.isSome = true → mode = .adopt → path ∉ [LEDGER, PROFILE] →
        installedRevision record path = some (revision host before)) →
      P path ⟨revision host before, after, false⟩) : Every P c'.updates := by
  obtain ⟨before, hbefore, ⟨-, hsame⟩ | ⟨hne, hguard, hinsert⟩⟩ := add_cases h
  · rw [hsame]
    exact hc
  · rw [hinsert]
    exact hc.insert (hP before hbefore hne hguard)

theorem addPackage_every {P : String → Update → Prop} {k : Composition}
    {acc acc' : Changes × BTreeMap String Value} {file : PackageFile}
    (h : addPackage host root k acc file = .ok acc') (hc : Every P acc.1.updates)
    (hP : ∀ before after, bytes root file.path = .ok before → before ≠ after →
      (k.removing = true → after = none ∧ unowned host k.record file.path before = false) →
      (before.isSome = true → k.mode = .adopt → file.path ∉ [LEDGER, PROFILE] →
        installedRevision k.record file.path = some (revision host before)) →
      P file.path ⟨revision host before, after, false⟩) : Every P acc'.1.updates := by
  simp only [addPackage, Except.bind_eq_ok_iff] at h
  obtain ⟨current, hcurrent, h⟩ := h
  have hsame : ∀ {before}, bytes root file.path = .ok before → before = current := fun hb =>
    Except.ok.inj (hb.symm.trans hcurrent)
  split at h
  · simp only [Except.bind_eq_ok_iff, Except.pure_eq_ok_iff] at h
    obtain ⟨c, hadd, rfl⟩ := h
    refine add_every hadd hc fun before hbefore hne _ => ?_
    exact absurd (hsame hbefore) hne
  · simp only [Except.bind_eq_ok_iff, Except.pure_eq_ok_iff] at h
    obtain ⟨shipped, -, c, hadd, rfl⟩ := h
    refine add_every hadd hc fun before hbefore hne hguard => ?_
    refine hP before _ hbefore hne (fun hremoving => ?_) (hguard rfl)
    rw [if_pos hremoving] at hne ⊢
    obtain rfl := hsame hbefore
    split at hne
    · exact absurd rfl hne
    · rename_i howned
      rw [if_neg howned]
      exact ⟨rfl, by simpa using howned⟩

/-! ## Removal -/

/-- Why removal touches a path: an owned package file, the identity last published, a retired file
    as it shipped, or the instruction file, of which only the fence goes. -/
def Removes (host : Host) (s : Surfaces) (root : Node) (record : Option Value)
    (published : Option String) (path : String) (u : Update) : Prop :=
  ∃ text, bytes root path = .ok (some text) ∧ u.before = revision host (some text) ∧
    (u.after = none ∧
        (path ∈ s.paths ∧ installedRevision record path = some (revision host (some text)) ∨
          path = IDENTITY ∧ published = some text ∨
          ∃ row ∈ s.retired, row.path = path ∧
            host.hashText (text.replace "\r\n" "\n") = "sha256:" ++ row.sha256) ∨
      path = s.instructionPath ∧ ∃ a b, find s.fenceStart.toList text.toList = some a ∧
        find s.fenceEnd.toList text.toList = some b ∧ a < b ∧
        u.after = some (String.ofList
          (text.toList.take a ++ text.toList.drop (b + s.fenceEnd.toList.length))))

/-- The instruction file without its fence. -/
theorem instruction_removing {before after : Option String}
    (h : instruction s before true = .ok after) (hne : before ≠ after) :
    ∃ text, before = some text ∧ ∃ a b, find s.fenceStart.toList text.toList = some a ∧
      find s.fenceEnd.toList text.toList = some b ∧ a < b ∧
      after = some (String.ofList
        (text.toList.take a ++ text.toList.drop (b + s.fenceEnd.toList.length))) := by
  unfold instruction at h
  simp only [if_true] at h
  split at h
  · cases h
    exact absurd rfl hne
  · rename_i a b ha hb
    split at h
    · cases h
    · rename_i hguard
      cases h
      have hlt : a < b := by
        by_contra hle
        exact hguard (Or.inr (Or.inr (by omega)))
      cases before with
      | none =>
        -- no marker stands in a file that is not there
        have hnil : ("" : String).toList = [] := rfl
        simp only [Option.getD_none, hnil, find] at ha hb
        split at ha
        · split at hb
          · cases ha
            cases hb
            omega
          · cases hb
        · cases ha
      | some text =>
        simp only [Option.getD_some] at ha hb ⊢
        exact ⟨text, rfl, a, b, ha, hb, hlt, by simp⟩
  · cases h

/-- What a step keeps of the updates, a fold of such steps keeps. -/
theorem foldlM_keeps {α β : Type} {f : Changes × β → α → Result (Changes × β)}
    {Q : BTreeMap String Update → Prop} {l : List α}
    (hf : ∀ a ∈ l, ∀ acc acc', f acc a = .ok acc' → Q acc.1.updates → Q acc'.1.updates)
    {acc acc' : Changes × β} (h : l.foldlM f acc = .ok acc') (hc : Q acc.1.updates) :
    Q acc'.1.updates := by
  induction l generalizing acc with
  | nil =>
    rw [List.foldlM_nil, Except.pure_eq_ok_iff] at h
    exact h ▸ hc
  | cons a l ih =>
    rw [List.foldlM_cons, Except.bind_eq_ok_iff] at h
    obtain ⟨acc₁, hfirst, h⟩ := h
    exact ih (fun b hb => hf b (List.mem_cons_of_mem _ hb)) h
      (hf a List.mem_cons_self acc acc₁ hfirst hc)

theorem addRetired_cases {acc acc' : Changes × List Value} {row : Retired}
    (h : addRetired host root acc row = .ok acc') :
    acc'.1.updates = acc.1.updates ∨ ∃ text, bytes root row.path = .ok (some text) ∧
      host.hashText (text.replace "\r\n" "\n") = "sha256:" ++ row.sha256 ∧
      acc'.1.updates = acc.1.updates.insert row.path ⟨revision host (some text), none, false⟩ := by
  simp only [addRetired, Except.bind_eq_ok_iff] at h
  obtain ⟨current, hcurrent, h⟩ := h
  split at h
  · rw [Except.pure_eq_ok_iff] at h
    subst h
    exact Or.inl rfl
  · rename_i text
    split at h
    · rename_i hhash
      rw [Except.pure_eq_ok_iff] at h
      subst h
      exact Or.inr ⟨text, hcurrent, hhash, rfl⟩
    · rw [Except.pure_eq_ok_iff] at h
      subst h
      exact Or.inl rfl

theorem addRetired_every {P : String → Update → Prop} {acc acc' : Changes × List Value}
    {row : Retired} (h : addRetired host root acc row = .ok acc') (hc : Every P acc.1.updates)
    (hP : ∀ text, bytes root row.path = .ok (some text) →
      host.hashText (text.replace "\r\n" "\n") = "sha256:" ++ row.sha256 →
      P row.path ⟨revision host (some text), none, false⟩) : Every P acc'.1.updates := by
  rcases addRetired_cases h with hsame | ⟨text, htext, hhash, hinsert⟩
  · rw [hsame]
    exact hc
  · rw [hinsert]
    exact hc.insert (hP text htext hhash)

theorem addResidue_every {P : String → Update → Prop} {c : Changes} {removals : BTreeMap String Value}
    (hc : Every P c.updates) (hP : ∀ path ∈ removals, ∀ observed, P path ⟨observed, none, true⟩) :
    Every P (addResidue c removals).updates := by
  have hfold : ∀ (l : List (String × Value)) (m : BTreeMap String Update), (∀ e ∈ l, e.1 ∈ removals) →
      Every P m → Every P (l.foldl enterResidue m) := by
    intro l
    induction l with
    | nil => exact fun m _ hm => hm
    | cons e l ih =>
      intro m hl hm
      rw [List.forall_mem_cons] at hl
      rw [List.foldl_cons]
      exact ih _ hl.2 (hm.insert (hP _ hl.1 _))
  refine hfold _ _ (fun e he => ?_) hc
  rw [Std.ExtTreeMap.mem_iff_isSome_getElem?,
    Std.ExtTreeMap.mem_toList_iff_getElem?_eq_some.mp he]
  rfl

/-- What `changes` enters, step by step. -/
theorem changes_ok {k : Composition} {blockers : List String} {identity instructions : Option String}
    {enclave : Option Enclave.Inventory} {r : Changes × BTreeMap String Value × List Value}
    (h : changes host s root k blockers identity instructions enclave = .ok r) :
    ∃ (c₁ c₂ c₃ c₄ c₅ : Changes) (installed : BTreeMap String Value) (after : Option String)
        (custody : List String) (preserved : List Value),
      s.package.foldlM (addPackage host root k) (⟨∅, ∅, blockers⟩, ∅) = .ok (c₁, installed) ∧
      instruction s instructions k.removing = .ok after ∧
      add host root k.mode k.record s.instructionPath after false c₁ = .ok c₂ ∧
      add host root k.mode k.record IDENTITY
        (if k.removing then none else some (identityText host s installed)) false c₂ = .ok c₃ ∧
      addIgnore host s root k c₃ = .ok c₄ ∧
      (if k.removing then s.retired else []).foldlM (addRetired host root)
        ({ c₄ with blockers := c₄.blockers ++ custody }, []) = .ok (c₅, preserved) ∧
      r.1 = withResidue enclave c₅ := by
  simp only [changes, Except.bind_eq_ok_iff, Except.pure_eq_ok_iff] at h
  obtain ⟨⟨c₁, installed⟩, hpackage, after, hafter, c₂, hc₂, c₃, hc₃, c₄, hc₄, custody, -,
    ⟨c₅, preserved⟩, hretired, rfl⟩ := h
  exact ⟨c₁, c₂, c₃, c₄, c₅, installed, after, custody, preserved, hpackage, hafter, hc₂, hc₃, hc₄,
    hretired, rfl⟩

theorem addIgnore_removing {k : Composition} {c c' : Changes} (hk : k.mode = .remove)
    (h : addIgnore host s root k c = .ok c') : c' = c := by
  simp only [addIgnore, Except.bind_eq_ok_iff, hk] at h
  obtain ⟨ignore, -, h⟩ := h
  rw [if_neg (by simp), Except.pure_eq_ok_iff] at h
  exact h.symm

/-- `observe` of a mode that looks at every surface. -/
theorem observe_ok {mode : Mode} (hmode : mode ≠ .reconcilePayload) {state : State}
    (h : observe host s target root mode = .ok state) :
    ∃ identity record enclave k blockers instructions r,
      bytes root IDENTITY = .ok identity ∧ held host target root = .ok record ∧
      enclaveOf host s root mode = .ok enclave ∧
      composition host root mode record = .ok (k, blockers) ∧
      bytes root s.instructionPath = .ok instructions ∧
      changes host s root k blockers identity instructions enclave = .ok r ∧
      state.updates = r.1.updates := by
  simp only [observe, Except.bind_eq_ok_iff, Except.pure_eq_ok_iff, if_neg hmode] at h
  obtain ⟨identity, hidentity, record, hrecord, enclave, henclave, ⟨k, blockers⟩, hk, instructions,
    hinstructions, r, hr, pending, -, refresh, -, _, -, rfl⟩ := h
  exact ⟨identity, record, enclave, k, blockers, instructions, r, hidentity, hrecord, henclave, hk,
    hinstructions, hr, rfl⟩

theorem composition_ok {mode : Mode} {k : Composition} {blockers : List String}
    (h : composition host root mode record = .ok (k, blockers)) :
    k.mode = mode ∧ k.record = record := by
  simp only [composition, Except.bind_eq_ok_iff] at h
  obtain ⟨ledger, -, h⟩ := h
  split at h
  · rename_i hmode
    rw [Except.pure_eq_ok_iff] at h
    cases h
    exact ⟨rfl, rfl⟩
  · simp only [Except.bind_eq_ok_iff, Except.pure_eq_ok_iff] at h
    obtain ⟨_, -, _, -, _, -, h⟩ := h
    cases h
    exact ⟨rfl, rfl⟩

/-- The file is there as the held record installed it. -/
theorem unowned_eq_false {path : String} {text : String}
    (h : unowned host record path (some text) = false) :
    installedRevision record path = some (revision host (some text)) := by
  simpa [unowned] using h

section Removal

variable {k : Composition} {blockers : List String} {identity instructions : Option String}
  {r : Changes × BTreeMap String Value × List Value}

/-- Every update of a removal but the identity's own has its reason. -/
theorem changes_removes (hk : k.mode = .remove) (hinstructions :
      bytes root s.instructionPath = .ok instructions)
    (h : changes host s root k blockers identity instructions none = .ok r)
    {published : Option String}
    (hidentity : ∀ text, bytes root IDENTITY = .ok (some text) → published = some text) :
    Every (Removes host s root k.record published) r.1.updates := by
  have hremoving : k.removing = true := by simp [Composition.removing, hk]
  obtain ⟨c₁, c₂, c₃, c₄, c₅, installed, after, custody, preserved, hpackage, hafter, hc₂, hc₃, hc₄,
    hretired, hr⟩ := changes_ok h
  rw [hremoving] at hafter hc₃ hretired
  have h₁ : Every (Removes host s root k.record published) c₁.updates := by
    refine foldlM_keeps (fun file hfile acc acc' hstep hacc => ?_) hpackage every_empty
    refine addPackage_every hstep hacc fun before after hbefore hne hremove _ => ?_
    obtain ⟨rfl, howned⟩ := hremove hremoving
    obtain ⟨text, rfl⟩ := Option.ne_none_iff_exists'.mp hne
    exact ⟨text, hbefore, rfl, Or.inl ⟨rfl, Or.inl
      ⟨List.mem_map_of_mem hfile, unowned_eq_false howned⟩⟩⟩
  have h₂ : Every (Removes host s root k.record published) c₂.updates := by
    refine add_every hc₂ h₁ fun before hbefore hne _ => ?_
    obtain rfl := Except.ok.inj (hbefore.symm.trans hinstructions)
    obtain ⟨text, rfl, a, b, ha, hb, hlt, hafter⟩ := instruction_removing hafter hne
    exact ⟨text, hbefore, rfl, Or.inr ⟨rfl, a, b, ha, hb, hlt, hafter⟩⟩
  have h₃ : Every (Removes host s root k.record published) c₃.updates := by
    refine add_every hc₃ h₂ fun before hbefore hne _ => ?_
    rw [if_pos rfl] at hne ⊢
    obtain ⟨text, rfl⟩ := Option.ne_none_iff_exists'.mp hne
    exact ⟨text, hbefore, rfl, Or.inl ⟨rfl, Or.inr (Or.inl ⟨rfl, hidentity text hbefore⟩)⟩⟩
  have h₄ : Every (Removes host s root k.record published) c₄.updates := by
    rw [addIgnore_removing hk hc₄]
    exact h₃
  have h₅ : Every (Removes host s root k.record published) c₅.updates := by
    refine foldlM_keeps (fun row hrow acc acc' hstep hacc => ?_) hretired h₄
    refine addRetired_every hstep hacc fun text htext hhash => ?_
    exact ⟨text, htext, rfl, Or.inl ⟨rfl, Or.inr (Or.inr ⟨row, hrow, rfl, hhash⟩)⟩⟩
  rw [hr]
  exact h₅

/-- The identity is removed whenever it is there. -/
theorem changes_identity (hk : k.mode = .remove) {text : String}
    (hidentity : bytes root IDENTITY = .ok (some text))
    (h : changes host s root k blockers identity instructions none = .ok r) :
    ∃ u, r.1.updates[IDENTITY]? = some u := by
  have hremoving : k.removing = true := by simp [Composition.removing, hk]
  obtain ⟨c₁, c₂, c₃, c₄, c₅, installed, after, custody, preserved, -, -, -, hc₃, hc₄, hretired, hr⟩ :=
    changes_ok h
  rw [hremoving] at hc₃ hretired
  have h₃ : ∃ u, c₃.updates[IDENTITY]? = some u := by
    obtain ⟨before, hbefore, hcases⟩ := add_cases hc₃
    obtain rfl := Except.ok.inj (hidentity.symm.trans hbefore)
    rcases hcases with ⟨hsame | hpackage, -⟩ | ⟨-, -, hinsert⟩
    · cases hsame
    · cases hpackage
    · rw [hinsert]
      exact ⟨_, Std.ExtTreeMap.getElem?_insert_self⟩
  have h₄ : ∃ u, c₄.updates[IDENTITY]? = some u := by
    rw [addIgnore_removing hk hc₄]
    exact h₃
  rw [hr]
  refine foldlM_keeps (Q := fun m => ∃ u, m[IDENTITY]? = some u)
    (fun row hrow acc acc' hstep hacc => ?_) hretired h₄
  rcases addRetired_cases hstep with hsame | ⟨_, -, -, hinsert⟩
  · rw [hsame]
    exact hacc
  · have hapart : row.path ≠ IDENTITY := by
      refine s.identity_apart _ (List.mem_cons_of_mem _ (List.mem_append_right _ ?_))
      exact List.mem_map_of_mem hrow
    rw [hinsert, Std.ExtTreeMap.getElem?_insert, if_neg (by simpa using hapart)]
    exact hacc

end Removal

/-! ## Adoption -/

/-- Why adoption touches a path: a package file that is there, and neither the ledger nor its read
    profile, stands as the held record installed it. -/
def Replaces (host : Host) (s : Surfaces) (root : Node) (record : Option Value) (path : String) :
    Prop :=
  path ∈ s.paths → path ∉ [LEDGER, PROFILE] → ∀ text, bytes root path = .ok (some text) →
    installedRevision record path = some (revision host (some text))

theorem replaces_of_apart {path : String} (h : path ∉ s.paths) : Replaces host s root record path :=
  fun hpath => absurd hpath h

theorem instruction_apart : s.instructionPath ∉ s.paths :=
  fun h => (s.package_apart _ h).1 rfl

theorem localIgnore_apart : s.localIgnore ∉ s.paths :=
  fun h => (s.package_apart _ h).2 rfl

theorem identity_not_package : IDENTITY ∉ s.paths := fun h =>
  s.identity_apart _ (List.mem_cons_of_mem _ (List.mem_append_left _ h)) rfl

/-- Residue is declared by nobody, the package included. -/
theorem residue_apart {mode : Mode} {enclave : Enclave.Inventory}
    (h : enclaveOf host s root mode = .ok (some enclave)) {path : String}
    (hpath : path ∈ enclave.removals) : path ∉ s.paths := by
  unfold enclaveOf at h
  split at h
  · cases h
  · simp only [Except.bind_eq_ok_iff, Except.pure_eq_ok_iff] at h
    obtain ⟨rows, hrows, _, hinventory, heq⟩ := h
    cases heq
    intro hpackage
    obtain ⟨file, hfile, rfl⟩ := List.mem_map.mp hpackage
    have hrow : (⟨file.path, "exact", file.owner, "managed-support", "current-version"⟩ :
        Enclave.Row) ∈ rows :=
      Enclave.declarations_payload hrows _ (List.mem_map_of_mem hfile)
    have huncovered := Enclave.inventory_removals hinventory _ hpath _ hrow
    simp [Enclave.covers] at huncovered

theorem changes_replaces {k : Composition} {blockers : List String}
    {identity instructions : Option String} {enclave : Option Enclave.Inventory}
    {r : Changes × BTreeMap String Value × List Value} (hk : k.mode = .adopt)
    (henclave : enclaveOf host s root .adopt = .ok enclave)
    (h : changes host s root k blockers identity instructions enclave = .ok r) :
    Every (fun path _ => Replaces host s root k.record path) r.1.updates := by
  have hremoving : k.removing = false := by simp [Composition.removing, hk]
  obtain ⟨c₁, c₂, c₃, c₄, c₅, installed, after, custody, preserved, hpackage, -, hc₂, hc₃, hc₄,
    hretired, hr⟩ := changes_ok h
  have h₁ : Every (fun path _ => Replaces host s root k.record path) c₁.updates := by
    refine foldlM_keeps (fun file _ acc acc' hstep hacc => ?_) hpackage every_empty
    refine addPackage_every hstep hacc fun before after hbefore _ _ hguard _ hpath text htext => ?_
    obtain rfl := Except.ok.inj (hbefore.symm.trans htext)
    exact hguard rfl hk hpath
  have h₂ : Every (fun path _ => Replaces host s root k.record path) c₂.updates :=
    add_every hc₂ h₁ fun _ _ _ _ => replaces_of_apart instruction_apart
  have h₃ : Every (fun path _ => Replaces host s root k.record path) c₃.updates :=
    add_every hc₃ h₂ fun _ _ _ _ => replaces_of_apart identity_not_package
  have h₄ : Every (fun path _ => Replaces host s root k.record path) c₄.updates := by
    simp only [addIgnore, Except.bind_eq_ok_iff] at hc₄
    obtain ⟨ignore, -, hc₄⟩ := hc₄
    split at hc₄
    · exact add_every hc₄ h₃ fun _ _ _ _ => replaces_of_apart localIgnore_apart
    · rw [Except.pure_eq_ok_iff] at hc₄
      exact hc₄ ▸ h₃
  have h₅ : Every (fun path _ => Replaces host s root k.record path) c₅.updates := by
    rw [hremoving] at hretired
    simp only [Bool.false_eq_true, if_false, List.foldlM_nil, Except.pure_eq_ok_iff] at hretired
    cases hretired
    exact h₄
  rw [hr]
  cases enclave with
  | none => exact h₅
  | some enclave =>
    exact addResidue_every h₅ fun path hpath _ => replaces_of_apart (residue_apart henclave hpath)

/-! ## The whole -/

/-- A blocked observation becomes no write. -/
theorem blocked_preserved {request : EditRequest} {state : State} {revisionOf : State → String}
    {policy : Value → Bool} (hmode : request.mode ≠ .recover) (hblocked : state.blockers ≠ [])
    {p : Proposal} (h : editView host root request state revisionOf policy = .ok p) :
    p = .preservedBlocked := by
  simp only [editView, Except.bind_eq_ok_iff] at h
  obtain ⟨_, -, h⟩ := h
  rw [if_pos ⟨hmode, hblocked⟩, Except.pure_eq_ok_iff] at h
  exact h.symm

/-- The adoption identity, when it is there, is the one last published. -/
def IdentityCurrent (root : Node) (published : Option String) : Prop :=
  ∀ text, bytes root IDENTITY = .ok (some text) → published = some text

/-- Removal has a reason for every path but an adoption identity that is not the one published. -/
theorem removes_iff {state : State} {published : Option String}
    (hrecord : held host target root = .ok record)
    (hstate : observe host s target root .remove = .ok state) :
    Every (Removes host s root record published) state.updates ↔ IdentityCurrent root published := by
  obtain ⟨identity, record', enclave, k, blockers, instructions, r, -, hrecord', henclave, hk,
    hinstructions, hr, hupdates⟩ := observe_ok (by simp) hstate
  obtain ⟨hmode, rfl⟩ := composition_ok hk
  obtain rfl := Except.ok.inj (hrecord.symm.trans hrecord')
  cases henclave
  rw [hupdates]
  constructor
  · intro hevery text htext
    obtain ⟨u, hu⟩ := changes_identity hmode htext hr
    obtain ⟨text', htext', -, hreason⟩ := hevery IDENTITY u hu
    obtain rfl : text = text' := Option.some.inj (Except.ok.inj (htext.symm.trans htext'))
    rcases hreason with ⟨-, ⟨hpackage, -⟩ | ⟨-, hpublished⟩ | ⟨row, hrow, hpath, -⟩⟩ | ⟨hpath, -⟩
    · exact absurd hpackage identity_not_package
    · exact hpublished
    · refine absurd hpath (s.identity_apart _ (List.mem_cons_of_mem _ (List.mem_append_right _ ?_)))
      exact List.mem_map_of_mem hrow
    · exact absurd hpath.symm (s.identity_apart _ List.mem_cons_self)
  · intro hcurrent
    exact changes_removes hmode hinstructions hr hcurrent

theorem replaces_all {state : State} (hrecord : held host target root = .ok record)
    (hstate : observe host s target root .adopt = .ok state) :
    Every (fun path _ => Replaces host s root record path) state.updates := by
  obtain ⟨identity, record', enclave, k, blockers, instructions, r, -, hrecord', henclave, hk, -, hr,
    hupdates⟩ := observe_ok (by simp) hstate
  obtain ⟨hmode, rfl⟩ := composition_ok hk
  obtain rfl := Except.ok.inj (hrecord.symm.trans hrecord')
  rw [hupdates]
  exact changes_replaces hmode henclave hr

/-- **An unblocked removal touches owned material only, exactly when the adoption identity is the one
    last published or is not there**: its bytes are compared with nothing. An unblocked adoption
    replaces owned package files only, and a blocked request writes nothing. -/
theorem removal_owned (host : Host) (s : Surfaces) (target : String) (root : Node)
    (published : Option String) :
    (∀ record state, held host target root = .ok record →
      observe host s target root .remove = .ok state → state.blockers = [] →
      (Every (Removes host s root record published) state.updates ↔
        IdentityCurrent root published)) ∧
    (∀ record state, held host target root = .ok record →
      observe host s target root .adopt = .ok state → state.blockers = [] →
      Every (fun path _ => Replaces host s root record path) state.updates) ∧
    ∀ request state revisionOf policy p, request.mode ≠ .recover → state.blockers ≠ [] →
      editView host root request state revisionOf policy = .ok p → p = .preservedBlocked :=
  ⟨fun _ _ hrecord hstate _ => removes_iff hrecord hstate,
    fun _ _ hrecord hstate _ => replaces_all hrecord hstate,
    fun _ _ _ _ _ hmode hblocked h => blocked_preserved hmode hblocked h⟩

/-! ## An edited identity -/

section Edited

def sampleSurfaces : Surfaces where
  contract := .null
  package := [⟨".agentic-workspace/docs/README.md", "workspace", .packageVerbatim, "Read me.\n"⟩]
  instructionPath := "AGENTS.md"
  fenceStart := "<!-- agentic-workspace:workflow:start -->"
  fenceEnd := "<!-- agentic-workspace:workflow:end -->"
  localIgnore := ".agentic-workspace/local/.gitignore"
  retired := []
  preservedClasses := []
  enclaveRows := []
  identity_apart := by decide
  package_apart := by decide

/-- The invocation of the adoption that the checkout committed. -/
def sampleRecord : Value := .object [("invocation", .object [
  ("arguments", .object [("target", .string "/repo")]), ("operation_id", .string OP),
  ("source_owner", .string "configuration")])]

/-- The record is the one file that is parsed; every other part is idle in a removal. -/
def sampleHost : Host where
  hash _ := "sha256:sample"
  digest _ := "sha256:sample"
  parse text := if text = "record" then some sampleRecord else none
  pretty _ := "{}"
  attempt _ := .ok sampleRecord
  committed _ := .ok true
  ownershipBaseline := .ok .null
  baseline := .null
  hasHostMeaning _ := false
  compose _ _ := .ok ""
  profile _ := .ok ""
  profileMatches _ _ := false
  admitProfile _ := .ok ()
  hostRows _ := .ok []
  desired _ := .ok ""
  recognisedPayload _ := true
  refreshActions _ := .ok .null
  custodyRecovery := .ok .null

/-- A checkout whose `adoption.json` holds these bytes. -/
def sampleRoot (identity : String) : Node := .dir [(".agentic-workspace", .dir [
  ("adoption.json", .file identity.toUTF8),
  ("local", .dir [("effects", .dir [("adoption.prepared.json", .file "record".toUTF8)])])])]

theorem sample_observed (text : String)
    (h : (observe sampleHost sampleSurfaces "/repo" (sampleRoot text) .remove).toOption.map
      State.blockers = some []) :
    ∃ state, observe sampleHost sampleSurfaces "/repo" (sampleRoot text) .remove = .ok state ∧
      state.blockers = [] := by
  cases hstate : observe sampleHost sampleSurfaces "/repo" (sampleRoot text) .remove with
  | error e =>
    rw [hstate] at h
    cases h
  | ok state =>
    rw [hstate] at h
    exact ⟨state, rfl, Option.some.inj h⟩

/-- What an adoption of no file publishes. -/
def samplePublished : String := identityText sampleHost sampleSurfaces ∅

theorem removal_owned_sample : ∃ state,
    observe sampleHost sampleSurfaces "/repo" (sampleRoot samplePublished) .remove = .ok state ∧
      Every (Removes sampleHost sampleSurfaces (sampleRoot samplePublished) (some sampleRecord)
        (some samplePublished)) state.updates := by
  obtain ⟨state, hstate, hblockers⟩ :=
    sample_observed samplePublished (by decide)
  refine ⟨state, hstate, ?_⟩
  have howned := removal_owned sampleHost sampleSurfaces "/repo" (sampleRoot samplePublished)
    (some samplePublished)
  refine (howned.1 (some sampleRecord) state (by decide) hstate hblockers).mpr ?_
  intro text htext
  have hbytes : bytes (sampleRoot samplePublished) IDENTITY = .ok (some samplePublished) := by
    decide
  exact Except.ok.inj (hbytes.symm.trans htext)

/-- Someone's notes in `adoption.json` go with the removal. -/
theorem removal_takes_edited_identity : ∃ state,
    observe sampleHost sampleSurfaces "/repo" (sampleRoot "my notes") .remove = .ok state ∧
      state.blockers = [] ∧
      ¬ Every (Removes sampleHost sampleSurfaces (sampleRoot "my notes") (some sampleRecord)
        (some samplePublished)) state.updates := by
  obtain ⟨state, hstate, hblockers⟩ := sample_observed "my notes" (by decide)
  refine ⟨state, hstate, hblockers, fun hevery => ?_⟩
  have hheld : held sampleHost "/repo" (sampleRoot "my notes") = .ok (some sampleRecord) := by
    decide
  have hbytes : bytes (sampleRoot "my notes") IDENTITY = .ok (some "my notes") := by
    decide
  have hsame := (removes_iff hheld hstate).mp hevery "my notes" hbytes
  exact absurd hsame (by decide)

end Edited

end AgenticCore.Adoption
