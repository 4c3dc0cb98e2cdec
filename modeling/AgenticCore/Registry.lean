import AgenticCore.Text

/-!
# Registers: folds that enter names into ordered maps, each name once

* `enter`                  : the map with a list of entries put in.
* `enter_get`              : what it holds, when the names differ.
* `register_eq_ok`         : a fold whose step refuses a taken name succeeds exactly when every
                             element is fit, the names differ and none was taken.
* `declare_eq_ok`          : the same for a step that enters a name in a local map and in a map of
                             owners.
* `foldlM_zipIdx_eq_ok`    : positions that only label errors do not matter to success.
-/

set_option autoImplicit false

namespace List.Forall₂

variable {α β : Type} {R : α → β → Prop} {l : List α} {r : List β}

theorem exists_right (h : List.Forall₂ R l r) : ∀ a ∈ l, ∃ b ∈ r, R a b := by
  induction h with
  | nil => simp
  | cons h _ ih =>
    intro a ha
    rcases List.mem_cons.mp ha with rfl | ha
    · exact ⟨_, List.mem_cons_self, h⟩
    · obtain ⟨b, hb, hab⟩ := ih a ha
      exact ⟨b, List.mem_cons_of_mem _ hb, hab⟩

theorem exists_left (h : List.Forall₂ R l r) : ∀ b ∈ r, ∃ a ∈ l, R a b :=
  exists_right h.flip

end List.Forall₂

namespace Registry

variable {α β ε : Type}

def enter (m : BTreeMap String β) (entries : List (String × β)) : BTreeMap String β :=
  entries.foldl (fun m e => m.insert e.1 e.2) m

@[simp] theorem enter_nil (m : BTreeMap String β) : enter m [] = m := rfl

@[simp] theorem enter_cons (m : BTreeMap String β) (e : String × β) (entries : List (String × β)) :
    enter m (e :: entries) = enter (m.insert e.1 e.2) entries := rfl

theorem enter_append (m : BTreeMap String β) (xs ys : List (String × β)) :
    enter m (xs ++ ys) = enter (enter m xs) ys := by
  simp [enter]

theorem enter_get {entries : List (String × β)} (hnodup : (entries.map Prod.fst).Nodup) :
    ∀ {m : BTreeMap String β} {k : String} {v : β}, (enter m entries)[k]? = some v ↔
      (k, v) ∈ entries ∨ k ∉ entries.map Prod.fst ∧ m[k]? = some v := by
  induction entries with
  | nil => simp
  | cons e entries ih =>
    intro m k v
    obtain ⟨name, w⟩ := e
    rw [List.map_cons, List.nodup_cons] at hnodup
    rw [enter_cons, ih hnodup.2, Std.ExtTreeMap.getElem?_insert]
    by_cases hk : name = k
    · subst hk
      have hfresh : ∀ u, (name, u) ∉ entries := fun u hu =>
        hnodup.1 (List.mem_map.mpr ⟨_, hu, rfl⟩)
      simp [hfresh, hnodup.1, eq_comm]
    · have hne : ¬compare name k = .eq := by simpa using hk
      rw [if_neg hne]
      simp [Ne.symm hk]

theorem enter_get_none {entries : List (String × β)} {m : BTreeMap String β} {k : String} :
    (enter m entries)[k]? = none ↔ k ∉ entries.map Prod.fst ∧ m[k]? = none := by
  induction entries generalizing m with
  | nil => simp
  | cons e entries ih =>
    rw [enter_cons, ih, Std.ExtTreeMap.getElem?_insert]
    by_cases hk : e.1 = k
    · simp [hk]
    · simp [hk, Ne.symm hk]

/-- The order of entries with distinct names does not matter. -/
theorem enter_perm {entries entries' : List (String × β)} (h : entries.Perm entries')
    (hnodup : (entries.map Prod.fst).Nodup) (m : BTreeMap String β) :
    enter m entries = enter m entries' := by
  have hkeys := h.map Prod.fst
  refine Std.ExtTreeMap.ext_getElem? fun k => Option.ext fun v => ?_
  rw [enter_get hnodup, enter_get (hkeys.nodup_iff.mp hnodup), h.mem_iff, hkeys.mem_iff]

/-- A fold that enters fit elements under fresh names. -/
theorem register_eq_ok {f : BTreeMap String β → α → Except ε (BTreeMap String β)} {Fit : α → Prop}
    {name : α → String} {value : α → β}
    (hf : ∀ m a m', f m a = .ok m' ↔
      Fit a ∧ m[name a]? = none ∧ m' = m.insert (name a) (value a)) :
    ∀ {l : List α} {m m' : BTreeMap String β}, l.foldlM f m = .ok m' ↔
      (∀ a ∈ l, Fit a) ∧ (l.map name).Nodup ∧ (∀ a ∈ l, m[name a]? = none) ∧
        m' = enter m (l.map fun a => (name a, value a)) := by
  intro l
  induction l with
  | nil =>
    intro m m'
    simp [List.foldlM, pure, Except.pure, eq_comm]
  | cons a l ih =>
    intro m m'
    rw [List.foldlM_cons]
    constructor
    · intro h
      cases hstep : f m a with
      | error e =>
        rw [hstep] at h
        cases h
      | ok mid =>
        rw [hstep] at h
        obtain ⟨hfit, hfresh, rfl⟩ := (hf m a mid).mp hstep
        obtain ⟨hfits, hnodup, hnone, rfl⟩ := ih.mp h
        have hne : ∀ b ∈ l, name b ≠ name a ∧ m[name b]? = none := by
          intro b hb
          have hb' := hnone b hb
          rw [Std.ExtTreeMap.getElem?_insert] at hb'
          split at hb'
          · cases hb'
          · rename_i hcmp
            exact ⟨fun heq => hcmp (by simp [heq]), hb'⟩
        refine ⟨List.forall_mem_cons.mpr ⟨hfit, hfits⟩, ?_, ?_, rfl⟩
        · rw [List.map_cons, List.nodup_cons]
          refine ⟨fun hmem => ?_, hnodup⟩
          obtain ⟨b, hb, heq⟩ := List.mem_map.mp hmem
          exact (hne b hb).1 heq
        · exact List.forall_mem_cons.mpr ⟨hfresh, fun b hb => (hne b hb).2⟩
    · rintro ⟨hfits, hnodup, hfresh, rfl⟩
      rw [List.forall_mem_cons] at hfits hfresh
      rw [List.map_cons, List.nodup_cons] at hnodup
      have hstep := (hf m a _).mpr ⟨hfits.1, hfresh.1, rfl⟩
      rw [hstep]
      refine ih.mpr ⟨hfits.2, hnodup.2, fun b hb => ?_, rfl⟩
      have hne : name a ≠ name b := fun heq => hnodup.1 (List.mem_map.mpr ⟨b, hb, heq.symm⟩)
      rw [Std.ExtTreeMap.getElem?_insert, if_neg (by simpa using hne)]
      exact hfresh.2 b hb

/-- A fold that enters fit elements in a map of its own and claims their names for an owner. The
    names of the map are among the claimed ones, so a further check on it is never the one that
    fails. -/
theorem declare_eq_ok {f : BTreeMap String β × BTreeMap String String → α →
      Except ε (BTreeMap String β × BTreeMap String String)} {Fit : α → Prop} {strict : Prop}
    {name : α → String} {value : α → β} {owner : String}
    (hf : ∀ s a s', f s a = .ok s' ↔
      Fit a ∧ (strict → s.1[name a]? = none) ∧ s.2[name a]? = none ∧
        s' = (s.1.insert (name a) (value a), s.2.insert (name a) owner)) :
    ∀ {l : List α} {m : BTreeMap String β} {owned : BTreeMap String String}
      {s' : BTreeMap String β × BTreeMap String String}, l.foldlM f (m, owned) = .ok s' ↔
      (∀ a ∈ l, Fit a) ∧ (l.map name).Nodup ∧ (strict → ∀ a ∈ l, m[name a]? = none) ∧
        (∀ a ∈ l, owned[name a]? = none) ∧
        s' = (enter m (l.map fun a => (name a, value a)),
          enter owned (l.map fun a => (name a, owner))) := by
  intro l
  induction l with
  | nil =>
    intro m owned s'
    simp [List.foldlM, pure, Except.pure, eq_comm]
  | cons a l ih =>
    intro m owned s'
    rw [List.foldlM_cons]
    constructor
    · intro h
      cases hstep : f (m, owned) a with
      | error e =>
        rw [hstep] at h
        cases h
      | ok mid =>
        rw [hstep] at h
        obtain ⟨hfit, hlocal, hfresh, rfl⟩ := (hf _ a mid).mp hstep
        obtain ⟨hfits, hnodup, hlocals, hnone, rfl⟩ := ih.mp h
        have hne : ∀ b ∈ l, name b ≠ name a ∧ owned[name b]? = none := by
          intro b hb
          have hb' := hnone b hb
          rw [Std.ExtTreeMap.getElem?_insert] at hb'
          split at hb'
          · cases hb'
          · rename_i hcmp
            exact ⟨fun heq => hcmp (by simp [heq]), hb'⟩
        refine ⟨List.forall_mem_cons.mpr ⟨hfit, hfits⟩, ?_, ?_, ?_, rfl⟩
        · rw [List.map_cons, List.nodup_cons]
          refine ⟨fun hmem => ?_, hnodup⟩
          obtain ⟨b, hb, heq⟩ := List.mem_map.mp hmem
          exact (hne b hb).1 heq
        · intro hstrict
          refine List.forall_mem_cons.mpr ⟨hlocal hstrict, fun b hb => ?_⟩
          have hb' := hlocals hstrict b hb
          rw [Std.ExtTreeMap.getElem?_insert,
            if_neg (by simpa using (hne b hb).1.symm)] at hb'
          exact hb'
        · exact List.forall_mem_cons.mpr ⟨hfresh, fun b hb => (hne b hb).2⟩
    · rintro ⟨hfits, hnodup, hlocal, hfresh, rfl⟩
      rw [List.forall_mem_cons] at hfits hfresh
      rw [List.map_cons, List.nodup_cons] at hnodup
      have hstep := (hf (m, owned) a _).mpr
        ⟨hfits.1, fun hstrict => hlocal hstrict a List.mem_cons_self, hfresh.1, rfl⟩
      have hne : ∀ b ∈ l, name a ≠ name b := fun b hb heq =>
        hnodup.1 (List.mem_map.mpr ⟨b, hb, heq.symm⟩)
      rw [hstep]
      refine ih.mpr ⟨hfits.2, hnodup.2, fun hstrict b hb => ?_, fun b hb => ?_, rfl⟩
      · rw [Std.ExtTreeMap.getElem?_insert, if_neg (by simpa using hne b hb)]
        exact hlocal hstrict b (List.mem_cons_of_mem _ hb)
      · rw [Std.ExtTreeMap.getElem?_insert, if_neg (by simpa using hne b hb)]
        exact hfresh.2 b hb

/-- Positions that only label errors do not matter to the success of a fold. -/
theorem foldlM_zipIdx_eq_ok {σ : Type} {f : σ → α × Nat → Except ε σ}
    (hf : ∀ s a i j s', f s (a, i) = .ok s' → f s (a, j) = .ok s') :
    ∀ {l : List α} {k : Nat} {s s' : σ},
      (l.zipIdx k).foldlM f s = .ok s' ↔ l.foldlM (fun s a => f s (a, 0)) s = .ok s' := by
  intro l
  induction l with
  | nil =>
    intro k s s'
    rfl
  | cons a l ih =>
    intro k s s'
    rw [List.zipIdx_cons, List.foldlM_cons, List.foldlM_cons]
    cases hk : f s (a, k) with
    | ok mid =>
      rw [hf s a k 0 mid hk]
      exact ih
    | error e =>
      cases h0 : f s (a, 0) with
      | ok mid =>
        rw [hf s a 0 k mid h0] at hk
        cases hk
      | error e' =>
        constructor <;> intro h <;> cases h

end Registry
