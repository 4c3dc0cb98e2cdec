import AgenticCore.Json

/-!
# Dependency currentness (`dependency_binding.rs`)

* `compare`           : an accepted basis compared with the current one.
* `Matched`           : an observation the accepted basis has exactly once, as it is now.
* `SameBasis`         : the bases a conclusion stays current on.
* `compare_current`   : **the status is current on the same basis only**,
* `compare_otherwise` : and otherwise names a missing or unavailable observation, or a change.
-/

set_option autoImplicit false

namespace AgenticCore

namespace DependencyBinding

open Json

/-! ## The comparison -/

inductive Scheme where
  | rawBytes
  | universalNewlineUtf8
  deriving DecidableEq, Repr

inductive Currentness where
  | current
  | changed
  | missing
  | unavailable
  | unassessed
  deriving DecidableEq, Repr

structure Observation where
  identity : String
  scheme : Scheme
  revision : Option String
  status : Currentness
  deriving DecidableEq, Repr

/-- A conclusion and the observations it rests on, in the order its owner declares. -/
structure Basis where
  conclusion : Value
  dependencies : List Observation

structure Comparison where
  status : Currentness
  changed : List String
  membershipChanged : Bool
  deriving DecidableEq, Repr

/-- The accepted basis has this observation exactly once, as it is now, and it is current. -/
def Matched (accepted : List Observation) (o : Observation) : Prop :=
  o.status = .current ∧ accepted.filter (·.identity = o.identity) = [o]

instance (accepted : List Observation) (o : Observation) : Decidable (Matched accepted o) :=
  inferInstanceAs (Decidable (_ ∧ _))

/-- The status after an observation that does not match. -/
def unmatchedStatus (o : Observation) (status : Currentness) : Currentness :=
  match o.status with
  | .missing => .missing
  | .unavailable => .unavailable
  | _ => if status = .current then .changed else status

/-- One observation of the current basis: the changed identities and the status so far. -/
def compareOne (accepted : List Observation) (state : List String × Currentness)
    (o : Observation) : List String × Currentness :=
  if Matched accepted o then state
  else (state.1 ++ [o.identity], unmatchedStatus o state.2)

/-- The accepted observations whose identity is no longer declared. -/
def dropped (current accepted : List Observation) : List String :=
  (accepted.filter fun o => ¬∃ c ∈ current, c.identity = o.identity).map (·.identity)

/-- `compare`. -/
def compare (current : Basis) (accepted : Option Basis) : Comparison :=
  match accepted with
  | none =>
    { status := .unassessed
      changed := current.dependencies.map (·.identity)
      membershipChanged := true }
  | some accepted =>
    let (changed, status) :=
      current.dependencies.foldl (compareOne accepted.dependencies) ([], .current)
    let changed := changed ++ dropped current.dependencies accepted.dependencies
    let membershipChanged : Bool :=
      current.dependencies.length ≠ accepted.dependencies.length ∨
        current.dependencies.map (·.identity) ≠ accepted.dependencies.map (·.identity)
    { status :=
        if status = .current ∧
            (membershipChanged = true ∨ changed ≠ [] ∨ current.conclusion ≠ accepted.conclusion)
        then .changed else status
      changed
      membershipChanged }

/-! ## One pass over the current observations -/

theorem unmatchedStatus_ne_current (o : Observation) (status : Currentness) :
    unmatchedStatus o status ≠ .current := by
  unfold unmatchedStatus
  split
  · exact Currentness.noConfusion
  · exact Currentness.noConfusion
  · split
    · exact Currentness.noConfusion
    · assumption

/-- What the status says after some of the observations: all matched, one has the status, or one
    has changed. -/
def StatusOf (accepted done : List Observation) (state : List String × Currentness) : Prop :=
  (state = ([], .current) ∧ ∀ o ∈ done, Matched accepted o) ∨
    (state.2 ≠ .current ∧ ∃ o ∈ done, ¬Matched accepted o) ∧
      ((state.2 = .missing ∨ state.2 = .unavailable) ∧ (∃ o ∈ done, o.status = state.2) ∨
        state.2 = .changed)

theorem compareOne_statusOf {accepted done : List Observation} {state : List String × Currentness}
    (h : StatusOf accepted done state) (o : Observation) :
    StatusOf accepted (done ++ [o]) (compareOne accepted state o) := by
  have hmem : ∀ {p : Observation → Prop}, (∃ x ∈ done, p x) → ∃ x ∈ done ++ [o], p x :=
    fun ⟨x, hx, hp⟩ => ⟨x, List.mem_append_left _ hx, hp⟩
  have hlast : o ∈ done ++ [o] := List.mem_append_right _ (List.mem_singleton_self o)
  unfold compareOne
  split
  · rename_i hmatched
    rcases h with ⟨hstate, hall⟩ | ⟨⟨hne, hex⟩, hstatus⟩
    · refine Or.inl ⟨hstate, fun x hx => ?_⟩
      rcases List.mem_append.mp hx with hx | hx
      · exact hall x hx
      · rwa [List.mem_singleton.mp hx]
    · exact Or.inr ⟨⟨hne, hmem hex⟩, hstatus.imp (fun ⟨hs, he⟩ => ⟨hs, hmem he⟩) id⟩
  · rename_i hmatched
    refine Or.inr ⟨⟨unmatchedStatus_ne_current _ _, o, hlast, hmatched⟩, ?_⟩
    show (unmatchedStatus o state.2 = _ ∨ _) ∧ _ ∨ _
    unfold unmatchedStatus
    split
    · rename_i hs
      exact Or.inl ⟨Or.inl rfl, o, hlast, hs⟩
    · rename_i hs
      exact Or.inl ⟨Or.inr rfl, o, hlast, hs⟩
    · split
      · exact Or.inr rfl
      · rename_i hne
        rcases h with ⟨hstate, -⟩ | ⟨-, hstatus⟩
        · rw [hstate] at hne
          exact absurd rfl hne
        · exact hstatus.imp (fun ⟨hs, he⟩ => ⟨hs, hmem he⟩) id

theorem foldl_compareOne_statusOf (accepted : List Observation) :
    ∀ (l done : List Observation) (state : List String × Currentness),
      StatusOf accepted done state →
        StatusOf accepted (done ++ l) (l.foldl (compareOne accepted) state)
  | [], done, state, h => by simpa using h
  | o :: l, done, state, h => by
    have := foldl_compareOne_statusOf accepted l (done ++ [o]) _ (compareOne_statusOf h o)
    rwa [List.append_assoc, List.singleton_append] at this

theorem statusOf_foldl (accepted current : List Observation) :
    StatusOf accepted current (current.foldl (compareOne accepted) ([], .current)) := by
  have := foldl_compareOne_statusOf accepted current [] ([], .current)
    (Or.inl ⟨rfl, fun o h => absurd h List.not_mem_nil⟩)
  rwa [List.nil_append] at this

/-! ## The same basis -/

/-- The bases a conclusion stays current on: the same conclusion and the same observations in the
    same order, each current and under an identity of its own. -/
structure SameBasis (current accepted : Basis) : Prop where
  conclusion : current.conclusion = accepted.conclusion
  dependencies : current.dependencies = accepted.dependencies
  distinct : (current.dependencies.map (·.identity)).Nodup
  allCurrent : ∀ o ∈ current.dependencies, o.status = .current

theorem filter_identity {l : List Observation} (h : (l.map (·.identity)).Nodup) {o : Observation}
    (ho : o ∈ l) : l.filter (·.identity = o.identity) = [o] := by
  induction l with
  | nil => cases ho
  | cons x l ih =>
    rw [List.map_cons, List.nodup_cons] at h
    have hother : ∀ y ∈ l, y.identity ≠ x.identity :=
      fun y hy heq => h.1 (heq ▸ List.mem_map_of_mem hy)
    rcases List.mem_cons.mp ho with rfl | hmem
    · rw [List.filter_cons_of_pos (by simp), List.filter_eq_nil_iff.mpr]
      intro y hy
      simpa using hother y hy
    · rw [List.filter_cons_of_neg (by simpa using (hother o hmem).symm)]
      exact ih h.2 hmem

/-- Observations that each stand alone under their identity have identities of their own. -/
theorem nodup_of_filter {l : List Observation}
    (h : ∀ o ∈ l, l.filter (·.identity = o.identity) = [o]) : (l.map (·.identity)).Nodup := by
  induction l with
  | nil => exact List.nodup_nil
  | cons x l ih =>
    have htail : l.filter (·.identity = x.identity) = [] := by
      have := h x List.mem_cons_self
      rw [List.filter_cons_of_pos (by simp)] at this
      exact (List.cons.inj this).2
    have hne : ∀ y ∈ l, y.identity ≠ x.identity := by
      intro y hy heq
      have := List.filter_eq_nil_iff.mp htail y hy
      simp [heq] at this
    rw [List.map_cons, List.nodup_cons]
    constructor
    · intro hmem
      obtain ⟨y, hy, heq⟩ := List.mem_map.mp hmem
      exact hne y hy heq
    · apply ih
      intro o ho
      have := h o (List.mem_cons_of_mem x ho)
      rwa [List.filter_cons_of_neg (by simpa using (hne o ho).symm)] at this

/-- Lists under the same identities whose observations all match are the same. -/
theorem eq_of_matched {current accepted : List Observation}
    (hidentities : current.map (·.identity) = accepted.map (·.identity))
    (h : ∀ o ∈ current, Matched accepted o) : current = accepted := by
  apply List.ext_getElem (by simpa using congrArg List.length hidentities)
  intro i hi hi'
  have hidentity : current[i].identity = accepted[i].identity := by
    have := List.getElem_of_eq hidentities (by simpa using hi)
    rwa [List.getElem_map, List.getElem_map] at this
  have hmem : accepted[i] ∈ accepted.filter (·.identity = current[i].identity) :=
    List.mem_filter.mpr ⟨List.getElem_mem hi', by simp [hidentity]⟩
  rw [(h _ (List.getElem_mem hi)).2] at hmem
  exact (List.mem_singleton.mp hmem).symm

theorem dropped_self (l : List Observation) : dropped l l = [] := by
  unfold dropped
  rw [List.filter_eq_nil_iff.mpr, List.map_nil]
  intro o ho
  simpa using ⟨o, ho, rfl⟩

theorem SameBasis.matched {current accepted : Basis} (h : SameBasis current accepted) :
    ∀ o ∈ current.dependencies, Matched accepted.dependencies o := by
  intro o ho
  refine ⟨h.allCurrent o ho, ?_⟩
  rw [← h.dependencies]
  exact filter_identity h.distinct ho

theorem SameBasis.of_matched {current accepted : Basis}
    (hconclusion : current.conclusion = accepted.conclusion)
    (hidentities : current.dependencies.map (·.identity) = accepted.dependencies.map (·.identity))
    (h : ∀ o ∈ current.dependencies, Matched accepted.dependencies o) :
    SameBasis current accepted := by
  have hlists := eq_of_matched hidentities h
  refine ⟨hconclusion, hlists, nodup_of_filter ?_, fun o ho => (h o ho).1⟩
  intro o ho
  have := (h o ho).2
  rwa [← hlists] at this

/-! ## What the status says -/

/-- The comparison of a basis that was accepted, with the fold's outcome named. -/
theorem compare_some (current accepted : Basis) :
    ∃ state, StatusOf accepted.dependencies current.dependencies state ∧
      (compare current (some accepted)).status =
        if state.2 = .current ∧
          ((current.dependencies.length ≠ accepted.dependencies.length ∨
              current.dependencies.map (·.identity) ≠ accepted.dependencies.map (·.identity)) ∨
            state.1 ++ dropped current.dependencies accepted.dependencies ≠ [] ∨
            current.conclusion ≠ accepted.conclusion)
        then .changed else state.2 :=
  ⟨_, statusOf_foldl _ _, by simp only [compare, decide_eq_true_eq]⟩

theorem compare_current (current accepted : Basis) :
    (compare current (some accepted)).status = .current ↔ SameBasis current accepted := by
  obtain ⟨state, hstate, heq⟩ := compare_some current accepted
  rw [heq]
  constructor
  · intro h
    split at h
    · cases h
    · rename_i hno
      have hsame := not_and.mp hno h
      rw [not_or, not_or, not_or] at hsame
      obtain ⟨⟨-, hidentities⟩, -, hconclusion⟩ := hsame
      rcases hstate with ⟨-, hall⟩ | ⟨⟨hne, -⟩, -⟩
      · exact .of_matched (not_not.mp hconclusion) (not_not.mp hidentities) hall
      · exact absurd h hne
  · intro h
    rcases hstate with ⟨hinit, -⟩ | ⟨⟨-, o, ho, hnot⟩, -⟩
    · rw [hinit, if_neg]
      rintro ⟨-, hchanged⟩
      rw [h.dependencies, dropped_self] at hchanged
      simp [h.conclusion] at hchanged
    · exact absurd (h.matched o ho) hnot

theorem compare_not_current {current accepted : Basis}
    (h : (compare current (some accepted)).status ≠ .current) :
    (((compare current (some accepted)).status = .missing ∨
        (compare current (some accepted)).status = .unavailable) ∧
      ∃ o ∈ current.dependencies, o.status = (compare current (some accepted)).status) ∨
    (compare current (some accepted)).status = .changed := by
  obtain ⟨state, hstate, heq⟩ := compare_some current accepted
  rw [heq] at h ⊢
  split
  · exact Or.inr rfl
  · rename_i hno
    rw [if_neg hno] at h
    rcases hstate with ⟨hinit, -⟩ | ⟨-, hstatus⟩
    · rw [hinit] at h
      exact absurd rfl h
    · exact hstatus

/-- **Currentness is exact: the status is current on the same basis only, and otherwise it is that
    of a missing or unavailable observation of the current basis, or a change.** -/
theorem compare_exact (current accepted : Basis) :
    ((compare current (some accepted)).status = .current ↔
      current.conclusion = accepted.conclusion ∧ current.dependencies = accepted.dependencies ∧
        (current.dependencies.map (·.identity)).Nodup ∧
        ∀ o ∈ current.dependencies, o.status = .current) ∧
    ((compare current (some accepted)).status ≠ .current →
      (((compare current (some accepted)).status = .missing ∨
          (compare current (some accepted)).status = .unavailable) ∧
        ∃ o ∈ current.dependencies, o.status = (compare current (some accepted)).status) ∨
      (compare current (some accepted)).status = .changed) := by
  refine ⟨?_, compare_not_current⟩
  rw [compare_current]
  constructor
  · rintro ⟨hconclusion, hdependencies, hdistinct, hcurrent⟩
    exact ⟨hconclusion, hdependencies, hdistinct, hcurrent⟩
  · rintro ⟨hconclusion, hdependencies, hdistinct, hcurrent⟩
    exact ⟨hconclusion, hdependencies, hdistinct, hcurrent⟩

end DependencyBinding

end AgenticCore
