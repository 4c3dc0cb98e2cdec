import AgenticCore.Worklist
import AgenticCore.Text

/-!
# Groups of nodes closed under their referrers

A graph whose nodes are members, nodes passed through, or neither. A group is a set of members
that together with the nodes passed through holds every referrer of each of them. The search
collects the group of one seed after another, as long as what it has offered stays within a bound.

* `collect`           : the group of a seed, or what stands in its way.
* `collect_group`     : **an unblocked group is all the members that reach the seed**.
* `offerAll`          : the groups of a queue of seeds, each new member queued in its turn.
* `offerAll_isSome`   : the search ends.
* `offerAll_offers`   : **whatever is offered has a closed group of its own among the offered**.
-/

set_option autoImplicit false

namespace ClosedGroups

open Worklist

structure Graph (α : Type) where
  member : α → Bool
  through : α → Bool
  referrers : α → List α

/-- What the search of one seed has found: members, and nodes that are neither. -/
structure Found (α : Type) where
  group : List α
  blockers : List α

variable {α : Type} [LinearOrder α] (g : Graph α) (limit : Nat)

/-- The referrers the search follows. -/
def Graph.next (x : α) : List α := if g.member x || g.through x then g.referrers x else []

def Graph.enter (x : α) (group : List α) : List α := if g.member x then x :: group else group

/-- One turn of the search. It breaks off with what it has found once the group exceeds the
    bound. -/
def visit (x : α) (s : Found α) : Except (Found α) (Found α × List α) :=
  if g.member x || g.through x then
    if limit < (g.enter x s.group).length then .error { s with group := g.enter x s.group }
    else .ok ({ s with group := g.enter x s.group }, g.referrers x)
  else .ok ({ s with blockers := x :: s.blockers }, [])

def collect (fuel : Nat) (seed : α) : Option (Except (Found α) (Found α × List α)) :=
  walk (visit g limit) fuel [seed] [] ⟨[], []⟩

/-! ## One group -/

variable {g limit}

omit [LinearOrder α] in
theorem visit_ok {x : α} {s s' : Found α} {next : List α} (h : visit g limit x s = .ok (s', next)) :
    next = g.next x ∧ s'.group = g.enter x s.group ∧
      s'.blockers = (if g.member x || g.through x then s.blockers else x :: s.blockers) := by
  unfold visit at h
  unfold Graph.next
  split at h
  · rename_i hfollow
    rw [if_pos hfollow, if_pos hfollow]
    split at h
    · cases h
    · cases h
      exact ⟨rfl, rfl, rfl⟩
  · rename_i hblocked
    rw [if_neg hblocked, if_neg hblocked]
    cases h
    refine ⟨rfl, ?_, rfl⟩
    have hmember : g.member x = false := by
      simp only [Bool.not_eq_true, Bool.or_eq_false_iff] at hblocked
      exact hblocked.1
    simp [Graph.enter, hmember]

omit [LinearOrder α] in
theorem visit_error {x : α} {s s' : Found α} (h : visit g limit x s = .error s') :
    s'.group = g.enter x s.group ∧ limit < s'.group.length := by
  unfold visit at h
  split at h
  · split at h
    · rename_i hlimit
      cases h
      exact ⟨rfl, hlimit⟩
    · cases h
  · cases h

omit [LinearOrder α] in
theorem visit_follows : Follows (visit g limit) g.next := fun _ _ _ _ h => (visit_ok h).1

omit [LinearOrder α] in
/-- What a run of the search has found when it has visited the nodes of a list in turn. -/
theorem visit_folded {order : List α} {s s' : Found α}
    (h : order.foldlM (fun s x => (visit g limit x s).map Prod.fst) s = .ok s') :
    s'.group = (order.filter (g.member ·)).reverse ++ s.group ∧
      s'.blockers = (order.filter fun x => !(g.member x || g.through x)).reverse ++ s.blockers := by
  induction order generalizing s with
  | nil =>
    cases h
    exact ⟨rfl, rfl⟩
  | cons x order ih =>
    rw [List.foldlM_cons] at h
    cases hx : visit g limit x s with
    | error r =>
      rw [hx] at h
      cases h
    | ok r =>
      rw [hx] at h
      obtain ⟨hgroup, hblockers⟩ := ih h
      obtain ⟨-, hg, hb⟩ := visit_ok hx
      rw [hgroup, hblockers, hg, hb, List.filter_cons, List.filter_cons, Graph.enter]
      constructor
      · split <;> simp
      · cases hfollow : g.member x || g.through x <;> simp

/-- `x` reaches the seed through followed nodes. -/
abbrev Reaches (g : Graph α) (seed x : α) : Prop := Reach g.next seed x

/-- Nothing stands in the way of the seed's group. -/
def Clear (g : Graph α) (seed : α) : Prop :=
  ∀ x, Reaches g seed x → g.member x = true ∨ g.through x = true

omit [LinearOrder α] in
theorem reachFrom_singleton {seed x : α} : ReachFrom g.next [seed] x ↔ Reaches g seed x := by
  simp [ReachFrom]

/-- **An unblocked group is all the members that reach the seed.** -/
theorem collect_group {fuel : Nat} {seed : α} {r : Found α × List α}
    (h : collect g limit fuel seed = some (.ok r)) :
    (r.1.blockers = [] ↔ Clear g seed) ∧ r.1.group.Nodup ∧
      ∀ x, x ∈ r.1.group ↔ Reaches g seed x ∧ g.member x = true := by
  obtain ⟨order, -, V⟩ := walk_ok visit_follows h
  obtain ⟨hgroup, hblockers⟩ := visit_folded V.folded
  have hmem : ∀ x, x ∈ order ↔ Reaches g seed x := fun x =>
    (V.mem_iff x).trans reachFrom_singleton
  rw [hgroup, hblockers, List.append_nil, List.append_nil]
  refine ⟨?_, List.nodup_reverse.mpr (V.nodup.filter _), fun x => ?_⟩
  · rw [List.reverse_eq_nil_iff, List.filter_eq_nil_iff]
    constructor
    · intro hnone x hx
      have := hnone x ((hmem x).mpr hx)
      simp only [Bool.not_eq_true', Bool.not_eq_false, Bool.or_eq_true] at this
      exact this
    · intro hclear x hx
      simp only [Bool.not_eq_true', Bool.not_eq_false, Bool.or_eq_true]
      exact hclear x ((hmem x).mp hx)
  · rw [List.mem_reverse, List.mem_filter, hmem]

/-- The bound is only exceeded by members that reach the seed. -/
theorem collect_error {fuel : Nat} {seed : α} {f : Found α}
    (h : collect g limit fuel seed = some (.error f)) :
    limit < f.group.length ∧ f.group.Nodup ∧
      ∀ x ∈ f.group, Reaches g seed x ∧ g.member x = true := by
  let P : List α → Found α → Prop := fun visited s =>
    s.group.Nodup ∧ ∀ x ∈ s.group, x ∈ visited ∧ Reaches g seed x ∧ g.member x = true
  have henter : ∀ x visited (s : Found α), x ∉ visited → Reaches g seed x → P visited s →
      (g.enter x s.group).Nodup ∧
        ∀ y ∈ g.enter x s.group, (y = x ∨ y ∈ visited) ∧ Reaches g seed y ∧ g.member y = true := by
    intro x visited s hx hreach ⟨hnodup, hall⟩
    unfold Graph.enter
    split
    · rename_i hm
      refine ⟨List.nodup_cons.mpr ⟨fun hmem => hx (hall x hmem).1, hnodup⟩, fun y hy => ?_⟩
      rcases List.mem_cons.mp hy with rfl | hy
      · exact ⟨Or.inl rfl, hreach, hm⟩
      · exact ⟨Or.inr (hall y hy).1, (hall y hy).2⟩
    · exact ⟨hnodup, fun y hy => ⟨Or.inr (hall y hy).1, (hall y hy).2⟩⟩
  obtain ⟨x, visited, s, hx, hreach, hP, hv⟩ := walk_error_from (P := P) visit_follows
    (fun x visited s s' next hx hreach hP hv => by
      obtain ⟨-, hgroup, -⟩ := visit_ok hv
      obtain ⟨hnodup, hall⟩ := henter x visited s hx (reachFrom_singleton.mp hreach) hP
      refine ⟨hgroup ▸ hnodup, fun y hy => ?_⟩
      obtain ⟨hy', hrest⟩ := hall y (hgroup ▸ hy)
      exact ⟨List.mem_cons.mpr hy', hrest⟩)
    (fun p hp => ⟨p, hp, .refl⟩) ⟨List.nodup_nil, by simp⟩ h
  obtain ⟨hgroup, hlimit⟩ := visit_error hv
  obtain ⟨hnodup, hall⟩ := henter x visited s hx (reachFrom_singleton.mp hreach) hP
  exact ⟨hlimit, hgroup ▸ hnodup, fun y hy => (hall y (hgroup ▸ hy)).2⟩

/-- The search of one seed ends. -/
theorem collect_isSome {fuel : Nat} {seed : α} (nodes : Finset α) (hseed : seed ∈ nodes)
    (hclosed : ∀ x ∈ nodes, ∀ y ∈ g.referrers x, y ∈ nodes) (hfuel : nodes.card < fuel) :
    ∃ r, collect g limit fuel seed = some r := by
  refine Option.isSome_iff_exists.mp (walk_isSome visit_follows nodes ?_ ?_ ?_)
  · intro x hx y hy
    refine Or.inl (hclosed x hx y ?_)
    unfold Graph.next at hy
    split at hy
    · exact hy
    · cases hy
  · intro x hx
    exact Or.inl (List.mem_singleton.mp hx ▸ hseed)
  · simpa using hfuel

/-! ## All groups -/

/-- What has been offered, in order; the group of each seed that was, and what stood in the way of
    each that was not. -/
structure Offer (α : Type) where
  offered : List α
  required : List (α × List α)
  refused : List (α × Bool × List α)

def Offer.empty : Offer α := ⟨[], [], []⟩

variable (g limit)

/-- One seed: the group it is offered with, if it is. A refusal names its blockers, and whether the
    group exceeds the bound. -/
def offerSeed (fuel : Nat) (seed : α) (s : Offer α) : Option (Offer α × List α) :=
  match collect g limit fuel seed with
  | none => none
  | some (.error f) =>
    some ({ s with refused := s.refused ++ [(seed, true, sortDedup f.blockers)] }, [])
  | some (.ok (f, _)) =>
    if f.blockers = [] then
      let offered := sortDedup (s.offered ++ f.group)
      if offered.length ≤ limit then
        let group := sortDedup f.group
        some ({ s with offered, required := s.required ++ [(seed, group)] }, group)
      else some (s, [])
    else some ({ s with refused := s.refused ++ [(seed, false, sortDedup f.blockers)] }, [])

/-- A queue from which processed seeds are dropped, and to which each seed adds at the back. -/
def drain {σ : Type} (step : α → σ → Option (σ × List α)) :
    Nat → List α → List α → σ → Option σ
  | 0, _, _, _ => none
  | fuel + 1, queue, processed, s =>
    match queue.dropWhile (· ∈ processed) with
    | [] => some s
    | seed :: rest =>
      match step seed s with
      | none => none
      | some (s', pushed) =>
        drain step fuel (rest ++ pushed.filter (· ∉ seed :: processed)) (seed :: processed) s'

def offerAll (fuel : Nat) (seeds : List α) : Option (Offer α) :=
  drain (offerSeed g limit fuel) fuel seeds [] .empty

variable {g limit}

/-- **The queue**: what each step keeps holds at the end, where everything a step asked for has been
    processed. -/
theorem drain_ok {σ : Type} {step : α → σ → Option (σ × List α)} {Q : α → Prop}
    {I : List α → σ → Prop} (need : σ → List α)
    (hstep : ∀ seed processed s s' pushed, seed ∉ processed → Q seed → I processed s →
      step seed s = some (s', pushed) → I (seed :: processed) s' ∧ (∀ x ∈ pushed, Q x) ∧
        ∀ x ∈ need s', x ∈ need s ∨ x ∈ pushed) :
    ∀ {fuel : Nat} {queue processed : List α} {s s' : σ}, (∀ x ∈ queue, Q x) → I processed s →
      (∀ x ∈ need s, x ∈ processed ∨ x ∈ queue) → drain step fuel queue processed s = some s' →
      ∃ processed', I processed' s' ∧ ∀ x ∈ need s', x ∈ processed'
  | 0, _, _, _, _, _, _, _, h => by simp [drain] at h
  | fuel + 1, queue, processed, s, s', hQ, hI, hneed, h => by
    simp only [drain] at h
    split at h
    · rename_i hnil
      cases h
      refine ⟨processed, hI, fun x hx => ?_⟩
      rcases hneed x hx with hx | hx
      · exact hx
      · exact mem_of_dropWhile_nil hnil x hx
    · rename_i seed rest hcons
      obtain ⟨hseed, hqueue, hrest, hcover⟩ := dropWhile_cons hcons
      split at h
      · cases h
      · rename_i s₁ pushed hs
        obtain ⟨hI', hQ', hneed'⟩ := hstep seed processed s s₁ pushed hseed (hQ seed hqueue) hI hs
        refine drain_ok need hstep ?_ hI' ?_ h
        · intro x hx
          rcases List.mem_append.mp hx with hx | hx
          · exact hQ x (hrest x hx)
          · exact hQ' x (List.mem_filter.mp hx).1
        · intro x hx
          by_cases hprocessed : x ∈ seed :: processed
          · exact Or.inl hprocessed
          refine Or.inr (List.mem_append.mpr ?_)
          rcases hneed' x hx with hx | hx
          · rcases hneed x hx with hx | hx
            · exact absurd (List.mem_cons_of_mem _ hx) hprocessed
            · rcases hcover x hx with hx | rfl | hx
              · exact absurd (List.mem_cons_of_mem _ hx) hprocessed
              · exact absurd List.mem_cons_self hprocessed
              · exact Or.inl hx
          · exact Or.inr (List.mem_filter.mpr ⟨hx, by simpa using hprocessed⟩)

/-- A queue over a finite set ends. -/
theorem drain_isSome {σ : Type} {step : α → σ → Option (σ × List α)} (nodes : Finset α)
    (hstep : ∀ seed ∈ nodes, ∀ s, ∃ s' pushed, step seed s = some (s', pushed) ∧
      ∀ x ∈ pushed, x ∈ nodes) :
    ∀ {fuel : Nat} {queue processed : List α} {s : σ}, (∀ x ∈ queue, x ∈ nodes) →
      (nodes \ processed.toFinset).card < fuel → ∃ s', drain step fuel queue processed s = some s'
  | 0, _, _, _, _, h => by omega
  | fuel + 1, queue, processed, s, hqueue, h => by
    simp only [drain]
    split
    · exact ⟨s, rfl⟩
    · rename_i seed rest hcons
      obtain ⟨hseed, hmem, hrest, -⟩ := dropWhile_cons hcons
      obtain ⟨s₁, pushed, hs, hpushed⟩ := hstep seed (hqueue seed hmem) s
      rw [hs]
      apply drain_isSome nodes hstep
      · intro x hx
        rcases List.mem_append.mp hx with hx | hx
        · exact hqueue x (hrest x hx)
        · exact hpushed x (List.mem_filter.mp hx).1
      · have hlt : (nodes \ (seed :: processed).toFinset).card <
            (nodes \ processed.toFinset).card := by
          apply Finset.card_lt_card
          rw [Finset.ssubset_iff_of_subset]
          · exact ⟨seed, by simp [hqueue seed hmem, hseed], by simp⟩
          · intro y hy
            simp only [List.toFinset_cons, Finset.mem_sdiff, Finset.mem_insert, List.mem_toFinset,
              not_or] at hy ⊢
            exact ⟨hy.1, hy.2.2⟩
        omega

/-- A member that nothing refers to is offered alone. -/
theorem offerAll_alone {fuel : Nat} {x : α} (hmember : g.member x = true)
    (halone : g.referrers x = []) (hlimit : 0 < limit) :
    offerAll g limit (fuel + 2) [x] = some ⟨[x], [(x, [x])], []⟩ := by
  have hsort : sortDedup [x] = [x] := by simp [sortDedup, dedupRuns]
  have hnot : ¬ limit < 1 := by omega
  have hle : 1 ≤ limit := hlimit
  simp [offerAll, drain, offerSeed, collect, Worklist.walk, visit, hmember, halone, Graph.enter,
    Offer.empty, hsort, hnot, hle]

/-- The seed cannot be offered, now or later: a node in its way, or more members than the bound
    admits. -/
def Stuck (g : Graph α) (limit : Nat) (s : Offer α) (seed : α) : Prop :=
  ¬ Clear g seed ∨ ∃ l : List α, l.Nodup ∧ limit < l.length ∧
    ∀ x ∈ l, x ∈ s.offered ∨ Reaches g seed x ∧ g.member x = true

/-- A group with all its members, unblocked and offered. -/
structure Complete (g : Graph α) (offered : List α) (seed : α) (group : List α) : Prop where
  clear : Clear g seed
  mem_iff : ∀ x, x ∈ group ↔ Reaches g seed x ∧ g.member x = true
  offered : ∀ x ∈ group, x ∈ offered

/-- What the search keeps, seed by seed. -/
structure Offered (g : Graph α) (limit : Nat) (processed : List α) (s : Offer α) : Prop where
  nodup : s.offered.Nodup
  bound : s.offered.length ≤ limit
  complete : ∀ e ∈ s.required, Complete g s.offered e.1 e.2
  covered : ∀ x ∈ s.offered, ∃ e ∈ s.required, x ∈ e.2
  keys : ∀ e ∈ s.required, e.1 ∈ processed
  distinct : (s.required.map Prod.fst).Nodup
  settled : ∀ x ∈ processed, (∃ e ∈ s.required, e.1 = x) ∨ Stuck g limit s x

omit [LinearOrder α] in
theorem Stuck.mono {s s' : Offer α} {seed : α} (hsub : ∀ x ∈ s.offered, x ∈ s'.offered)
    (h : Stuck g limit s seed) : Stuck g limit s' seed :=
  h.imp_right fun ⟨l, hnodup, hlimit, hall⟩ =>
    ⟨l, hnodup, hlimit, fun x hx => (hall x hx).imp_left (hsub x)⟩

omit [LinearOrder α] in
/-- What is offered is not stuck: its group is among the offered. -/
theorem Offered.not_stuck {processed : List α} {s : Offer α} (O : Offered g limit processed s)
    {x : α} (hx : x ∈ s.offered) : ¬ Stuck g limit s x := by
  obtain ⟨e, he, hxe⟩ := O.covered x hx
  have C := O.complete e he
  have hreach := ((C.mem_iff x).mp hxe).1
  rintro (hblocked | ⟨l, hnodup, hlimit, hall⟩)
  · exact hblocked fun y hy => C.clear y (hreach.trans hy)
  · have hsub : l ⊆ s.offered := by
      intro y hy
      rcases hall y hy with hy | ⟨hy, hm⟩
      · exact hy
      · exact C.offered y ((C.mem_iff y).mpr ⟨hreach.trans hy, hm⟩)
    have hle := (hnodup.subperm hsub).length_le
    have := O.bound
    omega

omit [LinearOrder α] in
/-- A refused or postponed seed is stuck; nothing else changes. -/
theorem Offered.skip {processed : List α} {s s' : Offer α} (O : Offered g limit processed s)
    {seed : α} (hoffered : s'.offered = s.offered) (hrequired : s'.required = s.required)
    (hstuck : Stuck g limit s seed) : Offered g limit (seed :: processed) s' where
  nodup := hoffered ▸ O.nodup
  bound := hoffered ▸ O.bound
  complete := by
    rw [hoffered, hrequired]
    exact O.complete
  covered := by
    rw [hoffered, hrequired]
    exact O.covered
  keys := fun e he => List.mem_cons_of_mem _ (O.keys e (hrequired ▸ he))
  distinct := hrequired ▸ O.distinct
  settled := by
    intro x hx
    have hmono : ∀ {y}, Stuck g limit s y → Stuck g limit s' y := fun h =>
      h.mono (fun z hz => hoffered ▸ hz)
    rw [hrequired]
    rcases List.mem_cons.mp hx with rfl | hx
    · exact Or.inr (hmono hstuck)
    · exact (O.settled x hx).imp_right hmono

/-- An offered seed brings its group with it. -/
theorem Offered.extend {processed : List α} {s : Offer α} (O : Offered g limit processed s)
    {seed : α} {group : List α} (hseed : seed ∉ processed) (hclear : Clear g seed)
    (hgroup : ∀ x, x ∈ group ↔ Reaches g seed x ∧ g.member x = true)
    (hbound : (sortDedup (s.offered ++ group)).length ≤ limit) :
    Offered g limit (seed :: processed) { s with
      offered := sortDedup (s.offered ++ group)
      required := s.required ++ [(seed, sortDedup group)] } where
  nodup := nodup_sortDedup _
  bound := hbound
  complete := by
    intro e he
    rcases List.mem_append.mp he with he | he
    · have C := O.complete e he
      exact ⟨C.clear, C.mem_iff, fun x hx =>
        mem_sortDedup.mpr (List.mem_append_left _ (C.offered x hx))⟩
    · obtain rfl := List.mem_singleton.mp he
      refine ⟨hclear, fun x => mem_sortDedup.trans (hgroup x), fun x hx => ?_⟩
      exact mem_sortDedup.mpr (List.mem_append_right _ (mem_sortDedup.mp hx))
  covered := by
    intro x hx
    rcases List.mem_append.mp (mem_sortDedup.mp hx) with hx | hx
    · obtain ⟨e, he, hxe⟩ := O.covered x hx
      exact ⟨e, List.mem_append_left _ he, hxe⟩
    · exact ⟨_, List.mem_append_right _ List.mem_cons_self, mem_sortDedup.mpr hx⟩
  keys := by
    intro e he
    rcases List.mem_append.mp he with he | he
    · exact List.mem_cons_of_mem _ (O.keys e he)
    · obtain rfl := List.mem_singleton.mp he
      exact List.mem_cons_self
  distinct := by
    rw [List.map_append, List.map_singleton, List.nodup_append]
    refine ⟨O.distinct, List.nodup_singleton _, ?_⟩
    intro x hx y hy heq
    obtain ⟨e, he, rfl⟩ := List.mem_map.mp hx
    obtain rfl := List.mem_singleton.mp hy
    have hkey := O.keys e he
    rw [heq] at hkey
    exact hseed hkey
  settled := by
    intro x hx
    rcases List.mem_cons.mp hx with rfl | hx
    · exact Or.inl ⟨_, List.mem_append_right _ List.mem_cons_self, rfl⟩
    · refine (O.settled x hx).imp ?_ ?_
      · rintro ⟨e, he, rfl⟩
        exact ⟨e, List.mem_append_left _ he, rfl⟩
      · exact Stuck.mono fun y hy => mem_sortDedup.mpr (List.mem_append_left _ hy)

theorem offerSeed_offered {fuel : Nat} {seed : α} {processed : List α} {s s' : Offer α}
    {pushed : List α} (hseed : seed ∉ processed) (O : Offered g limit processed s)
    (h : offerSeed g limit fuel seed s = some (s', pushed)) :
    Offered g limit (seed :: processed) s' ∧ (∀ x ∈ pushed, g.member x = true) ∧
      ∀ x ∈ s'.offered, x ∈ s.offered ∨ x ∈ pushed := by
  unfold offerSeed at h
  split at h
  · cases h
  · rename_i f hf
    obtain ⟨hlimit, hnodup, hall⟩ := collect_error hf
    cases h
    refine ⟨O.skip rfl rfl (Or.inr ⟨f.group, hnodup, hlimit, fun x hx => Or.inr (hall x hx)⟩),
      by simp, fun x hx => Or.inl hx⟩
  · rename_i f visited hf
    obtain ⟨hclear, hnodup, hgroup⟩ := collect_group hf
    split at h
    · rename_i hnone
      simp only at h
      split at h
      · rename_i hbound
        cases h
        refine ⟨O.extend hseed (hclear.mp hnone) hgroup hbound, fun x hx => ?_, fun x hx => ?_⟩
        · exact ((hgroup x).mp (mem_sortDedup.mp hx)).2
        · rw [mem_sortDedup]
          exact List.mem_append.mp (mem_sortDedup.mp hx)
      · rename_i hbound
        cases h
        refine ⟨O.skip rfl rfl (Or.inr ⟨_, nodup_sortDedup _, not_le.mp hbound,
          fun x hx => ?_⟩), by simp, fun x hx => Or.inl hx⟩
        rw [mem_sortDedup] at hx
        exact (List.mem_append.mp hx).imp_right (hgroup x).mp
    · rename_i hblocked
      cases h
      exact ⟨O.skip rfl rfl (Or.inl fun h => hblocked (hclear.mpr h)), by simp,
        fun x hx => Or.inl hx⟩

/-- **Whatever is offered has a closed group of its own among the offered.** -/
theorem offerAll_offers {fuel : Nat} {seeds : List α} (hseeds : ∀ x ∈ seeds, g.member x = true)
    {s : Offer α} (h : offerAll g limit fuel seeds = some s) :
    (∃ processed, Offered g limit processed s) ∧ ∀ x ∈ s.offered, ∃ e ∈ s.required, e.1 = x := by
  have hempty : Offered g limit [] (Offer.empty : Offer α) :=
    ⟨List.nodup_nil, Nat.zero_le _, by simp [Offer.empty], by simp [Offer.empty],
      by simp [Offer.empty], by simp [Offer.empty], by simp⟩
  obtain ⟨processed, O, hneed⟩ := drain_ok (Q := (g.member · = true)) (I := Offered g limit)
    Offer.offered (fun seed processed s s' pushed hseed _ hO hs =>
      offerSeed_offered hseed hO hs) hseeds hempty (by simp [Offer.empty]) h
  refine ⟨⟨processed, O⟩, fun x hx => ?_⟩
  rcases O.settled x (hneed x hx) with hrequired | hstuck
  · exact hrequired
  · exact absurd hstuck (O.not_stuck hx)

/-- The search ends, with a unit of fuel for each node and one more. -/
theorem offerAll_isSome {fuel : Nat} {seeds : List α} (nodes : Finset α)
    (hseeds : ∀ x ∈ seeds, x ∈ nodes) (hmember : ∀ x, g.member x = true → x ∈ nodes)
    (hclosed : ∀ x ∈ nodes, ∀ y ∈ g.referrers x, y ∈ nodes) (hfuel : nodes.card < fuel) :
    ∃ s, offerAll g limit fuel seeds = some s := by
  refine drain_isSome nodes ?_ hseeds (by simpa using hfuel)
  intro seed hseed s
  obtain ⟨r, hr⟩ : ∃ r, collect g limit fuel seed = some r :=
    collect_isSome nodes hseed hclosed hfuel
  unfold offerSeed
  rw [hr]
  cases r with
  | error f => exact ⟨_, [], rfl, by simp⟩
  | ok r =>
    obtain ⟨-, -, hgroup⟩ := collect_group hr
    simp only
    split
    · split
      · refine ⟨_, _, rfl, fun x hx => ?_⟩
        exact hmember x ((hgroup x).mp (mem_sortDedup.mp hx)).2
      · exact ⟨_, [], rfl, by simp⟩
    · exact ⟨_, [], rfl, by simp⟩

end ClosedGroups
