import Mathlib.Data.Finset.Card
import Mathlib.Data.List.TakeWhile
import Mathlib.Logic.Relation
import Mathlib.Tactic.Tauto

/-!
# Worklist traversal of a graph

The loop

    while let Some(x) = pending.pop() {
        if !visited.insert(x) { continue; }
        ...visit x, which may leave the loop...
        pending.extend(successors of x);
    }

over an arbitrary node type, an arbitrary loop state and an arbitrary early exit.

* `walk`          : the loop; `none` is exhausted fuel, `some (.error r)` the early exit `r`.
* `walk_ok`       : an exit through an empty worklist has visited exactly the nodes reachable
                    from the worklist, each once, and folded `visit` over them.
* `walk_error`    : an early exit happened at a reachable node.
* `walk_error_from` : and with a loop state that every visit before it kept in order.
* `walk_isSome`   : one unit of fuel for each node that does not leave the loop is enough.
-/

set_option autoImplicit false

namespace Worklist

variable {α σ ρ : Type*}

/-- `y` is reached from `x` by zero or more successor steps. -/
abbrev Reach (succ : α → List α) : α → α → Prop :=
  Relation.ReflTransGen fun a b => b ∈ succ a

/-- `x` is reached from some node of the list. -/
def ReachFrom (succ : α → List α) (from_ : List α) (x : α) : Prop :=
  ∃ p ∈ from_, Reach succ p x

variable [DecidableEq α]

/-- The loop. The head of `pending` is the top of the stack, so pushing `next` in order
    leaves its last element on top. Popped nodes already visited cost no fuel. -/
def walk (visit : α → σ → Except ρ (σ × List α)) :
    Nat → List α → List α → σ → Option (Except ρ (σ × List α))
  | 0, _, _, _ => none
  | fuel + 1, pending, visited, s =>
    match pending.dropWhile (· ∈ visited) with
    | [] => some (.ok (s, visited))
    | x :: rest =>
      match visit x s with
      | .error r => some (.error r)
      | .ok (s', next) => walk visit fuel (next.reverse ++ rest) (x :: visited) s'

/-- `visit` reports the successors given by `succ`, whatever the loop state is. -/
def Follows (visit : α → σ → Except ρ (σ × List α)) (succ : α → List α) : Prop :=
  ∀ x s s' next, visit x s = .ok (s', next) → next = succ x

theorem mem_of_dropWhile_nil {pending visited : List α}
    (h : pending.dropWhile (· ∈ visited) = []) : ∀ x ∈ pending, x ∈ visited := by
  have := List.dropWhile_eq_nil_iff.mp h
  simpa using this

theorem dropWhile_cons {pending visited rest : List α} {x : α}
    (h : pending.dropWhile (· ∈ visited) = x :: rest) :
    x ∉ visited ∧ x ∈ pending ∧ (∀ y ∈ rest, y ∈ pending) ∧
      ∀ y ∈ pending, y ∈ visited ∨ y = x ∨ y ∈ rest := by
  have hsplit := List.takeWhile_append_dropWhile (p := fun y => decide (y ∈ visited)) (l := pending)
  rw [h] at hsplit
  have hx : x ∉ visited := by
    have := List.head_dropWhile_not (fun y => decide (y ∈ visited)) (l := pending) (by rw [h]; simp)
    simpa [h] using this
  refine ⟨hx, by rw [← hsplit]; simp, fun y hy => by rw [← hsplit]; simp [hy], ?_⟩
  intro y hy
  rw [← hsplit, List.mem_append, List.mem_cons] at hy
  rcases hy with hy | hy | hy
  · have := List.mem_takeWhile_imp hy
    exact Or.inl (by simpa using this)
  · exact Or.inr (Or.inl hy)
  · exact Or.inr (Or.inr hy)

/-- What the loop has done when its worklist ran empty: `order` are the nodes visited, in
    the order of their visits. -/
structure Visited (visit : α → σ → Except ρ (σ × List α)) (succ : α → List α)
    (pending visited : List α) (s : σ) (order : List α) (s' : σ) : Prop where
  nodup : order.Nodup
  fresh : ∀ x ∈ order, x ∉ visited
  folded : order.foldlM (fun s x => (visit x s).map Prod.fst) s = .ok s'
  start : ∀ x ∈ pending, x ∈ visited ∨ x ∈ order
  closed : ∀ x ∈ order, ∀ y ∈ succ x, y ∈ visited ∨ y ∈ order
  reached : ∀ x ∈ order, ReachFrom succ pending x

theorem walk_ok {visit : α → σ → Except ρ (σ × List α)} {succ : α → List α}
    (hf : Follows visit succ) :
    ∀ {fuel : Nat} {pending visited : List α} {s : σ} {r : σ × List α},
      walk visit fuel pending visited s = some (.ok r) →
        ∃ order, r.2 = order.reverse ++ visited ∧
          Visited visit succ pending visited s order r.1
  | 0, _, _, _, _, h => by simp [walk] at h
  | fuel + 1, pending, visited, s, r, h => by
    simp only [walk] at h
    split at h
    · rename_i hnil
      cases h
      refine ⟨[], by simp, List.nodup_nil, by simp, rfl, ?_, by simp, by simp⟩
      exact fun x hx => Or.inl (mem_of_dropWhile_nil hnil x hx)
    · rename_i x rest hcons
      obtain ⟨hx, hxp, hrest, hcover⟩ := dropWhile_cons hcons
      split at h
      · cases h
      · rename_i s' next hv
        have hnext := hf x s s' next hv
        subst hnext
        obtain ⟨order, hr, V⟩ := walk_ok hf h
        have hxo : x ∉ order := fun hmem => V.fresh x hmem List.mem_cons_self
        refine ⟨x :: order, by simp [hr], ⟨List.nodup_cons.mpr ⟨hxo, V.nodup⟩, ?_, ?_, ?_, ?_, ?_⟩⟩
        · intro y hy
          rcases List.mem_cons.mp hy with rfl | hy
          · exact hx
          · exact fun hyv => V.fresh y hy (List.mem_cons_of_mem _ hyv)
        · rw [List.foldlM_cons, hv]
          exact V.folded
        · intro y hy
          rcases hcover y hy with hyv | rfl | hyr
          · exact Or.inl hyv
          · exact Or.inr List.mem_cons_self
          · have := V.start y (List.mem_append_right _ hyr)
            simp only [List.mem_cons] at this ⊢
            tauto
        · intro y hy z hz
          rcases List.mem_cons.mp hy with rfl | hy
          · have := V.start z (List.mem_append_left _ (List.mem_reverse.mpr hz))
            simp only [List.mem_cons] at this ⊢
            tauto
          · have := V.closed y hy z hz
            simp only [List.mem_cons] at this ⊢
            tauto
        · intro y hy
          rcases List.mem_cons.mp hy with rfl | hy
          · exact ⟨y, hxp, .refl⟩
          · obtain ⟨p, hp, hreach⟩ := V.reached y hy
            rcases List.mem_append.mp hp with hp | hp
            · exact ⟨x, hxp, .head (List.mem_reverse.mp hp) hreach⟩
            · exact ⟨p, hrest p hp, hreach⟩

omit [DecidableEq α] in
/-- Started with nothing visited, the nodes visited are exactly the nodes reachable from
    the worklist. -/
theorem Visited.mem_iff {visit : α → σ → Except ρ (σ × List α)} {succ : α → List α}
    {pending order : List α} {s s' : σ} (V : Visited visit succ pending [] s order s') (x : α) :
    x ∈ order ↔ ReachFrom succ pending x := by
  refine ⟨V.reached x, ?_⟩
  rintro ⟨p, hp, hreach⟩
  induction hreach with
  | refl => simpa using V.start p hp
  | tail _ hstep ih => simpa using V.closed _ ih _ hstep

omit [DecidableEq α] in
/-- No visited node took the early exit. -/
theorem Visited.visit_ok {visit : α → σ → Except ρ (σ × List α)} {succ : α → List α}
    {pending visited order : List α} {s s' : σ} (V : Visited visit succ pending visited s order s') :
    ∀ x ∈ order, ∃ t r, visit x t = .ok r := by
  have hfold := V.folded
  clear V
  induction order generalizing s with
  | nil => simp
  | cons y order ih =>
    rw [List.foldlM_cons] at hfold
    cases hy : visit y s with
    | error r => rw [hy] at hfold; cases hfold
    | ok r =>
      rw [hy] at hfold
      intro x hx
      rcases List.mem_cons.mp hx with rfl | hx
      · exact ⟨s, r, hy⟩
      · exact ih hfold x hx

theorem walk_error {visit : α → σ → Except ρ (σ × List α)} {succ : α → List α}
    (hf : Follows visit succ) :
    ∀ {fuel : Nat} {pending visited : List α} {s : σ} {r : ρ},
      walk visit fuel pending visited s = some (.error r) →
        ∃ x s', ReachFrom succ pending x ∧ visit x s' = .error r
  | 0, _, _, _, _, h => by simp [walk] at h
  | fuel + 1, pending, visited, s, r, h => by
    simp only [walk] at h
    split at h
    · cases h
    · rename_i x rest hcons
      obtain ⟨-, hxp, hrest, -⟩ := dropWhile_cons hcons
      split at h
      · rename_i r' hv
        cases h
        exact ⟨x, s, ⟨x, hxp, .refl⟩, hv⟩
      · rename_i s' next hv
        have hnext := hf x s s' next hv
        subst hnext
        obtain ⟨y, s'', ⟨p, hp, hreach⟩, hy⟩ := walk_error hf h
        rcases List.mem_append.mp hp with hp | hp
        · exact ⟨y, s'', ⟨x, hxp, .head (List.mem_reverse.mp hp) hreach⟩, hy⟩
        · exact ⟨y, s'', ⟨p, hrest p hp, hreach⟩, hy⟩

/-- What every visit keeps of the loop state holds where the loop leaves early. -/
theorem walk_error_from {visit : α → σ → Except ρ (σ × List α)} {succ : α → List α}
    (hf : Follows visit succ) {start : List α} {P : List α → σ → Prop}
    (hstep : ∀ x visited s s' next, x ∉ visited → ReachFrom succ start x → P visited s →
      visit x s = .ok (s', next) → P (x :: visited) s') :
    ∀ {fuel : Nat} {pending visited : List α} {s : σ} {r : ρ},
      (∀ p ∈ pending, ReachFrom succ start p) → P visited s →
      walk visit fuel pending visited s = some (.error r) →
        ∃ x visited' s', x ∉ visited' ∧ ReachFrom succ start x ∧ P visited' s' ∧
          visit x s' = .error r
  | 0, _, _, _, _, _, _, h => by simp [walk] at h
  | fuel + 1, pending, visited, s, r, hpending, hP, h => by
    simp only [walk] at h
    split at h
    · cases h
    · rename_i x rest hcons
      obtain ⟨hx, hxp, hrest, -⟩ := dropWhile_cons hcons
      have hreach := hpending x hxp
      split at h
      · rename_i r' hv
        cases h
        exact ⟨x, visited, s, hx, hreach, hP, hv⟩
      · rename_i s' next hv
        have hnext := hf x s s' next hv
        refine walk_error_from hf hstep ?_ (hstep x visited s s' next hx hreach hP hv) h
        intro p hp
        rcases List.mem_append.mp hp with hp | hp
        · obtain ⟨q, hq, hqx⟩ := hreach
          exact ⟨q, hq, hqx.tail (hnext ▸ List.mem_reverse.mp hp)⟩
        · exact hpending p (hrest p hp)

/-- Whatever the loop state is, the visit of `x` leaves the loop. -/
def Leaves (visit : α → σ → Except ρ (σ × List α)) (x : α) : Prop :=
  ∀ s, ∃ r, visit x s = .error r

/-- **The loop ends**: with more fuel than unvisited nodes of a finite set, out of which
    successors only lead to nodes that leave the loop, it leaves through its exit or through an
    empty worklist. -/
theorem walk_isSome {visit : α → σ → Except ρ (σ × List α)} {succ : α → List α}
    (hf : Follows visit succ) (nodes : Finset α)
    (hclosed : ∀ x ∈ nodes, ∀ y ∈ succ x, y ∈ nodes ∨ Leaves visit y) :
    ∀ {fuel : Nat} {pending visited : List α} {s : σ},
      (∀ x ∈ pending, x ∈ nodes ∨ Leaves visit x) →
      (nodes \ visited.toFinset).card < fuel → (walk visit fuel pending visited s).isSome
  | 0, _, _, _, _, h => by omega
  | fuel + 1, pending, visited, s, hp, h => by
    simp only [walk]
    split
    · rfl
    · rename_i x rest hcons
      obtain ⟨hx, hxp, hrest, -⟩ := dropWhile_cons hcons
      split
      · rfl
      · rename_i s' next hv
        have hnext := hf x s s' next hv
        subst hnext
        have hxn : x ∈ nodes := by
          rcases hp x hxp with hxn | hleaves
          · exact hxn
          · obtain ⟨r, hr⟩ := hleaves s
            rw [hv] at hr
            cases hr
        refine walk_isSome hf nodes hclosed ?_ ?_
        · intro y hy
          rcases List.mem_append.mp hy with hy | hy
          · exact hclosed x hxn y (List.mem_reverse.mp hy)
          · exact hp y (hrest y hy)
        · have hlt : (nodes \ (x :: visited).toFinset).card < (nodes \ visited.toFinset).card := by
            apply Finset.card_lt_card
            rw [Finset.ssubset_iff_of_subset]
            · exact ⟨x, by simp [hxn, hx], by simp⟩
            · intro y hy
              simp only [List.toFinset_cons, Finset.mem_sdiff, Finset.mem_insert,
                List.mem_toFinset, not_or] at hy ⊢
              exact ⟨hy.1, hy.2.2⟩
          omega

end Worklist
