import Mathlib.Data.Finset.Card
import Mathlib.Logic.Relation
import Mathlib.Data.Fintype.Card
import Mathlib.Order.WellFounded

/-!
# Depth-first cycle check

The recursive check

    fn visit(x, active, done) {
        if done.contains(x) { return Ok }
        if !active.insert(x) { return Err(cyclic) }
        for y in successors of x { visit(y, active, done)? }
        active.remove(x); done.insert(x); Ok
    }

over an arbitrary node type. `active` is the path of open calls: what a call adds to it, it takes
out again before it returns, so here it is passed down and only `done` is threaded through.

* `visit_acc`     : a node the check has finished starts no infinite descent.
* `visit_cyclic`  : a rejection exhibits a cycle.
* `visit_fuel`    : one unit of fuel for each node of a closed finite set is enough.
* `checkAll_acyclic` : the check run from every node of the graph accepts acyclic graphs only.
* `exists_top`    : a finite acyclic set has a top above each of its nodes.
-/

set_option autoImplicit false

namespace Acyclic

inductive Stop where
  | cyclic
  | fuel
  deriving DecidableEq, Repr

variable {α : Type*}

/-- `y` is a successor of `x`, in the direction of descent. -/
def Below (succ : α → List α) (y x : α) : Prop := y ∈ succ x

variable [DecidableEq α]

def visit (succ : α → List α) : Nat → List α → List α → α → Except Stop (List α)
  | 0, _, _, _ => .error .fuel
  | fuel + 1, active, done, x =>
    if x ∈ done then .ok done
    else if x ∈ active then .error .cyclic
    else
      match (succ x).foldlM (visit succ fuel (x :: active)) done with
      | .error e => .error e
      | .ok done => .ok (x :: done)

/-- The check from every listed node, each with a fresh path. -/
def checkAll (succ : α → List α) (fuel : Nat) (nodes : List α) : Except Stop (List α) :=
  nodes.foldlM (visit succ fuel []) []

/-- What a finished call guarantees: the finished nodes grow by nodes without infinite descent. -/
structure Finished (succ : α → List α) (done done' : List α) : Prop where
  mono : ∀ y ∈ done, y ∈ done'
  acc : (∀ y ∈ done, Acc (Below succ) y) → ∀ y ∈ done', Acc (Below succ) y

omit [DecidableEq α] in
theorem Finished.refl (succ : α → List α) (done : List α) : Finished succ done done :=
  ⟨fun _ h => h, fun h => h⟩

omit [DecidableEq α] in
/-- A sweep over a list of nodes, each of whose calls finishes and finishes its node. -/
theorem sweep_finished {succ : α → List α} {f : List α → α → Except Stop (List α)}
    (hf : ∀ x done done', f done x = .ok done' → Finished succ done done' ∧ x ∈ done') :
    ∀ {xs : List α} {done done' : List α}, xs.foldlM f done = .ok done' →
      Finished succ done done' ∧ ∀ x ∈ xs, x ∈ done'
  | [], done, done', h => by
    cases h
    exact ⟨.refl succ _, by simp⟩
  | x :: xs, done, done', h => by
    rw [List.foldlM_cons] at h
    cases hx : f done x with
    | error e => rw [hx] at h; cases h
    | ok mid =>
      rw [hx] at h
      obtain ⟨hfin, hmem⟩ := hf x done mid hx
      obtain ⟨hrest, hxs⟩ : Finished succ mid done' ∧ ∀ y ∈ xs, y ∈ done' := sweep_finished hf h
      refine ⟨⟨fun y hy => hrest.mono y (hfin.mono y hy), fun hacc => hrest.acc (hfin.acc hacc)⟩, ?_⟩
      intro y hy
      rcases List.mem_cons.mp hy with rfl | hy
      · exact hrest.mono y hmem
      · exact hxs y hy

theorem visit_acc {succ : α → List α} :
    ∀ {fuel : Nat} {active done done' : List α} {x : α},
      visit succ fuel active done x = .ok done' → Finished succ done done' ∧ x ∈ done'
  | 0, _, _, _, _, h => by cases h
  | fuel + 1, active, done, done', x, h => by
    simp only [visit] at h
    split at h
    · rename_i hx
      cases h
      exact ⟨.refl succ _, hx⟩
    split at h
    · cases h
    split at h
    · cases h
    rename_i swept hswept
    cases h
    obtain ⟨hfin, hsucc⟩ := sweep_finished (fun y d d' hy => visit_acc hy) hswept
    refine ⟨⟨fun y hy => List.mem_cons_of_mem _ (hfin.mono y hy), ?_⟩, List.mem_cons_self⟩
    intro hacc y hy
    rcases List.mem_cons.mp hy with rfl | hy
    · exact ⟨_, fun z hz => hfin.acc hacc z (hsucc z hz)⟩
    · exact hfin.acc hacc y hy

/-- A rejection happens at a node that reaches itself. -/
theorem visit_cyclic {succ : α → List α} :
    ∀ {fuel : Nat} {active done : List α} {x : α},
      (∀ y ∈ active, Relation.TransGen (fun a b => b ∈ succ a) y x) →
      visit succ fuel active done x = .error .cyclic →
        ∃ z, Relation.TransGen (fun a b => b ∈ succ a) z z
  | 0, _, _, _, _, h => by cases h
  | fuel + 1, active, done, x, hpath, h => by
    simp only [visit] at h
    split at h
    · cases h
    split at h
    · rename_i hx
      exact ⟨x, hpath x hx⟩
    split at h
    · rename_i e hswept
      cases h
      have hsweep : ∀ (ys done : List α), (∀ y ∈ ys, y ∈ succ x) →
          ys.foldlM (visit succ fuel (x :: active)) done = .error .cyclic →
            ∃ z, Relation.TransGen (fun a b => b ∈ succ a) z z := by
        intro ys
        induction ys with
        | nil => intro _ _ h; cases h
        | cons y ys ih =>
          intro done hys h
          rw [List.foldlM_cons] at h
          have hyx := hys y List.mem_cons_self
          cases hy : visit succ fuel (x :: active) done y with
          | error e =>
            rw [hy] at h
            cases h
            refine visit_cyclic (fun z hz => ?_) hy
            rcases List.mem_cons.mp hz with rfl | hz
            · exact .single hyx
            · exact (hpath z hz).tail hyx
          | ok d =>
            rw [hy] at h
            exact ih d (fun w hw => hys w (List.mem_cons_of_mem _ hw)) h
      exact hsweep _ _ (fun _ hy => hy) hswept
    · cases h

/-- The fuel is never exhausted when it exceeds the number of nodes off the path. -/
theorem visit_fuel {succ : α → List α} (nodes : Finset α)
    (hclosed : ∀ x ∈ nodes, ∀ y ∈ succ x, y ∈ nodes) :
    ∀ {fuel : Nat} {active done : List α} {x : α}, x ∈ nodes →
      (nodes \ active.toFinset).card < fuel → visit succ fuel active done x ≠ .error .fuel
  | 0, _, _, _, _, h => by omega
  | fuel + 1, active, done, x, hx, h => by
    intro hv
    simp only [visit] at hv
    split at hv
    · cases hv
    split at hv
    · cases hv
    rename_i hxa
    split at hv
    · rename_i e hswept
      cases hv
      have hlt : (nodes \ (x :: active).toFinset).card < (nodes \ active.toFinset).card := by
        apply Finset.card_lt_card
        rw [Finset.ssubset_iff_of_subset]
        · exact ⟨x, by simp [hx, hxa], by simp⟩
        · intro y hy
          simp only [List.toFinset_cons, Finset.mem_sdiff, Finset.mem_insert, List.mem_toFinset,
            not_or] at hy ⊢
          exact ⟨hy.1, hy.2.2⟩
      have hsweep : ∀ (ys done : List α), (∀ y ∈ ys, y ∈ succ x) →
          ys.foldlM (visit succ fuel (x :: active)) done ≠ .error .fuel := by
        intro ys
        induction ys with
        | nil => intro _ _ h; cases h
        | cons y ys ih =>
          intro done hys h
          rw [List.foldlM_cons] at h
          cases hy : visit succ fuel (x :: active) done y with
          | error e =>
            rw [hy] at h
            cases h
            exact visit_fuel nodes hclosed (hclosed x hx y (hys y List.mem_cons_self)) (by omega) hy
          | ok d =>
            rw [hy] at h
            exact ih d (fun w hw => hys w (List.mem_cons_of_mem _ hw)) h
      exact hsweep _ _ (fun _ hy => hy) hswept
    · cases hv

/-- **An accepted graph has no infinite descent from its nodes.** -/
theorem checkAll_acyclic {succ : α → List α} {fuel : Nat} {nodes done : List α}
    (h : checkAll succ fuel nodes = .ok done) : ∀ x ∈ nodes, Acc (Below succ) x := by
  obtain ⟨hfin, hmem⟩ := sweep_finished (fun x d d' hx => visit_acc hx) h
  exact fun x hx => hfin.acc (by simp) x (hmem x hx)

omit [DecidableEq α] in
/-- Without infinite descent a node does not reach itself. -/
theorem not_transGen_self {succ : α → List α} {x : α} (h : Acc (Below succ) x) :
    ¬ Relation.TransGen (fun a b => b ∈ succ a) x x := by
  intro hcycle
  have hself : Relation.TransGen (Below succ) x x := by
    rw [← Relation.transGen_swap]
    exact hcycle
  have hacc := Acc.transGen h
  clear h hcycle
  induction hacc with
  | intro y _ ih => exact ih y hself hself

omit [DecidableEq α] in
/-- In a finite set without cycles every node is reached from one that nothing in the set has as
    a successor. -/
theorem exists_top {succ : α → List α} {nodes : Set α} (hfin : nodes.Finite)
    (hacyclic : ∀ x ∈ nodes, ¬ Relation.TransGen (fun a b => b ∈ succ a) x x) {a : α}
    (ha : a ∈ nodes) :
    ∃ h ∈ nodes, Relation.ReflTransGen (fun a b => b ∈ succ a) h a ∧ ∀ b ∈ nodes, h ∉ succ b := by
  -- Above: reached upwards. It is transitive and irreflexive on a finite type.
  let Above : nodes → nodes → Prop := fun b a => Relation.TransGen (fun a b => b ∈ succ a) b.1 a.1
  have : Finite nodes := hfin
  have : IsTrans nodes Above := ⟨fun _ _ _ => Relation.TransGen.trans⟩
  have : Std.Irrefl Above := ⟨fun x => hacyclic x.1 x.2⟩
  have hwf : WellFounded Above := Finite.wellFounded_of_trans_of_irrefl _
  suffices ∀ a : nodes, ∃ h ∈ nodes, Relation.ReflTransGen (fun a b => b ∈ succ a) h a.1 ∧
      ∀ b ∈ nodes, h ∉ succ b from this ⟨a, ha⟩
  intro a
  induction a using hwf.induction with
  | _ a ih =>
    by_cases htop : ∃ b ∈ nodes, a.1 ∈ succ b
    · obtain ⟨b, hb, hab⟩ := htop
      obtain ⟨h, hh, hreach, hnone⟩ := ih ⟨b, hb⟩ (.single hab)
      exact ⟨h, hh, hreach.tail hab, hnone⟩
    · exact ⟨a.1, a.2, .refl, fun b hb hab => htop ⟨b, hb, hab⟩⟩

end Acyclic
