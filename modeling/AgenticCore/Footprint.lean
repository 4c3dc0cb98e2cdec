import AgenticCore.Interruption

/-!
# Footprints of programs

Which steps a program can take, and which ones it takes from a given store.

* `Within`   : every step of the program, whatever it is answered, is one of a class.
* `Performs` : the program, running alone from a store, takes the step.
* `Touches`  : every step that it takes from the store is one of the class.
* `guards_within` : **a program whose steps keep the store is a function of it**.
-/

set_option autoImplicit false

namespace Interleaving

variable {σ Op : Type} {Answer : Op → Type} {ε α β : Type} {exec : Exec σ Op Answer} {id : Nat}
  {P P' : Op → Prop}

/-- Every step of the program is in the class. -/
def Within (P : Op → Prop) : Prog Answer ε α → Prop
  | .done _ => True
  | .act o next => P o ∧ ∀ a, Within P (next a)

theorem within_done {r : Except ε α} : Within P (.done r : Prog Answer ε α) := trivial

theorem within_act {o : Op} {next : Answer o → Prog Answer ε α} :
    Within P (.act o next) ↔ P o ∧ ∀ a, Within P (next a) := Iff.rfl

theorem within_bind {f : α → Prog Answer ε β} :
    ∀ {p : Prog Answer ε α}, Within P p → (∀ a, Within P (f a)) → Within P (p >>= f)
  | .done (.ok a), _, hf => hf a
  | .done (.error _), _, _ => trivial
  | .act _ _, h, hf => ⟨h.1, fun a => within_bind (h.2 a) hf⟩

theorem within_ofExcept {r : Except ε α} : Within P (Prog.ofExcept r : Prog Answer ε α) := trivial

theorem within_lift {r : Except ε α} : Within P (liftM r : Prog Answer ε α) := trivial

theorem within_pure {a : α} : Within P (pure a : Prog Answer ε α) := trivial

theorem within_step {o : Op} (h : P o) : Within P (Prog.step o : Prog Answer ε (Answer o)) :=
  ⟨h, fun _ => trivial⟩

theorem within_mapM {f : α → Prog Answer ε β} :
    ∀ {l : List α}, (∀ a, Within P (f a)) → Within P (l.mapM f)
  | [], _ => within_pure
  | a :: l, hf => by
    rw [List.mapM_cons]
    exact within_bind (hf a) fun b => within_bind (within_mapM hf) fun bs => within_pure

theorem Within.mono (hP : ∀ o, P o → P' o) : ∀ {p : Prog Answer ε α}, Within P p → Within P' p
  | .done _, _ => trivial
  | .act o _, h => ⟨hP o h.1, fun a => (h.2 a).mono hP⟩

/-- **A program whose steps keep the store is a function of it.** -/
theorem guards_within (hkeep : ∀ o, P o → ∀ s, (exec id s o).1 = s) :
    ∀ {p : Prog Answer ε α} {s : σ}, Within P p →
      Guards exec id (fun s' => s' = s) p
        (fun r s' => r = (p.alone exec id s).1 ∧ s' = s) s
  | .done r, s, _ => guards_ofExcept rfl ⟨rfl, rfl⟩
  | .act o next, s, h => by
    have hnext := guards_within hkeep (s := s) (h.2 (exec id s o).2)
    refine guards_step_bind (f := next) rfl ?_
    rw [Prog.alone, hkeep o h.1 s]
    exact hnext

/-! ## Steps taken from one store -/

/-- The step is one that the program takes when it runs alone from the store. -/
inductive Performs (exec : Exec σ Op Answer) (id : Nat) : Prog Answer ε α → σ → Op → Prop
  | here {o : Op} {next : Answer o → Prog Answer ε α} {s : σ} : Performs exec id (.act o next) s o
  | later {o o' : Op} {next : Answer o → Prog Answer ε α} {s : σ} :
      Performs exec id (next (exec id s o).2) (exec id s o).1 o' →
      Performs exec id (.act o next) s o'

/-- Every step that the program takes from the store is in the class. -/
def Touches (exec : Exec σ Op Answer) (id : Nat) (P : Op → Prop) : Prog Answer ε α → σ → Prop
  | .done _, _ => True
  | .act o next, s => P o ∧ Touches exec id P (next (exec id s o).2) (exec id s o).1

theorem Touches.performs {p : Prog Answer ε α} {s : σ} {o : Op} (h : Touches exec id P p s)
    (hperforms : Performs exec id p s o) : P o := by
  induction hperforms with
  | here => exact h.1
  | later _ ih => exact ih h.2

theorem Within.touches :
    ∀ {p : Prog Answer ε α} {s : σ}, Within P p → Touches exec id P p s
  | .done _, _, _ => trivial
  | .act _ _, _, h => ⟨h.1, (h.2 _).touches⟩

theorem touches_bind {f : α → Prog Answer ε β} :
    ∀ {p : Prog Answer ε α} {s : σ}, Touches exec id P p s →
      (∀ a s', p.alone exec id s = (.ok a, s') → Touches exec id P (f a) s') →
      Touches exec id P (p >>= f) s
  | .done (.ok a), s, _, hf => hf a s rfl
  | .done (.error _), _, _, _ => trivial
  | .act _ _, _, h, hf => ⟨h.1, touches_bind h.2 hf⟩

-- Programs are taken apart by the rules above, never by evaluation.
attribute [irreducible] Within

end Interleaving
