import AgenticCore.Interleaving

/-!
# Interrupted programs

A program that runs alone on its store and can be cut off after any of its steps.

* `Stops`      : the stores in which it can be cut off.
* `Guards`     : every such store satisfies an invariant, and the end satisfies a postcondition.
* `stops_of_guards`, `alone_of_guards` : **what `Guards` says of runs**.
-/

set_option autoImplicit false

namespace Interleaving

variable {σ Op : Type} {Answer : Op → Type} {ε α β : Type} {exec : Exec σ Op Answer} {id : Nat}

/-- The program, started in the first store, can be cut off in the second one. -/
inductive Stops (exec : Exec σ Op Answer) (id : Nat) : Prog Answer ε α → σ → σ → Prop
  | here (p : Prog Answer ε α) (s : σ) : Stops exec id p s s
  | later {o : Op} {next : Answer o → Prog Answer ε α} {s s' : σ} :
      Stops exec id (next (exec id s o).2) (exec id s o).1 s' →
      Stops exec id (.act o next) s s'

/-- Cut off in its first part. -/
theorem Stops.bind {p : Prog Answer ε α} {f : α → Prog Answer ε β} {s s' : σ}
    (h : Stops exec id p s s') : Stops exec id (p >>= f) s s' := by
  induction h with
  | here => exact .here _ _
  | later _ ih => exact .later ih

/-- Cut off after its first part. -/
theorem Stops.after {f : α → Prog Answer ε β} {a : α} {s' : σ} :
    ∀ {p : Prog Answer ε α} {s s₁ : σ}, p.alone exec id s = (.ok a, s₁) →
      Stops exec id (f a) s₁ s' → Stops exec id (p >>= f) s s'
  | .done (.ok b), s, s₁, halone, h => by
    cases halone
    exact h
  | .done (.error e), s, s₁, halone, h => by cases halone
  | .act _ _, s, s₁, halone, h => .later (Stops.after halone h)

/-- Every store the program passes satisfies `I`, and its answer and last store satisfy `Q`. -/
def Guards (exec : Exec σ Op Answer) (id : Nat) (I : σ → Prop) :
    Prog Answer ε α → (Except ε α → σ → Prop) → σ → Prop
  | .done r, Q, s => I s ∧ Q r s
  | .act o next, Q, s => I s ∧ Guards exec id I (next (exec id s o).2) Q (exec id s o).1

variable {I : σ → Prop}

theorem guards_done {Q : Except ε α → σ → Prop} {r : Except ε α} {s : σ} :
    Guards exec id I (.done r) Q s ↔ I s ∧ Q r s := Iff.rfl

theorem guards_act {Q : Except ε α → σ → Prop} {o : Op} {next : Answer o → Prog Answer ε α} {s : σ} :
    Guards exec id I (.act o next) Q s ↔
      I s ∧ Guards exec id I (next (exec id s o).2) Q (exec id s o).1 := Iff.rfl

theorem Guards.inv {Q : Except ε α → σ → Prop} :
    ∀ {p : Prog Answer ε α} {s : σ}, Guards exec id I p Q s → I s
  | .done _, _, h => h.1
  | .act _ _, _, h => h.1

theorem Guards.mono {J : σ → Prop} {Q Q' : Except ε α → σ → Prop} (hI : ∀ s, I s → J s)
    (hQ : ∀ r s, I s → Q r s → Q' r s) :
    ∀ {p : Prog Answer ε α} {s : σ}, Guards exec id I p Q s → Guards exec id J p Q' s
  | .done r, s, h => ⟨hI s h.1, hQ r s h.1 h.2⟩
  | .act _ _, s, h => ⟨hI s h.1, h.2.mono hI hQ⟩

/-- What holds after a first part: the second part goes on from its answer, or its error stays. -/
def andThen (exec : Exec σ Op Answer) (id : Nat) (I : σ → Prop) (f : α → Prog Answer ε β)
    (Q : Except ε β → σ → Prop) : Except ε α → σ → Prop
  | .ok a, s => Guards exec id I (f a) Q s
  | .error e, s => Q (.error e) s

theorem guards_bind {Q : Except ε β → σ → Prop} {f : α → Prog Answer ε β} :
    ∀ {p : Prog Answer ε α} {s : σ}, Guards exec id I p (andThen exec id I f Q) s →
      Guards exec id I (p >>= f) Q s
  | .done (.ok _), _, h => h.2
  | .done (.error _), _, h => h
  | .act _ _, _, h => ⟨h.1, guards_bind h.2⟩

theorem guards_ofExcept {Q : Except ε α → σ → Prop} {r : Except ε α} {s : σ} (hI : I s)
    (hQ : Q r s) : Guards exec id I (Prog.ofExcept r : Prog Answer ε α) Q s := ⟨hI, hQ⟩

theorem guards_pure {Q : Except ε α → σ → Prop} {a : α} {s : σ} (hI : I s) (hQ : Q (.ok a) s) :
    Guards exec id I (pure a : Prog Answer ε α) Q s := ⟨hI, hQ⟩

theorem guards_step {o : Op} {Q : Except ε (Answer o) → σ → Prop} {s : σ} (hI : I s)
    (hI' : I (exec id s o).1) (hQ : Q (.ok (exec id s o).2) (exec id s o).1) :
    Guards exec id I (Prog.step o : Prog Answer ε (Answer o)) Q s := ⟨hI, hI', hQ⟩

theorem guards_ofExcept_bind {Q : Except ε β → σ → Prop} {r : Except ε α}
    {f : α → Prog Answer ε β} {s : σ} (hI : I s)
    (hok : ∀ a, r = .ok a → Guards exec id I (f a) Q s)
    (herror : ∀ e, r = .error e → Q (.error e) s) :
    Guards exec id I ((Prog.ofExcept r : Prog Answer ε α) >>= f) Q s := by
  refine guards_bind (guards_ofExcept hI ?_)
  cases r with
  | ok a => exact hok a rfl
  | error e => exact herror e rfl

theorem guards_step_bind {Q : Except ε β → σ → Prop} {o : Op} {f : Answer o → Prog Answer ε β}
    {s : σ} (hI : I s) (h : Guards exec id I (f (exec id s o).2) Q (exec id s o).1) :
    Guards exec id I ((Prog.step o : Prog Answer ε (Answer o)) >>= f) Q s :=
  guards_bind (guards_step hI h.inv h)

/-- **Wherever a guarded program is cut off, the invariant holds.** -/
theorem stops_of_guards {Q : Except ε α → σ → Prop} {p : Prog Answer ε α} {s s' : σ}
    (h : Guards exec id I p Q s) (hstops : Stops exec id p s s') : I s' := by
  induction hstops with
  | here => exact h.inv
  | later _ ih => exact ih h.2

/-- A guarded program that is not cut off ends as its postcondition says. -/
theorem alone_of_guards {Q : Except ε α → σ → Prop} :
    ∀ {p : Prog Answer ε α} {s : σ}, Guards exec id I p Q s →
      Q (p.alone exec id s).1 (p.alone exec id s).2
  | .done _, _, h => h.2
  | .act _ _, _, h => by
    have hend := alone_of_guards h.2
    exact hend

/-- The end of a program is one of the stores in which it can be cut off. -/
theorem stops_alone : ∀ {p : Prog Answer ε α} {s : σ}, Stops exec id p s (p.alone exec id s).2
  | .done _, s => .here _ s
  | .act _ _, _ => .later stops_alone

attribute [irreducible] Guards

end Interleaving
