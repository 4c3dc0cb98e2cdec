import Mathlib.Data.List.Nodup
import Mathlib.Logic.Relation

/-!
# Interleaved programs over a shared store

Programs whose atomic steps act on a store that any number of them share, with a crash possible
between any two steps.

* `Prog`       : a program, as the tree of its steps and its answers; a monad with errors.
* `Run`        : the runs of a pool of programs, with the history of what they returned.
* `Discipline` : an invariant of the store and an order in which every step moves it forward.
* `wp`         : what a program needs of the store, whatever the others do between its steps.
* `Run.sound`  : **programs that keep a discipline return only what their postconditions say, and
                 every program returns at most once**.
-/

set_option autoImplicit false

namespace Interleaving

variable {σ Op : Type} {Answer : Op → Type} {ι ε α β : Type}

/-! ## Programs -/

inductive Prog (Answer : Op → Type) (ε α : Type) where
  | done (r : Except ε α)
  | act (o : Op) (next : Answer o → Prog Answer ε α)

namespace Prog

def bind (x : Prog Answer ε α) (f : α → Prog Answer ε β) : Prog Answer ε β :=
  match x with
  | .done (.ok a) => f a
  | .done (.error e) => .done (.error e)
  | .act o next => .act o fun a => (next a).bind f

instance : Monad (Prog Answer ε) where
  pure a := .done (.ok a)
  bind := bind

theorem bind_pure (x : Prog Answer ε α) : x.bind (fun a => .done (.ok a)) = x := by
  induction x with
  | done r => cases r <;> rfl
  | act o next ih =>
    rw [bind]
    exact congrArg _ (funext fun a => ih a)

theorem bind_assoc {γ : Type} (x : Prog Answer ε α) (f : α → Prog Answer ε β)
    (g : β → Prog Answer ε γ) : (x.bind f).bind g = x.bind fun a => (f a).bind g := by
  induction x with
  | done r => cases r <;> rfl
  | act o next ih =>
    rw [bind, bind, bind]
    exact congrArg _ (funext fun a => ih a)

instance : LawfulMonad (Prog Answer ε) :=
  LawfulMonad.mk' _ bind_pure (fun _ _ => rfl) bind_assoc

/-- One step. -/
def step (o : Op) : Prog Answer ε (Answer o) := .act o fun a => .done (.ok a)

/-- A computation that takes no step. -/
def ofExcept (r : Except ε α) : Prog Answer ε α := .done r

instance : MonadLift (Except ε) (Prog Answer ε) := ⟨ofExcept⟩

end Prog

/-! ## Runs -/

/-- The effect of one step of the program `id`. Programs cannot see their own identity. -/
abbrev Exec (σ : Type) (Op : Type) (Answer : Op → Type) := Nat → σ → (o : Op) → σ × Answer o

structure Thread (Answer : Op → Type) (ι ε α : Type) where
  id : Nat
  request : ι
  prog : Prog Answer ε α

/-- A returned program. -/
structure Event (ι ε α : Type) where
  id : Nat
  request : ι
  result : Except ε α

structure Config (σ : Type) {Op : Type} (Answer : Op → Type) (ι ε α : Type) where
  store : σ
  threads : List (Thread Answer ι ε α)
  next : Nat

/-- One step of the pool, with the events it adds. -/
inductive Step (exec : Exec σ Op Answer) (body : ι → Prog Answer ε α) :
    Config σ Answer ι ε α → List (Event ι ε α) → Config σ Answer ι ε α → Prop
  | start (c : Config σ Answer ι ε α) (request : ι) :
      Step exec body c []
        ⟨c.store, ⟨c.next, request, body request⟩ :: c.threads, c.next + 1⟩
  | act (s : σ) (pre post : List (Thread Answer ι ε α)) (id n : Nat) (request : ι) (o : Op)
      (next : Answer o → Prog Answer ε α) :
      Step exec body ⟨s, pre ++ ⟨id, request, .act o next⟩ :: post, n⟩ []
        ⟨(exec id s o).1, pre ++ ⟨id, request, next (exec id s o).2⟩ :: post, n⟩
  | finish (s : σ) (pre post : List (Thread Answer ι ε α)) (id n : Nat) (request : ι)
      (r : Except ε α) :
      Step exec body ⟨s, pre ++ ⟨id, request, .done r⟩ :: post, n⟩ [⟨id, request, r⟩]
        ⟨s, pre ++ post, n⟩
  | crash (s : σ) (pre post : List (Thread Answer ι ε α)) (t : Thread Answer ι ε α) (n : Nat) :
      Step exec body ⟨s, pre ++ t :: post, n⟩ [] ⟨s, pre ++ post, n⟩

/-- Any number of steps. -/
inductive Steps (exec : Exec σ Op Answer) (body : ι → Prog Answer ε α)
    (c : Config σ Answer ι ε α) : List (Event ι ε α) → Config σ Answer ι ε α → Prop
  | refl : Steps exec body c [] c
  | tail {history events : List (Event ι ε α)} {c' c'' : Config σ Answer ι ε α} :
      Steps exec body c history c' → Step exec body c' events c'' →
      Steps exec body c (history ++ events) c''

/-- The runs from a store that no program has touched. -/
abbrev Run (exec : Exec σ Op Answer) (body : ι → Prog Answer ε α) (init : σ) :
    List (Event ι ε α) → Config σ Answer ι ε α → Prop :=
  Steps exec body ⟨init, [], 0⟩

/-- The answer and the store of a program that runs alone. -/
def Prog.alone (exec : Exec σ Op Answer) (id : Nat) : Prog Answer ε α → σ → Except ε α × σ
  | .done r, s => (r, s)
  | .act o next, s => (next (exec id s o).2).alone exec id (exec id s o).1

/-- A running program can take its steps with no other step between them. -/
theorem Steps.alone {exec : Exec σ Op Answer} {body : ι → Prog Answer ε α} {id n : Nat}
    {request : ι} {c : Config σ Answer ι ε α} {history : List (Event ι ε α)} :
    ∀ {p : Prog Answer ε α} {s : σ}, Steps exec body c history ⟨s, [⟨id, request, p⟩], n⟩ →
      Steps exec body c (history ++ [⟨id, request, (p.alone exec id s).1⟩])
        ⟨(p.alone exec id s).2, [], n⟩
  | .done r, s, h => .tail h (.finish s [] [] id n request r)
  | .act o next, s, h => by
    have hact := Steps.tail h (.act s [] [] id n request o next)
    rw [List.append_nil] at hact
    exact hact.alone

/-- An invariant of the store and an order in which steps move it. -/
structure Discipline (exec : Exec σ Op Answer) where
  Inv : σ → Prop
  le : σ → σ → Prop
  refl : ∀ s, le s s
  trans : ∀ {s t u}, le s t → le t u → le s u

variable {exec : Exec σ Op Answer}

/-- From store `s` on, every step of the program keeps the discipline, and what it returns
    satisfies `Q`, while other programs move the store forward between its steps. -/
def wp (D : Discipline exec) (id : Nat) : Prog Answer ε α → (α → σ → Prop) → σ → Prop
  | .done (.ok a), Q, s => Q a s
  | .done (.error _), _, _ => True
  | .act o next, Q, s => ∀ s', D.le s s' → D.Inv s' →
      D.Inv (exec id s' o).1 ∧ D.le s' (exec id s' o).1 ∧
        wp D id (next (exec id s' o).2) Q (exec id s' o).1

/-- The order never takes a postcondition back. -/
def Stable (D : Discipline exec) (Q : α → σ → Prop) : Prop :=
  ∀ a s s', D.le s s' → D.Inv s' → Q a s → Q a s'

theorem wp_stable {D : Discipline exec} {id : Nat} {Q : α → σ → Prop} (hQ : Stable D Q) {s s' : σ}
    (hle : D.le s s') (hinv : D.Inv s') :
    ∀ {p : Prog Answer ε α}, wp D id p Q s → wp D id p Q s'
  | .done (.ok a), h => hQ a s s' hle hinv h
  | .done (.error _), _ => trivial
  | .act _ _, h => fun s'' hle' hinv' => h s'' (D.trans hle hle') hinv'

/-- What holds after a run: the store invariant, every postcondition of a returned program, the
    needs of every running one, and one identity for each program. -/
structure Sound (D : Discipline exec) (Q : Nat → ι → α → σ → Prop)
    (history : List (Event ι ε α)) (c : Config σ Answer ι ε α) : Prop where
  inv : D.Inv c.store
  threads : ∀ t ∈ c.threads, wp D t.id t.prog (Q t.id t.request) c.store
  events : ∀ e ∈ history, ∀ a, e.result = .ok a → Q e.id e.request a c.store
  nodup : (history.map (·.id) ++ c.threads.map (·.id)).Nodup
  fresh : ∀ i ∈ history.map (·.id) ++ c.threads.map (·.id), i < c.next

/-- The programs keep the discipline and return what `Q` says. -/
structure Keeps (D : Discipline exec) (Q : Nat → ι → α → σ → Prop)
    (body : ι → Prog Answer ε α) : Prop where
  stable : ∀ id request, Stable D (Q id request)
  body : ∀ id request s, D.Inv s → wp D id (body request) (Q id request) s

theorem Sound.step_le {D : Discipline exec} {Q : Nat → ι → α → σ → Prop}
    {body : ι → Prog Answer ε α} {history events : List (Event ι ε α)}
    {c c' : Config σ Answer ι ε α} (S : Sound D Q history c) (hstep : Step exec body c events c') :
    D.le c.store c'.store := by
  cases hstep with
  | act s pre post id n request o next =>
    exact (S.threads ⟨id, request, .act o next⟩ (by simp) s (D.refl s) S.inv).2.1
  | start | finish | crash => exact D.refl _

theorem Sound.step {D : Discipline exec} {Q : Nat → ι → α → σ → Prop}
    {body : ι → Prog Answer ε α} (K : Keeps D Q body) {history events : List (Event ι ε α)}
    {c c' : Config σ Answer ι ε α} (S : Sound D Q history c) (hstep : Step exec body c events c') :
    Sound D Q (history ++ events) c' := by
  cases hstep with
  | start request =>
    refine ⟨S.inv, ?_, by simpa using S.events, ?_, ?_⟩
    · intro t ht
      rcases List.mem_cons.mp ht with rfl | ht
      · exact K.body _ _ _ S.inv
      · exact S.threads t ht
    · have hnew : c.next ∉ history.map (·.id) ++ c.threads.map (·.id) :=
        fun hmem => Nat.lt_irrefl _ (S.fresh _ hmem)
      rw [List.append_nil, List.map_cons]
      exact (List.perm_middle.nodup_iff).mpr (List.nodup_cons.mpr ⟨hnew, S.nodup⟩)
    · intro i hi
      rw [List.append_nil, List.map_cons, List.mem_append, List.mem_cons] at hi
      rcases hi with hi | rfl | hi
      · exact Nat.lt_succ_of_lt (S.fresh i (List.mem_append_left _ hi))
      · exact Nat.lt_succ_self _
      · exact Nat.lt_succ_of_lt (S.fresh i (List.mem_append_right _ hi))
  | act s pre post id n request o next =>
    have hself := S.threads ⟨id, request, .act o next⟩ (by simp)
    obtain ⟨hinv, hle, hnext⟩ := hself s (D.refl s) S.inv
    refine ⟨hinv, ?_, ?_, ?_, ?_⟩
    · intro t ht
      rw [List.mem_append, List.mem_cons] at ht
      rcases ht with ht | rfl | ht
      · exact wp_stable (K.stable _ _) hle hinv (S.threads t (by simp [ht]))
      · exact hnext
      · exact wp_stable (K.stable _ _) hle hinv (S.threads t (by simp [ht]))
    · intro e he a ha
      rw [List.append_nil] at he
      exact K.stable _ _ a s _ hle hinv (S.events e he a ha)
    · simpa using S.nodup
    · simpa using S.fresh
  | finish s pre post id n request r =>
    have hids : ((history ++ [(⟨id, request, r⟩ : Event ι ε α)]).map (·.id) ++
        (pre ++ post).map (·.id)).Perm
        (history.map (·.id) ++ (pre ++ ⟨id, request, .done r⟩ :: post).map
          (fun t : Thread Answer ι ε α => t.id)) := by
      simp only [List.map_append, List.map_cons, List.map_nil, List.append_assoc]
      refine List.Perm.append_left _ ?_
      rw [List.singleton_append]
      exact List.perm_middle.symm
    refine ⟨S.inv, fun t ht => S.threads t (by simp at ht ⊢; tauto), ?_, ?_, ?_⟩
    · intro e he a ha
      rcases List.mem_append.mp he with he | he
      · exact S.events e he a ha
      · rw [List.mem_singleton.mp he] at ha ⊢
        have hself := S.threads ⟨id, request, .done r⟩ (by simp)
        simp only at ha
        rw [ha] at hself
        exact hself
    · exact hids.nodup_iff.mpr S.nodup
    · exact fun i hi => S.fresh i (hids.mem_iff.mp hi)
  | crash s pre post t n =>
    have hsub : (pre ++ post).Sublist (pre ++ t :: post) :=
      (List.Sublist.refl pre).append (List.sublist_cons_self t post)
    refine ⟨S.inv, fun u hu => S.threads u (hsub.subset hu), by simpa using S.events, ?_, ?_⟩
    · rw [List.append_nil]
      exact S.nodup.sublist ((List.Sublist.refl _).append (hsub.map _))
    · rw [List.append_nil]
      exact fun i hi => S.fresh i (((List.Sublist.refl _).append (hsub.map _)).subset hi)

/-- What holds goes on to hold, and the store has only moved forward. -/
theorem Sound.steps {D : Discipline exec} {Q : Nat → ι → α → σ → Prop}
    {body : ι → Prog Answer ε α} (K : Keeps D Q body) {history events : List (Event ι ε α)}
    {c c' : Config σ Answer ι ε α} (S : Sound D Q history c)
    (hsteps : Steps exec body c events c') :
    Sound D Q (history ++ events) c' ∧ D.le c.store c'.store := by
  induction hsteps with
  | refl => exact ⟨by simpa using S, D.refl _⟩
  | tail _ hstep ih =>
    rw [← List.append_assoc]
    exact ⟨ih.1.step K hstep, D.trans ih.2 (ih.1.step_le hstep)⟩

/-- **Soundness of disciplines.** -/
theorem Run.sound {D : Discipline exec} {Q : Nat → ι → α → σ → Prop} {body : ι → Prog Answer ε α}
    (K : Keeps D Q body) {init : σ} (hinit : D.Inv init) {history : List (Event ι ε α)}
    {c : Config σ Answer ι ε α} (hrun : Run exec body init history c) : Sound D Q history c := by
  have S : Sound D Q ([] : List (Event ι ε α)) (⟨init, [], 0⟩ : Config σ Answer ι ε α) :=
    ⟨hinit, by simp, by simp, by simp, by simp⟩
  simpa using (S.steps K hrun).1

-- Programs are taken apart by the rules above, never by evaluation.
attribute [irreducible] wp

end Interleaving
