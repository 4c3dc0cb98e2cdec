import AgenticCore.Text
import Mathlib.Algebra.Group.Nat.Even

/-!
# Splitting a text at a pattern

Splitting at a pattern scans from the left and goes on behind each match, so matches do not
overlap. Which occurrences of the pattern are matches therefore depends on what stands before.

* `splitPattern`      : the pieces between the matches (`str::split`).
* `splitOncePattern`  : the text before and after the first occurrence (`str::split_once`).
* `Cut`               : what follows a match of the scan.
* `mem_tail_splitPattern` : a piece behind a match is the first piece of what follows it.
* `cut_iff`           : **every occurrence of a pattern that cannot overlap itself is a match**,
* `cut_pair_iff`      : **one of a doubled symbol is where an even run of the symbol stands before.**
-/

set_option autoImplicit false

namespace Pattern

variable {α : Type*} [DecidableEq α] {pat : List α}

/-! ## The scan -/

/-- The pieces of a text of which the first elements are still part of a match. -/
def pieces (pat : List α) : Nat → List α → List (List α)
  | _, [] => [[]]
  | skip + 1, _ :: cs => pieces pat skip cs
  | 0, c :: cs =>
    if pat <+: c :: cs then [] :: pieces pat (pat.length - 1) cs
    else (pieces pat 0 cs).modifyHead (c :: ·)

/-- `text.split(pat)`, for a pattern that is not empty. -/
def splitPattern (pat cs : List α) : List (List α) := pieces pat 0 cs

/-- `text.split_once(pat)`, for a pattern that is not empty. -/
def splitOncePattern (pat : List α) : List α → Option (List α × List α)
  | [] => none
  | c :: cs =>
    if pat <+: c :: cs then some ([], (c :: cs).drop pat.length)
    else (splitOncePattern pat cs).map fun (before, after) => (c :: before, after)

theorem pieces_skip (skip : Nat) (cs : List α) :
    pieces pat skip cs = splitPattern pat (cs.drop skip) := by
  induction cs generalizing skip with
  | nil => cases skip <;> rfl
  | cons c cs ih =>
    cases skip with
    | zero => rfl
    | succ skip =>
      rw [pieces, ih]
      rfl

@[simp] theorem splitPattern_nil : splitPattern pat [] = [[]] := rfl

theorem splitPattern_match (h : pat ≠ []) (rest : List α) :
    splitPattern pat (pat ++ rest) = [] :: splitPattern pat rest := by
  obtain ⟨p, pat', rfl⟩ := List.exists_cons_of_ne_nil h
  rw [splitPattern, List.cons_append, pieces, if_pos ⟨rest, rfl⟩, pieces_skip]
  simp

theorem splitPattern_miss {c : α} {cs : List α} (h : ¬pat <+: c :: cs) :
    splitPattern pat (c :: cs) = (splitPattern pat cs).modifyHead (c :: ·) := by
  rw [splitPattern, pieces, if_neg h]
  rfl

theorem splitPattern_ne_nil (cs : List α) : splitPattern pat cs ≠ [] := by
  suffices h : ∀ skip, pieces pat skip cs ≠ [] from h 0
  induction cs with
  | nil => intro skip; cases skip <;> simp [pieces]
  | cons c cs ih =>
    intro skip
    cases skip with
    | zero =>
      rw [pieces]
      split
      · simp
      · simpa using ih 0
    | succ skip => exact ih skip

/-- The first piece. -/
def firstPiece (pat cs : List α) : List α := (splitPattern pat cs).headD []

theorem splitPattern_eq (cs : List α) :
    splitPattern pat cs = firstPiece pat cs :: (splitPattern pat cs).tail := by
  unfold firstPiece
  cases h : splitPattern pat cs with
  | nil => exact absurd h (splitPattern_ne_nil cs)
  | cons piece rest => rfl

omit [DecidableEq α] in
theorem not_prefix_of_not_mem (cs : List α) {c : α} (h : pat ≠ []) (hc : c ∉ pat) :
    ¬pat <+: c :: cs := by
  obtain ⟨p, pat', rfl⟩ := List.exists_cons_of_ne_nil h
  rintro ⟨rest, hrest⟩
  obtain rfl : p = c := (List.cons.inj hrest).1
  exact hc List.mem_cons_self

/-- Text free of the pattern's symbols belongs to the first piece. -/
theorem firstPiece_append (h : pat ≠ []) :
    ∀ {text : List α}, (∀ c ∈ text, c ∉ pat) → ∀ rest : List α,
      firstPiece pat (text ++ rest) = text ++ firstPiece pat rest
  | [], _, rest => rfl
  | c :: text, hfree, rest => by
    have ih := firstPiece_append h (fun d hd => hfree d (List.mem_cons_of_mem c hd)) rest
    have hmiss := not_prefix_of_not_mem (text ++ rest) h (hfree c List.mem_cons_self)
    rw [List.cons_append, firstPiece, splitPattern_miss hmiss, splitPattern_eq]
    simp only [List.modifyHead_cons, List.headD_cons, ih, List.cons_append]

/-- The first piece starts the text. -/
theorem firstPiece_prefix (h : pat ≠ []) (cs : List α) : firstPiece pat cs <+: cs := by
  induction cs with
  | nil => exact List.nil_prefix
  | cons c cs ih =>
    by_cases hmatch : pat <+: c :: cs
    · obtain ⟨rest, hrest⟩ := hmatch
      rw [← hrest, firstPiece, splitPattern_match h]
      exact List.nil_prefix
    · rw [firstPiece, splitPattern_miss hmatch, splitPattern_eq]
      simpa using ih

/-! ## Matches -/

/-- `rest` follows a match of the scan. -/
inductive Cut (pat : List α) : List α → List α → Prop
  | here (rest : List α) : Cut pat (pat ++ rest) rest
  | behind {cs rest : List α} (h : Cut pat cs rest) : Cut pat (pat ++ cs) rest
  | past {c : α} {cs rest : List α} (hmiss : ¬pat <+: c :: cs) (h : Cut pat cs rest) :
      Cut pat (c :: cs) rest

omit [DecidableEq α] in
theorem Cut.exists_before {cs rest : List α} (h : Cut pat cs rest) :
    ∃ before, cs = before ++ pat ++ rest := by
  induction h with
  | here rest => exact ⟨[], by simp⟩
  | @behind cs rest _ ih =>
    obtain ⟨before, hbefore⟩ := ih
    exact ⟨pat ++ before, by simp [hbefore]⟩
  | @past c cs rest _ _ ih =>
    obtain ⟨before, hbefore⟩ := ih
    exact ⟨c :: before, by simp [hbefore]⟩

/-- A piece behind a match is the first piece of what follows the match. -/
theorem mem_tail_splitPattern (h : pat ≠ []) {cs piece : List α} :
    piece ∈ (splitPattern pat cs).tail ↔ ∃ rest, Cut pat cs rest ∧ piece = firstPiece pat rest := by
  constructor
  · intro hpiece
    induction hn : cs.length using Nat.strong_induction_on generalizing cs with
    | _ n ih =>
      cases cs with
      | nil => simp at hpiece
      | cons c cs =>
        by_cases hmatch : pat <+: c :: cs
        · obtain ⟨after, hafter⟩ := hmatch
          rw [← hafter] at hpiece hn ⊢
          rw [splitPattern_match h, List.tail_cons, splitPattern_eq, List.mem_cons] at hpiece
          rcases hpiece with rfl | hpiece
          · exact ⟨after, .here after, rfl⟩
          · have hpos : 0 < pat.length := List.length_pos_iff.mpr h
            rw [List.length_append] at hn
            obtain ⟨rest, hcut, heq⟩ := ih after.length (by omega) hpiece rfl
            exact ⟨rest, .behind hcut, heq⟩
        · rw [splitPattern_miss hmatch, splitPattern_eq] at hpiece
          rw [List.length_cons] at hn
          obtain ⟨rest, hcut, heq⟩ := ih cs.length (by omega) hpiece rfl
          exact ⟨rest, .past hmatch hcut, heq⟩
  · rintro ⟨rest, hcut, rfl⟩
    induction hcut with
    | here rest =>
      rw [splitPattern_match h, List.tail_cons, splitPattern_eq]
      exact List.mem_cons_self
    | @behind cs rest _ ih =>
      rw [splitPattern_match h, List.tail_cons, splitPattern_eq]
      exact List.mem_cons_of_mem _ ih
    | @past c cs rest hmiss _ ih =>
      rw [splitPattern_miss hmiss, splitPattern_eq]
      exact ih

/-- No later part of the pattern can be the start of another occurrence. -/
def Unbordered (pat : List α) : Prop := ∀ k, 0 < k → k < pat.length → ¬pat.drop k <+: pat

omit [DecidableEq α] in
/-- An occurrence that starts inside a match leaves a border, or lies behind the match. -/
theorem Unbordered.split_before (hpat : Unbordered pat) {before rest after : List α}
    (hbefore : before ≠ []) (h : before ++ pat ++ rest = pat ++ after) :
    ∃ middle, before = pat ++ middle ∧ after = middle ++ pat ++ rest := by
  rw [List.append_assoc] at h
  rcases List.append_eq_append_iff.mp h with ⟨middle, hpat', hrest⟩ | ⟨middle, hbefore', hafter⟩
  · have hpos : 0 < before.length := List.length_pos_iff.mpr hbefore
    by_cases hlt : before.length < pat.length
    · refine absurd ?_ (hpat before.length hpos hlt)
      have hmiddle : pat.drop before.length = middle := by
        conv_lhs => rw [hpat']
        exact List.drop_left
      have hle : middle.length ≤ pat.length := by
        rw [hpat', List.length_append]
        omega
      rw [hmiddle]
      exact List.prefix_of_prefix_length_le ⟨after, hrest.symm⟩ (List.prefix_append pat rest) hle
    · have hnil : middle = [] := by
        have hlength := congrArg List.length hpat'
        rw [List.length_append] at hlength
        exact List.eq_nil_of_length_eq_zero (by omega)
      subst hnil
      refine ⟨[], ?_, by simpa using hrest.symm⟩
      simpa using hpat'.symm
  · exact ⟨middle, hbefore', by rw [hafter, List.append_assoc]⟩

/-- **Every occurrence of a pattern that cannot overlap itself is a match.** -/
theorem cut_iff (h : pat ≠ []) (hpat : Unbordered pat) {cs rest : List α} :
    Cut pat cs rest ↔ ∃ before, cs = before ++ pat ++ rest := by
  refine ⟨Cut.exists_before, ?_⟩
  rintro ⟨before, rfl⟩
  induction hn : before.length using Nat.strong_induction_on generalizing before with
  | _ n ih =>
    cases before with
    | nil => exact .here rest
    | cons b before =>
      by_cases hmatch : pat <+: b :: (before ++ pat ++ rest)
      · obtain ⟨after, hafter⟩ := hmatch
        obtain ⟨middle, hmiddle, rfl⟩ :=
          hpat.split_before (List.cons_ne_nil b before) (by simpa using hafter.symm)
        have hpos : 0 < pat.length := List.length_pos_iff.mpr h
        rw [hmiddle, List.length_append] at hn
        have := Cut.behind (ih middle.length (by omega) middle rfl)
        rwa [hmiddle, List.append_assoc, List.append_assoc, ← List.append_assoc middle]
      · rw [List.length_cons] at hn
        exact .past hmatch (ih before.length (by omega) before rfl)

/-! ## A doubled symbol -/

section Pair

variable {b : α}

/-- How many of the symbol the text ends with. -/
def run (b : α) (cs : List α) : Nat := (cs.reverse.takeWhile (· = b)).length

theorem run_append (before cs : List α) :
    run b (before ++ cs) = if ∀ c ∈ cs, c = b then cs.length + run b before else run b cs := by
  unfold run
  rw [List.reverse_append, List.takeWhile_append]
  have hall : (cs.reverse.takeWhile (· = b)).length = cs.reverse.length ↔ ∀ c ∈ cs, c = b := by
    have hself : cs.reverse.takeWhile (· = b) = cs.reverse ↔ ∀ c ∈ cs, c = b := by
      rw [List.takeWhile_eq_self_iff]
      simp
    rw [← hself]
    constructor
    · intro hlength
      exact (List.takeWhile_prefix _).eq_of_length hlength
    · exact congrArg List.length
  by_cases h : ∀ c ∈ cs, c = b
  · rw [if_pos (hall.mpr h), if_pos h, List.length_append, List.length_reverse]
  · rw [if_neg (fun hlength => h (hall.mp hlength)), if_neg h]

theorem run_cons_ne {c : α} (h : c ≠ b) (cs : List α) : run b (c :: cs) = run b cs := by
  have hnil : run b [c] = 0 := by simp [run, h]
  rw [← List.singleton_append, run_append, hnil]
  split
  · rename_i hall
    have := run_append (b := b) [] cs
    rw [List.nil_append, if_pos hall] at this
    rw [this]
    rfl
  · rfl

theorem even_run_pair (cs : List α) : Even (run b ([b, b] ++ cs)) ↔ Even (run b cs) := by
  have hcs := run_append (b := b) [] cs
  rw [List.nil_append] at hcs
  rw [run_append]
  split
  · rename_i hall
    rw [if_pos hall] at hcs
    have hpair : run b [b, b] = 2 := by simp [run]
    rw [hcs, hpair, show run b [] = 0 from rfl, Nat.add_zero, Nat.even_add]
    simp
  · rfl

theorem run_single : run b [b] = 1 := by simp [run]

theorem run_single_ne {c : α} (h : c ≠ b) (cs : List α) :
    run b (b :: c :: cs) = run b (c :: cs) := by
  rw [← List.singleton_append, run_append, if_neg]
  intro hall
  exact h (hall c List.mem_cons_self)

omit [DecidableEq α] in
theorem pair_starts {c d : α} {cs : List α} : [b, b] <+: c :: d :: cs ↔ c = b ∧ d = b := by
  rw [List.cons_prefix_cons, List.cons_prefix_cons]
  constructor
  · rintro ⟨rfl, rfl, -⟩
    exact ⟨rfl, rfl⟩
  · rintro ⟨rfl, rfl⟩
    exact ⟨rfl, rfl, List.nil_prefix⟩

theorem Cut.even_run {cs rest : List α} (h : Cut [b, b] cs rest) :
    ∃ before, cs = before ++ [b, b] ++ rest ∧ Even (run b before) := by
  induction h with
  | here rest => exact ⟨[], rfl, by simp [run]⟩
  | @behind cs rest _ ih =>
    obtain ⟨before, rfl, heven⟩ := ih
    exact ⟨[b, b] ++ before, by simp, (even_run_pair before).mpr heven⟩
  | @past c cs rest hmiss _ ih =>
    obtain ⟨before, rfl, heven⟩ := ih
    refine ⟨c :: before, by simp, ?_⟩
    by_cases hc : c = b
    · subst hc
      -- what follows is another symbol, or there would be a match here
      cases before with
      | nil => exact absurd (pair_starts.mpr ⟨rfl, rfl⟩) hmiss
      | cons d before =>
        have hd : d ≠ c := fun hd => hmiss (pair_starts.mpr ⟨rfl, hd⟩)
        rwa [run_single_ne hd]
    · rwa [run_cons_ne hc]

theorem cut_of_even_run (rest : List α) :
    ∀ before : List α, Even (run b before) → Cut [b, b] (before ++ [b, b] ++ rest) rest
  | [], _ => .here rest
  | [c], heven => by
    have hc : c ≠ b := by
      rintro rfl
      rw [run_single] at heven
      exact absurd heven (by decide)
    exact .past (fun h => hc (pair_starts.mp h).1) (cut_of_even_run rest [] (by simp [run]))
  | c :: d :: before, heven => by
    by_cases hc : c = b
    · by_cases hd : d = b
      · rw [hc, hd] at heven ⊢
        exact .behind (cut_of_even_run rest before ((even_run_pair before).mp heven))
      · rw [hc, run_single_ne hd] at heven
        exact .past (fun h => hd (pair_starts.mp h).2) (cut_of_even_run rest (d :: before) heven)
    · rw [run_cons_ne hc] at heven
      exact .past (fun h => hc (pair_starts.mp h).1) (cut_of_even_run rest (d :: before) heven)

/-- **An occurrence of a doubled symbol is a match where an even run of the symbol stands before
    it.** -/
theorem cut_pair_iff {cs rest : List α} :
    Cut [b, b] cs rest ↔ ∃ before, cs = before ++ [b, b] ++ rest ∧ Even (run b before) := by
  constructor
  · exact Cut.even_run
  · rintro ⟨before, rfl, heven⟩
    exact cut_of_even_run rest before heven

end Pair

/-! ## The first closer -/

theorem splitOncePattern_eq_some {cs before after : List α}
    (hsplit : splitOncePattern pat cs = some (before, after)) : cs = before ++ pat ++ after := by
  induction cs generalizing before with
  | nil => cases hsplit
  | cons c cs ih =>
    rw [splitOncePattern] at hsplit
    split at hsplit
    · rename_i hmatch
      obtain ⟨rest, hrest⟩ := hmatch
      obtain ⟨rfl, rfl⟩ := Prod.mk.inj (Option.some.inj hsplit)
      rw [← hrest]
      simp
    · obtain ⟨⟨before', after'⟩, hrest, heq⟩ := Option.map_eq_some_iff.mp hsplit
      obtain ⟨rfl, rfl⟩ := Prod.mk.inj heq
      rw [ih hrest]
      simp

/-- The first occurrence stands behind text free of the pattern's symbols. -/
theorem splitOncePattern_append (h : pat ≠ []) (after : List α) :
    ∀ {text : List α}, (∀ c ∈ text, c ∉ pat) →
      splitOncePattern pat (text ++ pat ++ after) = some (text, after)
  | [], _ => by
    obtain ⟨p, pat', rfl⟩ := List.exists_cons_of_ne_nil h
    rw [List.nil_append, List.cons_append, splitOncePattern, if_pos ⟨after, rfl⟩]
    simp
  | c :: text, hfree => by
    have ih := splitOncePattern_append h after fun d hd => hfree d (List.mem_cons_of_mem c hd)
    have hmiss := not_prefix_of_not_mem (text ++ pat ++ after) h (hfree c List.mem_cons_self)
    simp only [List.append_assoc, List.cons_append] at hmiss ih ⊢
    rw [splitOncePattern, if_neg hmiss, ih]
    rfl

end Pattern
