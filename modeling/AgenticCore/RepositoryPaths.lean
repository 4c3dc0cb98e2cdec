import AgenticCore.DecisionSource
import AgenticCore.EffectEvidence

/-!
# Paths of a repository

Which paths can be read, and which ones are never the same.

* `append_read` : a readable path with a name after it.
* `evidence_read`, `evidence_apart` : the paths of evidence are readable, and nobody else's.
-/

set_option autoImplicit false

namespace AgenticCore.Repository

open Json Text AttemptStore

/-- The directory of the workspace's own files. -/
def OWNED : String := ".agentic-workspace/"

theorem startsWith_append {pre s t : String} (h : startsWith pre s = true) :
    startsWith pre (s ++ t) = true := by
  rw [startsWith, List.isPrefixOf_iff_prefix] at h ⊢
  rw [String.toList_append]
  exact h.trans (List.prefix_append _ _)

/-- The last part of a path, with something after it. -/
theorem splitOn_append_last {sep : Char} {ys : List Char} (hys : sep ∉ ys) :
    ∀ xs : List Char, ∃ init last, xs.splitOn sep = init ++ [last] ∧
      (xs ++ ys).splitOn sep = init ++ [last ++ ys]
  | [] => ⟨[], [], List.splitOn_nil sep, by
      rw [List.nil_append, List.splitOn_eq_singleton hys]
      rfl⟩
  | x :: xs => by
    obtain ⟨init, last, hxs, hall⟩ := splitOn_append_last hys xs
    rw [List.cons_append, List.splitOn_cons_eq_if_modifyHead, List.splitOn_cons_eq_if_modifyHead,
      hxs, hall]
    by_cases hx : (x == sep) = true
    · rw [if_pos hx, if_pos hx]
      exact ⟨[] :: init, last, rfl, rfl⟩
    · rw [if_neg hx, if_neg hx]
      cases init with
      | nil => exact ⟨[], x :: last, rfl, rfl⟩
      | cons first rest => exact ⟨(x :: first) :: rest, last, rfl, rfl⟩

theorem mem_of_mem_splitOn {sep c : Char} :
    ∀ {xs part : List Char}, part ∈ xs.splitOn sep → c ∈ part → c ∈ xs
  | [], part, hpart, hc => by
    rw [List.splitOn_nil, List.mem_singleton] at hpart
    rw [hpart] at hc
    exact hc
  | x :: xs, part, hpart, hc => by
    rw [List.splitOn_cons_eq_if_modifyHead] at hpart
    split at hpart
    · rcases List.mem_cons.mp hpart with rfl | hpart
      · cases hc
      · exact List.mem_cons_of_mem _ (mem_of_mem_splitOn hpart hc)
    · have hrest : ∀ part ∈ xs.splitOn sep, c ∈ part → c ∈ xs := fun part => mem_of_mem_splitOn
      cases hsplit : xs.splitOn sep with
      | nil => exact absurd hsplit (List.splitOn_ne_nil sep xs)
      | cons first rest =>
        rw [hsplit] at hpart hrest
        rcases List.mem_cons.mp hpart with rfl | hpart
        · rcases List.mem_cons.mp hc with rfl | hc
          · exact List.mem_cons_self
          · exact List.mem_cons_of_mem _ (hrest first List.mem_cons_self hc)
        · exact List.mem_cons_of_mem _ (hrest part (List.mem_cons_of_mem _ hpart) hc)

/-- Characters that are part of one name. -/
def nameChar (c : Char) : Bool := c ∉ ['/', '\\', ':']

theorem digits_name {revision : String} (h : sha256Revision revision = true) :
    (dropChars 7 revision).toList.all nameChar = true := by
  rw [List.all_eq_true]
  intro c hc
  have hhex := List.all_eq_true.mp (dropChars_sha256 h).2 c hc
  rw [nameChar, decide_eq_true_eq]
  intro hmem
  simp only [List.mem_cons, List.not_mem_nil, or_false] at hmem
  rcases hmem with rfl | rfl | rfl
  · revert hhex
    decide
  · revert hhex
    decide
  · revert hhex
    decide

/-- A readable path, whose last part is longer than a dot or two. -/
theorem append_read {base suffix : String} (hchars : base.toList.all (· ≠ '\\') = true)
    (hparts : ∀ part ∈ (split '/' base).dropLast, part ∉ ["", ".", ".."])
    (hcolon : ∀ part ∈ split '/' base, part.toList.all (· ≠ ':') = true)
    (hname : suffix.toList.all nameChar = true) (hlong : 3 ≤ suffix.toList.length) :
    Verification.repositoryRelative (base ++ suffix) = true := by
  have hsuffix := fun c hc => of_decide_eq_true (List.all_eq_true.mp hname c hc)
  simp only [List.mem_cons, List.not_mem_nil, or_false, not_or] at hsuffix
  have hslash : '/' ∉ suffix.toList := fun hc => (hsuffix _ hc).1 rfl
  obtain ⟨init, last, hbase, hall⟩ := splitOn_append_last hslash base.toList
  rw [split, hbase, List.map_append, List.map_singleton] at hparts hcolon
  rw [List.dropLast_concat] at hparts
  simp only [Verification.repositoryRelative, Bool.and_eq_true, bne_iff_ne, List.all_eq_true]
  rw [split, String.toList_append, hall, List.map_append, List.map_singleton]
  refine ⟨⟨fun hempty => ?_, fun c hc => ?_⟩, fun part hpart => ?_⟩
  · have hlength := congrArg (fun s : String => s.toList.length) hempty
    simp only [String.toList_append, List.length_append, String.toList_empty, List.length_nil]
      at hlength
    omega
  · rcases List.mem_append.mp hc with hc | hc
    · exact List.all_eq_true.mp hchars c hc
    · exact decide_eq_true (hsuffix c hc).2.1
  · rcases List.mem_append.mp hpart with hinit | hlast
    · exact ⟨decide_eq_true (hparts part hinit),
        List.all_eq_true.mp (hcolon part (List.mem_append_left _ hinit))⟩
    · have hcolons := List.all_eq_true.mp (hcolon (String.ofList last) (by simp))
      rw [String.toList_ofList] at hcolons
      rw [List.mem_singleton.mp hlast, String.toList_ofList]
      refine ⟨?_, fun c hc => ?_⟩
      · rw [decide_eq_true_eq]
        intro hmem
        have hshort : ∀ s ∈ ["", ".", ".."], s.toList.length ≤ 2 := by decide
        have hlength := hshort _ hmem
        rw [String.toList_ofList, List.length_append] at hlength
        omega
      · rcases List.mem_append.mp hc with hc | hc
        · exact hcolons c hc
        · exact decide_eq_true (hsuffix c hc).2.2

theorem relative_read {path : String} (h : DecisionSource.relative path = .ok ()) :
    Verification.repositoryRelative path = true := by
  simp only [DecisionSource.relative, check_eq_ok] at h
  obtain ⟨hne, hchars, hparts⟩ := h
  rw [List.all_eq_true] at hchars
  simp only [Verification.repositoryRelative, Bool.and_eq_true, bne_iff_ne, List.all_eq_true]
  refine ⟨⟨hne, fun c hc => ?_⟩, fun part hpart => ⟨?_, fun c hc => ?_⟩⟩
  · have := hchars c hc
    simp only [List.mem_cons, not_or, decide_eq_true_eq] at this
    simpa using this.1
  · have := hparts part hpart
    simp only [List.mem_cons, not_or, List.not_mem_nil, decide_eq_true_eq] at this ⊢
    tauto
  · obtain ⟨chars, hchars', rfl⟩ := List.mem_map.mp hpart
    rw [String.toList_ofList] at hc
    have := hchars c (mem_of_mem_splitOn hchars' hc)
    simp only [List.mem_cons, not_or, decide_eq_true_eq] at this
    simpa using this.2.1

/-- A directory with a file in it that a digest names. -/
theorem digits_read {directory revision suffix : String}
    (hchars : directory.toList.all (· ≠ '\\') = true)
    (hparts : ∀ part ∈ (split '/' directory).dropLast, part ∉ ["", ".", ".."])
    (hcolon : ∀ part ∈ split '/' directory, part.toList.all (· ≠ ':') = true)
    (hrevision : sha256Revision revision = true) (hname : suffix.toList.all nameChar = true)
    (hlong : 3 ≤ suffix.toList.length) :
    Verification.repositoryRelative (directory ++ dropChars 7 revision ++ suffix) = true := by
  rw [String.append_assoc]
  refine append_read hchars hparts hcolon ?_ ?_
  · rw [String.toList_append, List.all_append, digits_name hrevision, hname]
    rfl
  · rw [String.toList_append, List.length_append]
    omega

/-! ## The paths of evidence -/

variable {host : AttemptStore.Host} {e e' : Effect host}

theorem evidence_read (hhash : HashText host) :
    Verification.repositoryRelative e.attemptPath = true ∧
      Verification.repositoryRelative e.resultPath = true :=
  ⟨digits_read (by decide) (by decide) (by decide) (hhash _) (by decide) (by decide),
    digits_read (by decide) (by decide) (by decide) (hhash _) (by decide) (by decide)⟩

theorem stem_prefix {key : String} : startsWith (DIRECTORY ++ "/") (host.stem key) = true := by
  have h : (host.stem key).toList = (DIRECTORY ++ "/").toList ++
      (dropChars 7 (host.hash key.toByteArray)).toList := String.toList_append
  rw [startsWith, List.isPrefixOf_iff_prefix, h]
  exact List.prefix_append _ _

/-- Paths of evidence lie in the directory of effects. -/
theorem evidence_prefix :
    startsWith (DIRECTORY ++ "/") e.attemptPath = true ∧
      startsWith (DIRECTORY ++ "/") e.resultPath = true :=
  ⟨startsWith_append stem_prefix, startsWith_append stem_prefix⟩

theorem ne_of_startsWith {pre path other : String} (hpath : startsWith pre path = true)
    (hother : startsWith pre other = false) : path ≠ other := by
  rintro rfl
  rw [hpath] at hother
  cases hother

theorem ne_of_getLast {path other : String} (h : path.toList.getLast? ≠ other.toList.getLast?) :
    path ≠ other := by
  rintro rfl
  exact h rfl

theorem evidence_last :
    e.attemptPath.toList.getLast? = some 'n' ∧ e.resultPath.toList.getLast? = some 'n' := by
  constructor
  · rw [Effect.attemptPath, Host.attemptPath, String.toList_append,
      List.getLast?_append_of_ne_nil _ (by decide)]
    decide
  · rw [Effect.resultPath, Host.resultPath, String.toList_append,
      List.getLast?_append_of_ne_nil _ (by decide)]
    decide

/-- A path outside the workspace's own directory is no evidence. -/
theorem evidence_apart {path : String} (h : startsWith OWNED path = false) :
    path ≠ e.attemptPath ∧ path ≠ e.resultPath := by
  have howned : ∀ other, startsWith (DIRECTORY ++ "/") other = true →
      startsWith OWNED other = true := by
    intro other hother
    rw [startsWith, List.isPrefixOf_iff_prefix] at hother ⊢
    exact (List.isPrefixOf_iff_prefix.mp (by decide)).trans hother
  exact ⟨(ne_of_startsWith (howned _ evidence_prefix.1) h).symm,
    (ne_of_startsWith (howned _ evidence_prefix.2) h).symm⟩

/-- A readable path under a readable directory. -/
theorem join_read {base leaf : String} (hbase : Verification.repositoryRelative base = true)
    (hleaf : Verification.repositoryRelative leaf = true) :
    Verification.repositoryRelative (base ++ ("/" ++ leaf)) = true := by
  have hlist : (base ++ ("/" ++ leaf)).toList = base.toList ++ '/' :: leaf.toList := by simp
  simp only [Verification.repositoryRelative, Bool.and_eq_true, bne_iff_ne] at hbase hleaf ⊢
  obtain ⟨⟨-, hbaseChars⟩, hbaseParts⟩ := hbase
  obtain ⟨⟨-, hleafChars⟩, hleafParts⟩ := hleaf
  refine ⟨⟨?_, ?_⟩, ?_⟩
  · intro h
    have hlength := congrArg (fun s : String => s.toList.length) h
    simp only [hlist, List.length_append, List.length_cons] at hlength
    simp at hlength
  · rw [hlist, List.all_append, List.all_cons, hbaseChars, hleafChars]
    decide
  · rw [split, hlist, List.splitOn_append_cons_self, List.map_append, List.all_append]
    rw [split] at hbaseParts hleafParts
    rw [hbaseParts, hleafParts]
    rfl

/-- A relative path under a relative directory. -/
theorem relative_join {base leaf : String} (hbase : DecisionSource.relative base = .ok ())
    (hleaf : DecisionSource.relative leaf = .ok ()) :
    DecisionSource.relative (base ++ ("/" ++ leaf)) = .ok () := by
  have hlist : (base ++ ("/" ++ leaf)).toList = base.toList ++ '/' :: leaf.toList := by simp
  simp only [DecisionSource.relative, check_eq_ok] at hbase hleaf ⊢
  obtain ⟨-, hbaseChars, hbaseParts⟩ := hbase
  obtain ⟨-, hleafChars, hleafParts⟩ := hleaf
  refine ⟨?_, ?_, ?_⟩
  · intro h
    have hlength := congrArg (fun s : String => s.toList.length) h
    simp only [hlist, List.length_append, List.length_cons] at hlength
    simp at hlength
  · rw [hlist, List.all_append, List.all_cons, hbaseChars, hleafChars]
    decide
  · intro part hpart
    rw [split, hlist, List.splitOn_append_cons_self, List.map_append] at hpart
    rcases List.mem_append.mp hpart with hpart | hpart
    · exact hbaseParts part hpart
    · exact hleafParts part hpart

/-- A relative path whose last part goes on with a digest. -/
theorem relative_digits {base revision : String} (hbase : DecisionSource.relative base = .ok ())
    (hrevision : sha256Revision revision = true) :
    DecisionSource.relative (base ++ dropChars 7 revision) = .ok () := by
  have hlength := (dropChars_sha256 hrevision).1
  have hhex : ∀ c ∈ (dropChars 7 revision).toList, lowerHexDigit c = true :=
    List.all_eq_true.mp (dropChars_sha256 hrevision).2
  have hne : ∀ c ∈ (dropChars 7 revision).toList, ∀ d, lowerHexDigit d = false → c ≠ d := by
    rintro c hc d hd rfl
    rw [hhex c hc] at hd
    cases hd
  have hslash : '/' ∉ (dropChars 7 revision).toList := fun hc => hne '/' hc '/' (by decide) rfl
  obtain ⟨init, last, hinit, hall⟩ := splitOn_append_last hslash base.toList
  simp only [DecisionSource.relative, check_eq_ok] at hbase ⊢
  obtain ⟨-, hchars, hparts⟩ := hbase
  rw [split, hinit, List.map_append] at hparts
  rw [split, String.toList_append, hall, List.map_append]
  refine ⟨?_, ?_, ?_⟩
  · intro h
    have hsum := congrArg (fun s : String => s.toList.length) h
    simp only [String.toList_append, List.length_append, hlength] at hsum
    simp at hsum
  · rw [List.all_append, hchars, Bool.true_and, List.all_eq_true]
    intro c hc
    rw [decide_eq_true_eq]
    intro hmem
    simp only [List.mem_cons, List.not_mem_nil, or_false] at hmem
    rcases hmem with h | h | h | h
    all_goals exact hne c hc _ (by decide) h
  · intro part hpart
    rcases List.mem_append.mp hpart with hpart | hpart
    · exact hparts part (List.mem_append_left _ hpart)
    · obtain rfl := List.mem_singleton.mp hpart
      intro hmem
      have hlong : (last ++ (dropChars 7 revision).toList).length ≤ 4 := by
        simp only [List.mem_cons, List.not_mem_nil, or_false, ← String.toList_inj,
          String.toList_ofList] at hmem
        rcases hmem with h | h | h | h
        all_goals
          rw [h]
          decide
      rw [List.length_append, hlength] at hlong
      omega

end AgenticCore.Repository
