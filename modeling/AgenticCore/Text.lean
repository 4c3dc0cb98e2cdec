import Mathlib

/-!
# Strings as the source's standard library treats them

`trim`, prefixes and `split_once` over Unicode scalar values, and the ordered collections
`BTreeMap` / `BTreeSet`, whose equality is equality of contents. Sorting is `List.insertionSort`,
a stable sort; `sortDedup` is `values.sort(); values.dedup()`.
-/

set_option autoImplicit false

abbrev BTreeMap (κ α : Type) [Ord κ] := Std.ExtTreeMap κ α compare

abbrev BTreeSet (α : Type) [Ord α] := Std.ExtTreeSet α compare

/-- `map.values()`: in the order of the keys. -/
def valuesOf {κ α : Type} [Ord κ] [Std.TransOrd κ] (m : BTreeMap κ α) : List α :=
  m.toList.map Prod.snd

theorem mem_valuesOf {κ α : Type} [Ord κ] [Std.TransOrd κ] [Std.LawfulEqOrd κ]
    {m : BTreeMap κ α} {a : α} : a ∈ valuesOf m ↔ ∃ k : κ, m[k]? = some a := by
  simp [valuesOf, Std.ExtTreeMap.mem_toList_iff_getElem?_eq_some]

namespace Text

/-- The Unicode property White_Space, as `char::is_whitespace`. -/
def isWhitespace (c : Char) : Bool :=
  let n := c.toNat
  (0x09 ≤ n && n ≤ 0x0d) || n == 0x20 || n == 0x85 || n == 0xa0 || n == 0x1680 ||
    (0x2000 ≤ n && n ≤ 0x200a) || n == 0x2028 || n == 0x2029 || n == 0x202f || n == 0x205f ||
    n == 0x3000

def trimStart (cs : List Char) : List Char := cs.dropWhile isWhitespace

def trim (s : String) : String :=
  String.ofList (trimStart (trimStart s.toList).reverse).reverse

def startsWith (pre s : String) : Bool := pre.toList.isPrefixOf s.toList

def endsWith (suf s : String) : Bool := suf.toList.isSuffixOf s.toList

/-- `s.contains(pat)`. -/
def contains (pat s : String) : Bool := decide (pat.toList <:+: s.toList)

/-- `s[start..]` for a start that is a character boundary in ASCII text. -/
def dropChars (n : Nat) (s : String) : String := String.ofList (s.toList.drop n)

/-- `str::strip_prefix`. -/
def stripPrefix (pre s : String) : Option String :=
  if startsWith pre s then some (dropChars pre.length s) else none

/-- `str::strip_suffix`. -/
def stripSuffix (suf s : String) : Option String :=
  if endsWith suf s then some (String.ofList (s.toList.take (s.length - suf.length))) else none

/-- `s.split_once(c)`. -/
def splitOnce (c : Char) (s : String) : Option (String × String) :=
  let cs := s.toList
  match cs.dropWhile (· ≠ c) with
  | [] => none
  | _ :: rest => some (String.ofList (cs.takeWhile (· ≠ c)), String.ofList rest)

/-- `s.split(c)`. -/
def split (c : Char) (s : String) : List String :=
  (s.toList.splitOn c).map String.ofList

theorem startsWith_iff {pre s : String} :
    startsWith pre s = true ↔ ∃ rest, s = pre ++ String.ofList rest := by
  rw [startsWith, List.isPrefixOf_iff_prefix]
  constructor
  · rintro ⟨rest, hrest⟩
    refine ⟨rest, String.toList_inj.mp ?_⟩
    rw [String.toList_append, String.toList_ofList, hrest]
  · rintro ⟨rest, rfl⟩
    rw [String.toList_append]
    exact List.prefix_append _ _

theorem stripPrefix_eq_some {pre s t : String} : stripPrefix pre s = some t ↔ s = pre ++ t := by
  rw [stripPrefix]
  split
  · rename_i h
    obtain ⟨rest, hrest⟩ := startsWith_iff.mp h
    have hdrop : dropChars pre.length s = String.ofList rest := by
      rw [dropChars, hrest, String.toList_append, ← String.length_toList, List.drop_left,
        String.toList_ofList]
    rw [hdrop, hrest, Option.some.injEq, String.append_right_inj]
  · rename_i h
    constructor
    · intro hnone
      cases hnone
    · intro heq
      refine absurd (startsWith_iff.mpr ⟨t.toList, ?_⟩) h
      rw [String.ofList_toList, heq]

theorem stripSuffix_eq_some {suf s t : String} : stripSuffix suf s = some t ↔ s = t ++ suf := by
  rw [stripSuffix, endsWith]
  split
  · rename_i h
    obtain ⟨rest, hrest⟩ := List.isSuffixOf_iff_suffix.mp h
    have hlength : s.length - suf.length = rest.length := by
      rw [← String.length_toList, ← String.length_toList, ← hrest, List.length_append]
      omega
    have hs : s = String.ofList rest ++ suf := by
      rw [← String.toList_inj, String.toList_append, String.toList_ofList, hrest]
    rw [hlength, ← hrest, List.take_left, Option.some.injEq, hs, String.append_left_inj]
  · rename_i h
    constructor
    · intro hnone
      cases hnone
    · intro heq
      refine absurd ?_ h
      rw [List.isSuffixOf_iff_suffix, heq, String.toList_append]
      exact List.suffix_append _ _
/-! ## Trimming -/

theorem trimStart_of_head {cs : List Char} (h : ∀ c ∈ cs.head?, isWhitespace c = false) :
    trimStart cs = cs := by
  cases cs with
  | nil => rfl
  | cons c cs => rw [trimStart, List.dropWhile_cons_of_neg (by simp [h c rfl])]

theorem trimStart_head (cs : List Char) : ∀ c ∈ (trimStart cs).head?, isWhitespace c = false := by
  intro c hc
  have hhead := List.head?_dropWhile_not (p := isWhitespace) (l := cs)
  rw [← trimStart, Option.mem_def.mp hc] at hhead
  exact hhead

/-- A text that starts and ends with no white space is its own trimming. -/
theorem trim_of_ends {s : String} (hhead : ∀ c ∈ s.toList.head?, isWhitespace c = false)
    (hlast : ∀ c ∈ s.toList.getLast?, isWhitespace c = false) : trim s = s := by
  rw [trim, trimStart_of_head hhead, trimStart_of_head (by rwa [List.head?_reverse]),
    List.reverse_reverse, String.ofList_toList]

theorem trim_ends (s : String) : (∀ c ∈ (trim s).toList.head?, isWhitespace c = false) ∧
    ∀ c ∈ (trim s).toList.getLast?, isWhitespace c = false := by
  rw [trim, String.toList_ofList]
  constructor
  · intro c hc
    obtain ⟨before, hbefore⟩ : (trimStart (trimStart s.toList).reverse).reverse <+:
        trimStart s.toList := by
      rw [← List.reverse_suffix, List.reverse_reverse]
      exact List.dropWhile_suffix _
    apply trimStart_head s.toList
    rw [← hbefore]
    exact List.mem_head?_append_of_mem_head? hc
  · intro c hc
    rw [List.getLast?_reverse] at hc
    exact trimStart_head _ c hc

theorem trim_trim (s : String) : trim (trim s) = trim s :=
  trim_of_ends (trim_ends s).1 (trim_ends s).2

end Text

/-! ## Sorting without duplicates -/

section SortDedup

variable {α : Type*}

/-- `dedup`: keep the first of each run of equal values. -/
def dedupRuns [DecidableEq α] : List α → List α
  | [] => []
  | [a] => [a]
  | a :: b :: rest => if a = b then dedupRuns (b :: rest) else a :: dedupRuns (b :: rest)

theorem mem_dedupRuns [DecidableEq α] {x : α} : ∀ {l : List α}, x ∈ dedupRuns l ↔ x ∈ l
  | [] => Iff.rfl
  | [_] => Iff.rfl
  | a :: b :: rest => by
    rw [dedupRuns]
    split
    · rename_i h
      rw [mem_dedupRuns, h]
      simp
    · rw [List.mem_cons, mem_dedupRuns, List.mem_cons (l := b :: rest)]

section Keyed

variable {κ : Type*} [DecidableEq α] [LinearOrder κ] {key : α → κ}

theorem pairwise_dedupRuns (hkey : Function.Injective key) :
    ∀ {l : List α}, (l.Pairwise fun a b => key a ≤ key b) →
      (dedupRuns l).Pairwise fun a b => key a < key b
  | [], _ => .nil
  | [_], _ => List.pairwise_singleton _ _
  | a :: b :: rest, h => by
    rw [List.pairwise_cons] at h
    have hrest := pairwise_dedupRuns hkey h.2
    rw [dedupRuns]
    split
    · exact hrest
    · rename_i hne
      refine List.pairwise_cons.mpr ⟨fun x hx => ?_, hrest⟩
      have hab : key a < key b :=
        lt_of_le_of_ne (h.1 b List.mem_cons_self) fun heq => hne (hkey heq)
      rcases List.mem_cons.mp (mem_dedupRuns.mp hx) with rfl | hx
      · exact hab
      · exact hab.trans_le ((List.pairwise_cons.mp h.2).1 x hx)

/-- Sorting without repetition depends only on what the list has. -/
theorem dedupRuns_insertionSort_eq (hkey : Function.Injective key) {l l' : List α}
    (h : ∀ x, x ∈ l ↔ x ∈ l') :
    dedupRuns (l.insertionSort fun a b => key a ≤ key b) =
      dedupRuns (l'.insertionSort fun a b => key a ≤ key b) := by
  have hsorted : ∀ m : List α, (dedupRuns (m.insertionSort fun a b => key a ≤ key b)).Pairwise
      fun a b => key a < key b := fun m => by
    have : Std.Total fun a b : α => key a ≤ key b := ⟨fun a b => le_total (key a) (key b)⟩
    have : IsTrans α fun a b => key a ≤ key b := ⟨fun _ _ _ => le_trans⟩
    exact pairwise_dedupRuns hkey (List.pairwise_insertionSort _ _)
  have hnodup : ∀ m : List α, (dedupRuns (m.insertionSort fun a b => key a ≤ key b)).Nodup :=
    fun m => (hsorted m).imp fun hlt heq => absurd (congrArg key heq) hlt.ne
  refine List.Perm.eq_of_pairwise (fun a b _ _ hab hba => absurd hba hab.asymm) (hsorted l)
    (hsorted l') ((List.perm_ext_iff_of_nodup (hnodup l) (hnodup l')).mpr fun x => ?_)
  rw [mem_dedupRuns, mem_dedupRuns, List.mem_insertionSort, List.mem_insertionSort, h]

end Keyed

variable [LinearOrder α]

def sortDedup (l : List α) : List α := dedupRuns (l.insertionSort (· ≤ ·))

theorem mem_sortDedup {x : α} {l : List α} : x ∈ sortDedup l ↔ x ∈ l := by
  rw [sortDedup, mem_dedupRuns, List.mem_insertionSort]

/-- `sortDedup` depends only on what the list has. -/
theorem sortDedup_eq {l l' : List α} (h : ∀ x, x ∈ l ↔ x ∈ l') : sortDedup l = sortDedup l' :=
  dedupRuns_insertionSort_eq Function.injective_id h

/-- Sorting and deduplicating forgets the order of arrival. -/
theorem sortDedup_eq_of_perm {l l' : List α} (h : l.Perm l') : sortDedup l = sortDedup l' :=
  sortDedup_eq fun _ => h.mem_iff

theorem nodup_sortDedup (values : List α) : (sortDedup values).Nodup :=
  (pairwise_dedupRuns Function.injective_id (List.pairwise_insertionSort _ values)).imp ne_of_lt

end SortDedup

/-- A stable sort by a key forgets the order of arrival when equal keys mean equal values. -/
theorem insertionSort_key_eq_of_perm {α κ : Type*} [LinearOrder κ] (key : α → κ) {l l' : List α}
    (h : l.Perm l') (hkey : ∀ a ∈ l, ∀ b ∈ l, key a = key b → a = b) :
    l.insertionSort (fun a b => key a ≤ key b) = l'.insertionSort (fun a b => key a ≤ key b) := by
  have hsorted := fun m : List α =>
    haveI : Std.Total fun a b : α => key a ≤ key b := ⟨fun a b => le_total (key a) (key b)⟩
    haveI : IsTrans α fun a b => key a ≤ key b := ⟨fun _ _ _ => le_trans⟩
    List.pairwise_insertionSort (fun a b : α => key a ≤ key b) m
  refine List.Perm.eq_of_pairwise ?_ (hsorted l) (hsorted l') ?_
  · intro a b ha hb hab hba
    rw [List.mem_insertionSort] at ha hb
    exact hkey a ha b (h.mem_iff.mpr hb) (le_antisymm hab hba)
  · exact (List.perm_insertionSort _ _).trans (h.trans (List.perm_insertionSort _ _).symm)
