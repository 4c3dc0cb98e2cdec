import AgenticCore.Text

/-!
# Pages of an ordered collection

A page shows the first items behind a cursor; the last item shown is the cursor of the next page
while more items remain.

* `Browse`        : the pages seen by following the cursors until there is none.
* `Browse.unique` : there is one way to browse.
* `cutPage`       : a page of at most `n` items of a list.
* `browse_cutPage` : **browsing a strictly ascending list ends, and shows each item behind the first
                    cursor once, in order.**
-/

set_option autoImplicit false

namespace Paging

variable {κ α : Type*}

structure Page (κ α : Type*) where
  items : List α
  next : Option κ
  deriving DecidableEq, Repr

/-- The pages from a cursor on, the last of which names no next cursor. -/
inductive Browse (view : κ → Page κ α) : κ → List (Page κ α) → Prop
  | last {after : κ} (h : (view after).next = none) : Browse view after [view after]
  | more {after cursor : κ} {pages : List (Page κ α)} (h : (view after).next = some cursor)
      (rest : Browse view cursor pages) : Browse view after (view after :: pages)

theorem Browse.unique {view : κ → Page κ α} {after : κ} {pages pages' : List (Page κ α)}
    (h : Browse view after pages) (h' : Browse view after pages') : pages = pages' := by
  induction h generalizing pages' with
  | last hnone =>
    cases h' with
    | last => rfl
    | more hsome =>
      rw [hnone] at hsome
      cases hsome
  | more hsome _ ih =>
    cases h' with
    | last hnone =>
      rw [hnone] at hsome
      cases hsome
    | more hsome' rest =>
      rw [hsome] at hsome'
      cases hsome'
      rw [ih rest]

section Cut

variable [LinearOrder κ]

/-- The items behind the cursor. -/
def behind (xs : List κ) (after : κ) : List κ := xs.filter (after < ·)

/-- The first `n` items behind the cursor. -/
def cutPage (n : Nat) (xs : List κ) (f : κ → α) (after : κ) : Page κ α where
  items := ((behind xs after).take n).map f
  next := if n < (behind xs after).length then ((behind xs after).take n).getLast? else none

theorem filter_prefix {xs ys : List κ} {x : κ} (h : (xs ++ [x] ++ ys).Pairwise (· < ·)) :
    (xs ++ [x] ++ ys).filter (x < ·) = ys := by
  rw [List.pairwise_append] at h
  obtain ⟨hfront, -, hcross⟩ := h
  rw [List.filter_append, List.filter_eq_nil_iff.mpr, List.nil_append, List.filter_eq_self]
  · intro y hy
    exact decide_eq_true (hcross x (by simp) y hy)
  · intro y hy
    rcases List.mem_append.mp hy with hy | hy
    · have := (List.pairwise_append.mp hfront).2.2 y hy x (List.mem_singleton_self x)
      simpa using this.le
    · simp [List.mem_singleton.mp hy]

/-- Behind the last of the items shown are the items not shown. -/
theorem behind_last {xs : List κ} (h : xs.Pairwise (· < ·)) {n : Nat} {after cursor : κ}
    (hlast : ((behind xs after).take n).getLast? = some cursor) :
    behind xs cursor = (behind xs after).drop n := by
  obtain ⟨front, hfront⟩ := List.getLast?_eq_some_iff.mp hlast
  have hsplit : behind xs after = front ++ [cursor] ++ (behind xs after).drop n := by
    rw [← hfront, List.take_append_drop]
  have hcursor : after < cursor := by
    have hmem : cursor ∈ behind xs after := by
      rw [hsplit]
      simp
    exact of_decide_eq_true (List.mem_filter.mp hmem).2
  have hsub : behind xs cursor = (behind xs after).filter (cursor < ·) := by
    unfold behind
    rw [List.filter_filter]
    refine List.filter_congr fun x _ => ?_
    by_cases hx : cursor < x
    · rw [decide_eq_true hx, decide_eq_true (hcursor.trans hx), Bool.and_self]
    · rw [decide_eq_false hx, Bool.false_and]
  have hsorted : (behind xs after).Pairwise (· < ·) := h.filter _
  rw [hsub]
  rw [hsplit] at hsorted
  conv_lhs => rw [hsplit]
  exact filter_prefix hsorted

/-- **Browsing a strictly ascending list ends, and shows each item behind the first cursor once, in
    order.** -/
theorem browse_cutPage {xs : List κ} (h : xs.Pairwise (· < ·)) {n : Nat} (hn : 0 < n)
    (f : κ → α) (after : κ) :
    ∃ pages, Browse (cutPage n xs f) after pages ∧
      pages.flatMap (·.items) = (behind xs after).map f := by
  induction hlength : (behind xs after).length using Nat.strong_induction_on generalizing after with
  | _ length ih =>
    by_cases hmore : n < (behind xs after).length
    · have hne : (behind xs after).take n ≠ [] := by
        rw [Ne, List.take_eq_nil_iff]
        rintro (hzero | hnil)
        · omega
        · rw [hnil] at hmore
          exact absurd hmore (by simp)
      obtain ⟨cursor, hcursor⟩ : ∃ cursor, ((behind xs after).take n).getLast? = some cursor :=
        ⟨_, List.getLast?_eq_some_getLast hne⟩
      have hdrop := behind_last h hcursor
      have hshorter : (behind xs cursor).length < length := by
        rw [hdrop, List.length_drop]
        omega
      obtain ⟨pages, hbrowse, hitems⟩ := ih _ hshorter cursor rfl
      refine ⟨cutPage n xs f after :: pages, .more ?_ hbrowse, ?_⟩
      · rw [cutPage, if_pos hmore, hcursor]
      · rw [List.flatMap_cons, hitems, hdrop]
        show ((behind xs after).take n).map f ++ _ = _
        rw [← List.map_append, List.take_append_drop]
    · refine ⟨[cutPage n xs f after], .last ?_, ?_⟩
      · rw [cutPage, if_neg hmore]
      · show ((behind xs after).take n).map f ++ [] = _
        rw [List.append_nil, List.take_of_length_le (by omega)]

end Cut

end Paging
