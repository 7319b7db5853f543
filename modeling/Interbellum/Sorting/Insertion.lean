import Mathlib.Data.List.Basic

/-!
# Insertion sort in place

`sort` is the usual pair of loops over the indices of a list: each entry moves to the left until
the entry before it is in order with it. `le` says whether two entries are in order; it is a
total preorder, and entries that are in order both ways are tied.

* `insert_split`: where an entry ends up.
* `sort_eq`: the loops insert the entries one after the other.
* `sort_perm`, `sorted_sort`, `sort_stable`: the list is sorted, and tied entries keep their order.
* `sort_congr`: without ties, the result does not depend on the order of the entries.
-/

namespace Interbellum.Insertion

variable {α : Type} (le : α → α → Bool)

/-- The inner loop: the entry at an index moves to the left. -/
def sink : ℕ → List α → List α
  | 0, xs => xs
  | j + 1, xs =>
    match xs[j]?, xs[j + 1]? with
    | some a, some b => if le a b then xs else sink j ((xs.set j b).set (j + 1) a)
    | _, _ => xs

/-- The outer loop. -/
def sort (xs : List α) : List α :=
  (List.range' 1 (xs.length - 1)).foldl (fun xs i => sink le i xs) xs

/-- Move `b` to the left through a list that is given from its right end. -/
def shift (b : α) : List α → List α
  | [] => [b]
  | a :: rest => if le a b then b :: a :: rest else a :: shift b rest

/-! ## One entry -/

variable {le} {b : α}

/-- An entry moves past those that are not in order with it, up to one that is. -/
theorem shift_split (le : α → α → Bool) (b : α) (xs : List α) : ∃ passed kept, xs = passed ++ kept ∧
    shift le b xs = passed ++ b :: kept ∧ (∀ a ∈ passed, le a b = false) ∧
      ∀ a ∈ kept.head?, le a b = true := by
  induction xs with
  | nil => exact ⟨[], [], rfl, rfl, by simp, by simp⟩
  | cons a rest ih =>
    rw [shift]
    split_ifs with h
    · exact ⟨[], a :: rest, rfl, rfl, by simp, by simpa using h⟩
    · obtain ⟨passed, kept, rfl, hshift, hpassed, hkept⟩ := ih
      refine ⟨a :: passed, kept, rfl, by rw [hshift, List.cons_append], ?_, hkept⟩
      rintro x (_ | ⟨_, hx⟩)
      · exact eq_false_of_ne_true h
      · exact hpassed x hx

theorem shift_perm (b : α) (xs : List α) : (shift le b xs).Perm (b :: xs) := by
  obtain ⟨passed, kept, rfl, hshift, -, -⟩ := shift_split le b xs
  rw [hshift]
  exact List.perm_middle

theorem length_shift (le : α → α → Bool) (b : α) (xs : List α) :
    (shift le b xs).length = xs.length + 1 :=
  (shift_perm b xs).length_eq

/-- The inner loop inserts the entry at the index into those before it. -/
theorem sink_append (b : α) (xs rest : List α) :
    sink le xs.length (xs.reverse ++ b :: rest) = (shift le b xs).reverse ++ rest := by
  induction xs generalizing rest with
  | nil => rfl
  | cons a xs ih =>
    have hlen : xs.reverse.length = xs.length := List.length_reverse
    have hle : xs.reverse.length ≤ xs.length + 1 := by omega
    have hsplit : (a :: xs).reverse ++ b :: rest = xs.reverse ++ a :: b :: rest := by
      rw [List.reverse_cons, List.append_assoc, List.singleton_append]
    have ha : (xs.reverse ++ a :: b :: rest)[xs.length]? = some a := by
      rw [List.getElem?_append_right (Nat.le_of_eq hlen), hlen, Nat.sub_self]
      rfl
    have hb : (xs.reverse ++ a :: b :: rest)[xs.length + 1]? = some b := by
      rw [List.getElem?_append_right (hle), hlen, Nat.add_sub_cancel_left]
      rfl
    have hswap : ((xs.reverse ++ a :: b :: rest).set xs.length b).set (xs.length + 1) a =
        xs.reverse ++ b :: a :: rest := by
      rw [List.set_append_right _ _ (Nat.le_of_eq hlen), hlen, Nat.sub_self,
        List.set_append_right _ _ (hle), hlen, Nat.add_sub_cancel_left]
      rfl
    rw [List.length_cons, hsplit, sink, ha, hb]
    dsimp only
    rw [hswap, ih, shift]
    split_ifs with h
    · rw [List.reverse_cons, List.reverse_cons, List.append_assoc, List.append_assoc]
      rfl
    · rw [List.reverse_cons]
      simp only [List.append_assoc, List.singleton_append]

/-! ## All entries -/

theorem foldl_sink (xs rest : List α) :
    (List.range' xs.length rest.length).foldl (fun xs i => sink le i xs) (xs.reverse ++ rest) =
      (rest.foldl (fun sorted b => shift le b sorted) xs).reverse := by
  induction rest generalizing xs with
  | nil => simp
  | cons b rest ih =>
    rw [List.length_cons, List.range'_succ, List.foldl_cons, sink_append, List.foldl_cons,
      ← length_shift le b xs]
    exact ih _

/-- The loops insert the entries one after the other. -/
theorem sort_eq (xs : List α) :
    sort le xs = (xs.foldl (fun sorted b => shift le b sorted) []).reverse := by
  cases xs with
  | nil => rfl
  | cons a rest => exact foldl_sink [a] rest

theorem foldl_shift_perm (sorted xs : List α) :
    (xs.foldl (fun sorted b => shift le b sorted) sorted).Perm (sorted ++ xs) := by
  induction xs generalizing sorted with
  | nil => rw [List.append_nil, List.foldl_nil]
  | cons b rest ih =>
    exact ((ih _).trans ((shift_perm b sorted).append_right rest)).trans List.perm_middle.symm

theorem sort_perm (xs : List α) : (sort le xs).Perm xs := by
  rw [sort_eq]
  exact (List.reverse_perm _).trans (foldl_shift_perm [] xs)

/-- Tied entries keep their order. -/
theorem filter_shift {p : α → Bool} (hties : ∀ a b, p a = true → p b = true → le a b = true)
    (b : α) (xs : List α) : (shift le b xs).filter p = (b :: xs).filter p := by
  obtain ⟨passed, kept, rfl, hshift, hpassed, -⟩ := shift_split le b xs
  rw [hshift, List.filter_append, List.filter_cons, List.filter_cons, List.filter_append]
  split_ifs with hb
  · have hnone : passed.filter p = [] := by
      refine List.filter_eq_nil_iff.mpr fun a ha hp => ?_
      have hle := hties a b hp hb
      rw [hpassed a ha] at hle
      cases hle
    rw [hnone, List.nil_append, List.nil_append]
  · rfl

theorem sort_stable {p : α → Bool} (hties : ∀ a b, p a = true → p b = true → le a b = true)
    (xs : List α) : (sort le xs).filter p = xs.filter p := by
  have hfold : ∀ sorted : List α, (xs.foldl (fun sorted b => shift le b sorted) sorted).filter p =
      (xs.reverse ++ sorted).filter p := by
    induction xs with
    | nil => exact fun _ => rfl
    | cons b rest ih =>
      intro sorted
      rw [List.foldl_cons, ih, List.filter_append, filter_shift hties, List.reverse_cons,
        List.append_assoc, List.filter_append]
      rfl
  rw [sort_eq, List.filter_reverse, hfold, List.append_nil, List.filter_reverse,
    List.reverse_reverse]

section

variable (htotal : ∀ a b, le a b = true ∨ le b a = true)
  (htrans : ∀ a b c, le a b = true → le b c = true → le a c = true)
include htotal htrans

theorem sorted_shift {xs : List α} (h : xs.Pairwise fun a c => le c a = true) :
    (shift le b xs).Pairwise fun a c => le c a = true := by
  obtain ⟨passed, kept, rfl, hshift, hpassed, hkept⟩ := shift_split le b xs
  obtain ⟨hleft, hright, hacross⟩ := List.pairwise_append.mp h
  have hbelow : ∀ c ∈ kept, le c b = true := by
    intro c hc
    cases kept with
    | nil => exact absurd hc List.not_mem_nil
    | cons a rest =>
      have ha : le a b = true := hkept a rfl
      rcases List.mem_cons.mp hc with rfl | hc
      · exact ha
      · exact htrans c a b ((List.pairwise_cons.mp hright).1 c hc) ha
  rw [hshift]
  refine List.pairwise_append.mpr ⟨hleft, List.pairwise_cons.mpr ⟨hbelow, hright⟩, ?_⟩
  intro a ha c hc
  rcases List.mem_cons.mp hc with rfl | hc
  · exact (htotal a c).resolve_left fun hle => by simp [hpassed a ha] at hle
  · exact hacross a ha c hc

theorem sorted_sort (xs : List α) : (sort le xs).Pairwise fun a b => le a b = true := by
  have hfold : ∀ sorted : List α, (sorted.Pairwise fun a c => le c a = true) →
      (xs.foldl (fun sorted b => shift le b sorted) sorted).Pairwise fun a c => le c a = true := by
    induction xs with
    | nil => exact fun _ h => h
    | cons b rest ih => exact fun sorted h => ih _ (sorted_shift htotal htrans h)
  rw [sort_eq, List.pairwise_reverse]
  exact hfold [] List.Pairwise.nil

/-- Without ties, the result does not depend on the order of the entries. -/
theorem sort_congr {xs ys : List α} (hperm : xs.Perm ys)
    (hties : ∀ a ∈ xs, ∀ b ∈ xs, le a b = true → le b a = true → a = b) :
    sort le xs = sort le ys := by
  refine List.Perm.eq_of_pairwise ?_ (sorted_sort htotal htrans xs) (sorted_sort htotal htrans ys)
    ((sort_perm xs).trans (hperm.trans (sort_perm ys).symm))
  intro a b ha hb hab hba
  exact hties a ((sort_perm xs).mem_iff.mp ha) b
    (hperm.mem_iff.mpr ((sort_perm ys).mem_iff.mp hb)) hab hba

end

end Interbellum.Insertion
