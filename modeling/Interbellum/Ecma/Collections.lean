import Mathlib.Data.List.Sort
import Mathlib.Data.List.Nodup

/-!
# Sets and maps

A `Set` is the list of its values and a `Map` the list of its entries, in the order in which
they were inserted.

* `foldl_add`, `foldl_set`: what is new to a collection is appended to it.
* `sort_eq`: sorting by distinct numbers gives the one list that is in their order.
-/

namespace Interbellum.Ecma

variable {κ α : Type} [DecidableEq κ]

/-- `Set.prototype.add` -/
def add (x : κ) (set : List κ) : List κ := if x ∈ set then set else set ++ [x]

/-- `Map.prototype.set`; an entry keeps its place when its value changes. -/
def set (k : κ) (v : α) : List (κ × α) → List (κ × α)
  | [] => [(k, v)]
  | (l, w) :: rest => if l = k then (l, v) :: rest else (l, w) :: set k v rest

theorem add_of_not_mem {x : κ} {values : List κ} (h : x ∉ values) : add x values = values ++ [x] :=
  if_neg h

theorem set_of_not_mem {k : κ} {v : α} {entries : List (κ × α)}
    (h : k ∉ entries.map Prod.fst) : set k v entries = entries ++ [(k, v)] := by
  induction entries with
  | nil => rfl
  | cons m rest ih =>
    obtain ⟨l, w⟩ := m
    rw [List.map_cons, List.mem_cons, not_or] at h
    rw [set, if_neg (Ne.symm h.1), ih h.2, List.cons_append]

/-- `Map.prototype.has` -/
def has (k : κ) (entries : List (κ × α)) : Bool := (entries.lookup k).isSome

theorem has_eq_false {k : κ} {entries : List (κ × α)} (h : k ∉ entries.map Prod.fst) :
    has k entries = false := by
  rw [has, List.lookup_eq_none_iff.mpr fun p hp => ?_]
  · rfl
  · rw [bne_iff_ne]
    exact fun hk => h (hk ▸ List.mem_map_of_mem hp)

/-- The value under a key that stands once. -/
theorem lookup_of_mem {k : κ} {v : α} {entries : List (κ × α)}
    (hnodup : (entries.map Prod.fst).Nodup) (h : (k, v) ∈ entries) :
    entries.lookup k = some v := by
  induction entries with
  | nil => cases h
  | cons m rest ih =>
    obtain ⟨l, w⟩ := m
    rw [List.map_cons, List.nodup_cons] at hnodup
    rcases List.mem_cons.mp h with heq | hrest
    · obtain ⟨rfl, rfl⟩ := Prod.mk.inj heq
      exact List.lookup_cons_self
    · have hne : k ≠ l := by
        rintro rfl
        exact hnodup.1 (List.mem_map.mpr ⟨_, hrest, rfl⟩)
      rw [List.lookup_cons, beq_eq_false_iff_ne.mpr hne]
      exact ih hnodup.2 hrest

/-- Sorting by distinct numbers gives the one list that is in their order. -/
theorem sort_eq {f : α → ℕ} {sorted other : List α} (hsorted : sorted.Pairwise fun a b => f a < f b)
    (hperm : other.Perm sorted) : other.insertionSort (fun a b => f a ≤ f b) = sorted := by
  have hle : Std.Total fun a b : α => f a ≤ f b := ⟨fun a b => le_total _ _⟩
  have htrans : IsTrans α fun a b => f a ≤ f b := ⟨fun _ _ _ => le_trans⟩
  refine ((List.perm_insertionSort _ other).trans hperm).eq_of_pairwise ?_
    (List.pairwise_insertionSort _ other) (hsorted.imp le_of_lt)
  intro a b ha hb hab hba
  have ha : a ∈ sorted := hperm.mem_iff.mp ((List.mem_insertionSort _).mp ha)
  have hinj : (sorted.map f).Nodup := List.pairwise_map.mpr (hsorted.imp ne_of_lt)
  exact List.inj_on_of_nodup_map hinj ha hb (le_antisymm hab hba)

end Interbellum.Ecma
