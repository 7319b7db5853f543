import Mathlib.Data.List.Induction
import Mathlib.Data.List.Sort
import Interbellum.Domain.Json

/-!
# Equality of JSON values

Two documents are the same value when they differ in the order of members and in members that
a later one of the same name hides. This says what `jsonb` is for without saying how it is
stored.

* `Json.same_iff`: the same values are the ones that `jsonb` stores alike.
-/

namespace Interbellum.Json

/-- The value of the last member of a name. -/
def last (k : String) (members : List (String × Json)) : Option Json :=
  ((members.filter fun m => m.1 = k).getLast?).map Prod.snd

/-- Numbers are the same when their values are, arrays item by item, and objects by the last
member of each name. -/
inductive Same : Json → Json → Prop
  | null : Same .null .null
  | bool (b : Bool) : Same (.bool b) (.bool b)
  | num (q : Rat) : Same (.num q) (.num q)
  | str (s : String) : Same (.str s) (.str s)
  | arr {xs ys : List Json} (hlength : xs.length = ys.length)
      (hitems : ∀ n (hx : n < xs.length) (hy : n < ys.length), Same xs[n] ys[n]) :
      Same (.arr xs) (.arr ys)
  | obj {ms ns : List (String × Json)} (hnames : ∀ k, (last k ms).isSome = (last k ns).isSome)
      (hvalues : ∀ k x y, last k ms = some x → last k ns = some y → Same x y) :
      Same (.obj ms) (.obj ns)

/-! ## The last member of a name -/

@[simp] theorem last_nil (k : String) : last k [] = none := rfl

theorem last_concat (k : String) (members : List (String × Json)) (m : String × Json) :
    last k (members ++ [m]) = if m.1 = k then some m.2 else last k members := by
  unfold last
  rw [List.filter_append, List.filter_singleton]
  by_cases hm : m.1 = k
  · simp [hm]
  · simp [hm]

theorem last_append (k : String) (ms ns : List (String × Json)) :
    last k (ms ++ ns) = (last k ns).or (last k ms) := by
  induction ns using List.reverseRecOn with
  | nil => rw [List.append_nil, last_nil, Option.none_or]
  | append_singleton ns n ih =>
    rw [← List.append_assoc, last_concat, last_concat, ih]
    split_ifs <;> rfl

theorem last_cons (k : String) (m : String × Json) (members : List (String × Json)) :
    last k (m :: members) = (last k members).or (if m.1 = k then some m.2 else none) := by
  rw [← List.singleton_append, last_append, ← List.nil_append [m], last_concat, last_nil]

theorem mem_of_last {k : String} {members : List (String × Json)} {v : Json}
    (h : last k members = some v) : (k, v) ∈ members := by
  obtain ⟨m, hm, rfl⟩ := Option.map_eq_some_iff.mp h
  obtain ⟨hmem, hk⟩ := List.mem_filter.mp (List.mem_of_getLast? hm)
  rw [← of_decide_eq_true hk]
  exact hmem

theorem last_eq_none {k : String} {members : List (String × Json)} :
    last k members = none ↔ ∀ m ∈ members, m.1 ≠ k := by
  rw [last, Option.map_eq_none_iff, List.getLast?_eq_none_iff, List.filter_eq_nil_iff]
  simp

/-- Where each name stands once, its only member is its last. -/
theorem last_of_mem {k : String} {members : List (String × Json)} {v : Json}
    (hnodup : (members.map Prod.fst).Nodup) (h : (k, v) ∈ members) : last k members = some v := by
  cases hlast : last k members with
  | none => exact absurd rfl (last_eq_none.mp hlast (k, v) h)
  | some w =>
    have hw := List.inj_on_of_nodup_map hnodup h (mem_of_last hlast) rfl
    rw [(Prod.mk.inj hw).2]

/-- Sorting by name keeps the order of the members of one name. -/
theorem last_sorted (k : String) (members : List (String × Json)) :
    last k (members.insertionSort fun a b => a.1 ≤ b.1) = last k members := by
  have hfilter : (members.insertionSort fun a b => a.1 ≤ b.1).filter (fun m => m.1 = k) =
      members.filter fun m => m.1 = k := by
    have hperm := (List.perm_insertionSort (fun a b : String × Json => a.1 ≤ b.1) members).filter
      fun m => decide (m.1 = k)
    have hsame : (members.filter fun m => m.1 = k).Pairwise fun a b => a.1 ≤ b.1 := by
      refine List.pairwise_of_forall_mem_list ?_
      intro a ha b hb
      have hak : a.1 = k := of_decide_eq_true (List.mem_filter.mp ha).2
      have hbk : b.1 = k := of_decide_eq_true (List.mem_filter.mp hb).2
      rw [hak, hbk]
    have hsub := (List.sublist_insertionSort hsame List.filter_sublist).filter
      fun m => decide (m.1 = k)
    rw [List.filter_filter, List.filter_congr fun m _ => Bool.and_self (decide (m.1 = k))] at hsub
    exact (hsub.eq_of_length hperm.length_eq.symm).symm
  rw [last, hfilter, last]

/-! ## What is stored -/

theorem last_insertMember {k l : String} {v : Json} {members : List (String × Json)}
    (hsorted : members.Pairwise fun a b => a.1 < b.1) :
    last l (insertMember k v members) = if k = l then some v else last l members := by
  induction members with
  | nil => rw [insertMember, last_cons, last_nil, Option.none_or]
  | cons head rest ih =>
    obtain ⟨name, w⟩ := head
    obtain ⟨hhead, hrest⟩ := List.pairwise_cons.mp hsorted
    rw [insertMember]
    rcases lt_trichotomy k name with hlt | rfl | hgt
    · rw [if_pos hlt, last_cons]
      by_cases hkl : k = l
      · subst hkl
        have hnone : last k ((name, w) :: rest) = none := by
          refine last_eq_none.mpr (List.forall_mem_cons.mpr ⟨(ne_of_lt hlt).symm, fun m hm => ?_⟩)
          exact (ne_of_lt (lt_trans hlt (hhead m hm))).symm
        rw [hnone, Option.none_or]
      · rw [if_neg hkl, if_neg hkl, Option.or_none]
    · rw [if_neg (lt_irrefl k), if_pos rfl, last_cons, last_cons]
      by_cases hkl : k = l
      · subst hkl
        have hnone : last k rest = none := last_eq_none.mpr fun m hm => (ne_of_lt (hhead m hm)).symm
        rw [hnone, Option.none_or, if_pos rfl, if_pos rfl]
      · rw [if_neg hkl, if_neg hkl, if_neg hkl]
    · rw [if_neg (lt_asymm hgt), if_neg (ne_of_gt hgt), last_cons, last_cons, ih hrest]
      by_cases hkl : k = l
      · rw [if_pos hkl, if_pos hkl, Option.some_or]
      · rw [if_neg hkl, if_neg hkl]

theorem last_jsonbMembers (k : String) {members acc : List (String × Json)} (hacc : Settled acc) :
    last k (jsonbMembers acc members) = ((last k members).map jsonb).or (last k acc) := by
  induction members generalizing acc with
  | nil => rw [jsonbMembers, last_nil, Option.map_none, Option.none_or]
  | cons m rest ih =>
    obtain ⟨name, v⟩ := m
    rw [jsonbMembers, ih (hacc.insertMember (jsonb_jsonb v)), last_insertMember hacc.1, last_cons]
    cases last k rest with
    | some w => rfl
    | none =>
      rw [Option.map_none, Option.none_or, Option.none_or]
      split_ifs <;> rfl

theorem Settled.nodup {members : List (String × Json)} (h : Settled members) :
    (members.map Prod.fst).Nodup :=
  List.pairwise_map.mpr (h.1.imp fun hlt => ne_of_lt hlt)

theorem Settled.last_eq_some {k : String} {v : Json} {members : List (String × Json)}
    (h : Settled members) : last k members = some v ↔ (k, v) ∈ members :=
  ⟨mem_of_last, last_of_mem h.nodup⟩

/-- Members in the order of their names are determined by what stands under each name. -/
theorem Settled.ext {ms ns : List (String × Json)} (hms : Settled ms) (hns : Settled ns)
    (h : ∀ k, last k ms = last k ns) : ms = ns := by
  have hperm : ms.Perm ns := by
    refine (List.perm_ext_iff_of_nodup hms.nodup.of_map hns.nodup.of_map).mpr ?_
    rintro ⟨k, v⟩
    rw [← hms.last_eq_some, ← hns.last_eq_some, h k]
  refine hperm.eq_of_pairwise ?_ hms.1 hns.1
  exact fun a b _ _ hab hba => absurd hba (lt_asymm hab)

theorem settled_nil : Settled [] := ⟨.nil, fun _ hm => absurd hm List.not_mem_nil⟩

theorem last_jsonb (k : String) (members : List (String × Json)) :
    last k (jsonbMembers [] members) = (last k members).map jsonb := by
  rw [last_jsonbMembers k settled_nil, last_nil, Option.or_none]

/-- Two objects are stored alike when under each name the same is stored. -/
theorem jsonbMembers_eq_iff {ms ns : List (String × Json)} :
    jsonbMembers [] ms = jsonbMembers [] ns ↔
      ∀ k, (last k ms).map jsonb = (last k ns).map jsonb := by
  constructor
  · intro h k
    rw [← last_jsonb, ← last_jsonb, h]
  · intro h
    refine (settled_jsonbMembers ms [] settled_nil).ext (settled_jsonbMembers ns [] settled_nil) ?_
    intro k
    rw [last_jsonb, last_jsonb, h k]

theorem jsonbItems_eq (items : List Json) : jsonbItems items = items.map jsonb := by
  induction items with
  | nil => rfl
  | cons j rest ih => rw [jsonbItems, ih, List.map_cons]

theorem Same.jsonb_eq {a b : Json} (h : Same a b) : a.jsonb = b.jsonb := by
  induction h with
  | null | bool | num | str => rfl
  | @arr xs ys hlength hitems ih =>
    rw [jsonb, jsonb, jsonbItems_eq, jsonbItems_eq]
    congr 1
    refine List.ext_getElem (by simpa using hlength) fun n hx hy => ?_
    rw [List.getElem_map, List.getElem_map]
    exact ih n _ _
  | @obj ms ns hnames hvalues ih =>
    rw [jsonb, jsonb]
    congr 1
    refine jsonbMembers_eq_iff.mpr fun k => ?_
    have hk := hnames k
    cases hms : last k ms with
    | none =>
      rw [hms] at hk
      rw [Option.isNone_iff_eq_none.mp (Option.isSome_eq_false_iff.mp hk.symm)]
    | some x =>
      rw [hms] at hk
      obtain ⟨y, hns⟩ := Option.isSome_iff_exists.mp hk.symm
      rw [hns, Option.map_some, Option.map_some, ih k x y hms hns]

theorem same_of_jsonb_eq : ∀ {a b : Json}, a.jsonb = b.jsonb → Same a b
  | .null, b, h => by cases b <;> simp_all [jsonb, Same.null]
  | .bool x, b, h => by cases b <;> simp_all [jsonb, Same.bool]
  | .num q, b, h => by cases b <;> simp_all [jsonb, Same.num]
  | .str s, b, h => by cases b <;> simp_all [jsonb, Same.str]
  | .arr xs, b, h => by
    cases b with
    | arr ys =>
      rw [jsonb, jsonb, Json.arr.injEq, jsonbItems_eq, jsonbItems_eq] at h
      refine .arr (by simpa using congrArg List.length h) fun n hx hy => ?_
      have hn := congrArg (fun l => l[n]?) h
      simp only [List.getElem?_map, List.getElem?_eq_getElem hx, List.getElem?_eq_getElem hy,
        Option.map_some, Option.some.injEq] at hn
      have hsize := List.sizeOf_lt_of_mem (List.getElem_mem hx)
      exact same_of_jsonb_eq hn
    | _ => simp [jsonb] at h
  | .obj ms, b, h => by
    cases b with
    | obj ns =>
      rw [jsonb, jsonb, Json.obj.injEq, jsonbMembers_eq_iff] at h
      refine .obj (fun k => by simpa using congrArg Option.isSome (h k)) fun k x y hx hy => ?_
      have hxy := h k
      rw [hx, hy] at hxy
      have hsize := List.sizeOf_lt_of_mem (mem_of_last hx)
      exact same_of_jsonb_eq (Option.some.inj hxy)
    | _ => simp [jsonb] at h
termination_by a => sizeOf a
decreasing_by
  all_goals simp only [Json.arr.sizeOf_spec, Json.obj.sizeOf_spec, Prod.mk.sizeOf_spec] at *; omega

/-- The same values are the ones that are stored alike. -/
theorem same_iff {a b : Json} : Same a b ↔ a.jsonb = b.jsonb :=
  ⟨Same.jsonb_eq, same_of_jsonb_eq⟩

theorem Same.symm {a b : Json} (h : Same a b) : Same b a := same_iff.mpr (same_iff.mp h).symm

theorem jsonb_sorted (members : List (String × Json)) :
    (obj (members.insertionSort fun a b => a.1 ≤ b.1)).jsonb = (obj members).jsonb := by
  rw [jsonb, jsonb]
  congr 1
  refine jsonbMembers_eq_iff.mpr fun k => ?_
  rw [last_sorted]

/-- Only an object without members is the same as the empty one. -/
theorem same_empty {members : List (String × Json)} (h : Same (.obj []) (.obj members)) :
    members = [] := by
  cases h with
  | obj hnames _ =>
    rw [List.eq_nil_iff_forall_not_mem]
    intro m hm
    exact last_eq_none.mp (Option.isNone_iff_eq_none.mp (Option.isSome_eq_false_iff.mp
      (hnames m.1).symm)) m hm rfl

end Interbellum.Json
