import Mathlib.Data.Rat.Defs
import Mathlib.Data.List.Basic
import Mathlib.Data.String.Basic
import Mathlib.Tactic.SplitIfs

/-!
# JSON values

A `Json` is a parsed document; a member list keeps the order and the duplicates of the
text. `Json.jsonb` is the value as a `jsonb` column holds it: members sorted by name, the
last of several members of one name kept. Numbers are compared by value, so they are
rationals from the start.
-/

namespace Interbellum

inductive Json where
  | null
  | bool (b : Bool)
  | num (value : Rat)
  | str (s : String)
  | arr (items : List Json)
  | obj (members : List (String × Json))
  deriving Repr

namespace Json

mutual

def decEq : (a b : Json) → Decidable (a = b)
  | .null, .null => isTrue rfl
  | .bool a, .bool b => decidable_of_iff (a = b) (by simp)
  | .num a, .num b => decidable_of_iff (a = b) (by simp)
  | .str a, .str b => decidable_of_iff (a = b) (by simp)
  | .arr a, .arr b =>
    match decEqItems a b with
    | isTrue h => isTrue (by rw [h])
    | isFalse h => isFalse (by simpa using h)
  | .obj a, .obj b =>
    match decEqMembers a b with
    | isTrue h => isTrue (by rw [h])
    | isFalse h => isFalse (by simpa using h)
  | .null, .bool _ | .null, .num _ | .null, .str _ | .null, .arr _ | .null, .obj _
  | .bool _, .null | .bool _, .num _ | .bool _, .str _ | .bool _, .arr _ | .bool _, .obj _
  | .num _, .null | .num _, .bool _ | .num _, .str _ | .num _, .arr _ | .num _, .obj _
  | .str _, .null | .str _, .bool _ | .str _, .num _ | .str _, .arr _ | .str _, .obj _
  | .arr _, .null | .arr _, .bool _ | .arr _, .num _ | .arr _, .str _ | .arr _, .obj _
  | .obj _, .null | .obj _, .bool _ | .obj _, .num _ | .obj _, .str _ | .obj _, .arr _ =>
    isFalse (by simp)

def decEqItems : (a b : List Json) → Decidable (a = b)
  | [], [] => isTrue rfl
  | [], _ :: _ => isFalse (by simp)
  | _ :: _, [] => isFalse (by simp)
  | x :: xs, y :: ys =>
    match decEq x y, decEqItems xs ys with
    | isTrue h, isTrue h' => isTrue (by rw [h, h'])
    | isFalse h, _ => isFalse (by simp [h])
    | _, isFalse h => isFalse (by simp [h])

def decEqMembers : (a b : List (String × Json)) → Decidable (a = b)
  | [], [] => isTrue rfl
  | [], _ :: _ => isFalse (by simp)
  | _ :: _, [] => isFalse (by simp)
  | (k, x) :: xs, (l, y) :: ys =>
    if hk : k = l then
      match decEq x y, decEqMembers xs ys with
      | isTrue h, isTrue h' => isTrue (by rw [hk, h, h'])
      | isFalse h, _ => isFalse (by simp [h])
      | _, isFalse h => isFalse (by simp [h])
    else isFalse (by simp [hk])

end

instance : DecidableEq Json := decEq

/-! ## The value stored in a `jsonb` column -/

/-- Insert a member into a list sorted by name, replacing an earlier one of the same name. -/
def insertMember (k : String) (v : Json) : List (String × Json) → List (String × Json)
  | [] => [(k, v)]
  | (l, w) :: rest =>
    if k < l then (k, v) :: (l, w) :: rest
    else if k = l then (k, v) :: rest
    else (l, w) :: insertMember k v rest

mutual

def jsonb : Json → Json
  | .null => .null
  | .bool b => .bool b
  | .num q => .num q
  | .str s => .str s
  | .arr items => .arr (jsonbItems items)
  | .obj members => .obj (jsonbMembers [] members)

def jsonbItems : List Json → List Json
  | [] => []
  | x :: xs => x.jsonb :: jsonbItems xs

/-- Add the members in the order of the text, so that the last of one name stays. -/
def jsonbMembers (acc : List (String × Json)) : List (String × Json) → List (String × Json)
  | [] => acc
  | (k, v) :: rest => jsonbMembers (insertMember k v.jsonb acc) rest

end

/-! A stored value is stored as it is. -/

/-- The members are sorted by name, and their values are as a `jsonb` column holds them. -/
def Settled (members : List (String × Json)) : Prop :=
  members.Pairwise (fun a b => a.1 < b.1) ∧ ∀ m ∈ members, m.2.jsonb = m.2

theorem mem_insertMember {k : String} {v : Json} {members : List (String × Json)}
    {m : String × Json} (h : m ∈ insertMember k v members) : m = (k, v) ∨ m ∈ members := by
  induction members with
  | nil => exact .inl (List.mem_singleton.mp h)
  | cons head rest ih =>
    obtain ⟨l, w⟩ := head
    rw [insertMember] at h
    split_ifs at h with hlt heq
    · exact List.mem_cons.mp h
    · rcases List.mem_cons.mp h with rfl | hrest
      · exact .inl rfl
      · exact .inr (List.mem_cons_of_mem _ hrest)
    · rcases List.mem_cons.mp h with rfl | hrest
      · exact .inr List.mem_cons_self
      · exact (ih hrest).imp_right (List.mem_cons_of_mem _)

theorem Settled.insertMember {k : String} {v : Json} {members : List (String × Json)}
    (h : Settled members) (hv : v.jsonb = v) : Settled (insertMember k v members) := by
  refine ⟨?_, ?_⟩
  · obtain ⟨hsorted, -⟩ := h
    induction members with
    | nil => exact List.pairwise_singleton _ _
    | cons head rest ih =>
      obtain ⟨l, w⟩ := head
      obtain ⟨hhead, hrest⟩ := List.pairwise_cons.mp hsorted
      rw [Json.insertMember]
      split_ifs with hlt heq
      · refine List.pairwise_cons.mpr ⟨?_, hsorted⟩
        intro m hm
        rcases List.mem_cons.mp hm with rfl | hm
        · exact hlt
        · exact lt_trans hlt (hhead m hm)
      · subst heq
        exact List.pairwise_cons.mpr ⟨hhead, hrest⟩
      · have hl : l < k := lt_of_le_of_ne (not_lt.mp hlt) (Ne.symm heq)
        refine List.pairwise_cons.mpr ⟨?_, ih hrest⟩
        intro m hm
        rcases mem_insertMember hm with rfl | hm
        · exact hl
        · exact hhead m hm
  · intro m hm
    rcases mem_insertMember hm with rfl | hm
    · exact hv
    · exact h.2 m hm

/-- A name that comes after all others is inserted at the end. -/
theorem insertMember_of_last {k : String} {v : Json} {members : List (String × Json)}
    (h : ∀ m ∈ members, m.1 < k) : insertMember k v members = members ++ [(k, v)] := by
  induction members with
  | nil => rfl
  | cons head rest ih =>
    obtain ⟨l, w⟩ := head
    have hl : l < k := h (l, w) List.mem_cons_self
    rw [insertMember, if_neg (lt_asymm hl), if_neg (ne_of_gt hl),
      ih fun m hm => h m (List.mem_cons_of_mem _ hm)]
    rfl

theorem jsonbMembers_of_settled {acc members : List (String × Json)}
    (h : Settled (acc ++ members)) : jsonbMembers acc members = acc ++ members := by
  induction members generalizing acc with
  | nil => rw [jsonbMembers, List.append_nil]
  | cons head rest ih =>
    obtain ⟨k, v⟩ := head
    have hv : v.jsonb = v := h.2 (k, v) (List.mem_append_right _ List.mem_cons_self)
    have hlast : ∀ m ∈ acc, m.1 < k := fun m hm =>
      (List.pairwise_append.mp h.1).2.2 m hm (k, v) List.mem_cons_self
    rw [jsonbMembers, hv, insertMember_of_last hlast]
    have happend : acc ++ (k, v) :: rest = acc ++ [(k, v)] ++ rest := by simp
    rw [happend] at h ⊢
    exact ih h

mutual

theorem jsonb_jsonb : ∀ j : Json, j.jsonb.jsonb = j.jsonb
  | .null | .bool _ | .num _ | .str _ => rfl
  | .arr items => by rw [jsonb, jsonb, jsonbItems_jsonbItems items]
  | .obj members => by
    have hsettled : Settled (jsonbMembers [] members) :=
      settled_jsonbMembers members [] ⟨.nil, fun _ hm => nomatch hm⟩
    rw [jsonb, jsonb, jsonbMembers_of_settled hsettled, List.nil_append]

theorem jsonbItems_jsonbItems : ∀ items : List Json,
    jsonbItems (jsonbItems items) = jsonbItems items
  | [] => rfl
  | j :: rest => by
    rw [jsonbItems, jsonbItems, jsonb_jsonb j, jsonbItems_jsonbItems rest]

theorem settled_jsonbMembers : ∀ members acc : List (String × Json), Settled acc →
    Settled (jsonbMembers acc members)
  | [], _, hacc => hacc
  | (_, v) :: rest, _, hacc => by
    rw [jsonbMembers]
    exact settled_jsonbMembers rest _ (hacc.insertMember (jsonb_jsonb v))

end

end Json

/-! ## What PostgreSQL can store -/

/-- A `text` value cannot hold U+0000. -/
def storableText (s : String) : Bool := !s.toList.contains '\u0000'

/-- `numeric` holds up to 131072 digits before the decimal point and 16383 after it. -/
def storableNumber (q : Rat) : Bool :=
  q.num.natAbs / q.den < 10 ^ 131072 && 10 ^ 16383 % q.den = 0

namespace Json

mutual

def storable : Json → Bool
  | .null => true
  | .bool _ => true
  | .num q => storableNumber q
  | .str s => storableText s
  | .arr items => storableItems items
  | .obj members => storableMembers members

def storableItems : List Json → Bool
  | [] => true
  | x :: xs => x.storable && storableItems xs

def storableMembers : List (String × Json) → Bool
  | [] => true
  | (k, v) :: rest => storableText k && v.storable && storableMembers rest

end

end Json

example : (Json.obj [("b", .null), ("a", .str "x"), ("b", .bool true)]).jsonb =
    .obj [("a", .str "x"), ("b", .bool true)] := by decide

end Interbellum
