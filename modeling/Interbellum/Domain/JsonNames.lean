import Interbellum.Domain.JsonValue

/-!
# JSON values without hidden members

In a value whose objects have every name once, no member is hidden by another. Such a value is
stored as it is, up to the order of its members.

* `Json.storable_jsonb`, `Json.depth_jsonb`: what can be said of it can be said of what is stored.
-/

namespace Interbellum

theorem storableMembers_iff (members : List (String × Json)) :
    Json.storableMembers members = true ↔
      ∀ m ∈ members, storableText m.1 = true ∧ m.2.storable = true := by
  induction members with
  | nil => exact iff_of_true rfl fun _ hm => (List.not_mem_nil hm).elim
  | cons m rest ih =>
    rw [Json.storableMembers, Bool.and_eq_true, Bool.and_eq_true, ih, List.forall_mem_cons]

namespace Json

mutual

/-- Every object of the value has each name once. -/
def Distinct : Json → Prop
  | .null | .bool _ | .num _ | .str _ => True
  | .arr items => DistinctItems items
  | .obj members => (members.map Prod.fst).Nodup ∧ DistinctMembers members

def DistinctItems : List Json → Prop
  | [] => True
  | j :: rest => j.Distinct ∧ DistinctItems rest

def DistinctMembers : List (String × Json) → Prop
  | [] => True
  | (_, j) :: rest => j.Distinct ∧ DistinctMembers rest

end

mutual

/-- How deep arrays and objects are nested. -/
def depth : Json → ℕ
  | .null | .bool _ | .num _ | .str _ => 0
  | .arr items => depthItems items + 1
  | .obj members => depthMembers members + 1

def depthItems : List Json → ℕ
  | [] => 0
  | j :: rest => max j.depth (depthItems rest)

def depthMembers : List (String × Json) → ℕ
  | [] => 0
  | (_, j) :: rest => max j.depth (depthMembers rest)

end

theorem distinctMembers_iff (members : List (String × Json)) :
    DistinctMembers members ↔ ∀ m ∈ members, m.2.Distinct := by
  induction members with
  | nil => exact iff_of_true trivial fun _ hm => absurd hm List.not_mem_nil
  | cons m rest ih => rw [DistinctMembers, ih, List.forall_mem_cons]

theorem depthMembers_le_iff (members : List (String × Json)) (n : ℕ) :
    depthMembers members ≤ n ↔ ∀ m ∈ members, m.2.depth ≤ n := by
  induction members with
  | nil => exact iff_of_true (Nat.zero_le n) fun _ hm => absurd hm List.not_mem_nil
  | cons m rest ih => rw [depthMembers, max_le_iff, ih, List.forall_mem_cons]

/-! ## What is stored -/

theorem insertMember_perm {k : String} {v : Json} {members : List (String × Json)}
    (hk : k ∉ members.map Prod.fst) : (insertMember k v members).Perm ((k, v) :: members) := by
  induction members with
  | nil => exact .refl _
  | cons head rest ih =>
    obtain ⟨l, w⟩ := head
    obtain ⟨hne, hrest⟩ := not_or.mp (mt List.mem_cons.mpr hk)
    rw [insertMember]
    split_ifs with hlt
    · exact .refl _
    · exact ((ih hrest).cons _).trans (.swap _ _ _)

/-- Nothing is hidden, so every member is stored. -/
theorem jsonbMembers_perm {acc members : List (String × Json)}
    (h : (acc.map Prod.fst ++ members.map Prod.fst).Nodup) :
    (jsonbMembers acc members).Perm (acc ++ members.map fun m => (m.1, m.2.jsonb)) := by
  induction members generalizing acc with
  | nil => simp [jsonbMembers]
  | cons m rest ih =>
    obtain ⟨k, v⟩ := m
    have hk : k ∉ acc.map Prod.fst := fun hmem =>
      (List.nodup_append.mp h).2.2 k hmem k List.mem_cons_self rfl
    have hinsert := insertMember_perm (v := v.jsonb) hk
    have hnodup : ((insertMember k v.jsonb acc).map Prod.fst ++ rest.map Prod.fst).Nodup := by
      refine (((hinsert.map Prod.fst).append_right _).nodup_iff).mpr ?_
      exact List.perm_middle.nodup_iff.mp h
    rw [jsonbMembers]
    refine (ih hnodup).trans ((hinsert.append_right _).trans ?_)
    exact List.perm_middle.symm

theorem mem_jsonbMembers {members : List (String × Json)} (h : (members.map Prod.fst).Nodup)
    {m : String × Json} :
    m ∈ jsonbMembers [] members ↔ ∃ m' ∈ members, (m'.1, m'.2.jsonb) = m := by
  rw [(@jsonbMembers_perm [] members h).mem_iff, List.nil_append, List.mem_map]

mutual

theorem storable_jsonb : ∀ {j : Json}, j.Distinct → (j.jsonb.storable = true ↔ j.storable = true)
  | .null, _ | .bool _, _ | .num _, _ | .str _, _ => Iff.rfl
  | .arr _, h => storable_jsonbItems h
  | .obj members, ⟨hnames, h⟩ => by
    rw [jsonb, storable, storable, storableMembers_iff, storableMembers_iff]
    constructor
    · intro hall m hm
      have hstored := hall _ ((mem_jsonbMembers hnames).mpr ⟨m, hm, rfl⟩)
      exact ⟨hstored.1, (storable_jsonbMembers h m hm).mp hstored.2⟩
    · intro hall m hm
      obtain ⟨m', hm', rfl⟩ := (mem_jsonbMembers hnames).mp hm
      exact ⟨(hall m' hm').1, (storable_jsonbMembers h m' hm').mpr (hall m' hm').2⟩

theorem storable_jsonbItems : ∀ {items : List Json}, DistinctItems items →
    (storableItems (jsonbItems items) = true ↔ storableItems items = true)
  | [], _ => Iff.rfl
  | _ :: _, ⟨hj, h⟩ => by
    rw [jsonbItems, storableItems, storableItems, Bool.and_eq_true, Bool.and_eq_true,
      storable_jsonb hj, storable_jsonbItems h]

theorem storable_jsonbMembers : ∀ {members : List (String × Json)}, DistinctMembers members →
    ∀ m ∈ members, (m.2.jsonb.storable = true ↔ m.2.storable = true)
  | [], _ => fun _ hm => absurd hm List.not_mem_nil
  | _ :: _, ⟨hj, h⟩ => List.forall_mem_cons.mpr ⟨storable_jsonb hj, storable_jsonbMembers h⟩

end

mutual

theorem depth_jsonb : ∀ {j : Json}, j.Distinct → j.jsonb.depth = j.depth
  | .null, _ | .bool _, _ | .num _, _ | .str _, _ => rfl
  | .arr items, h => congrArg (· + 1) (depth_jsonbItems h)
  | .obj members, ⟨hnames, h⟩ => by
    rw [jsonb, depth, depth, Nat.add_right_cancel_iff]
    refine eq_of_forall_ge_iff fun n => ?_
    rw [depthMembers_le_iff, depthMembers_le_iff]
    constructor
    · intro hall m hm
      rw [← depth_jsonbMembers h m hm]
      exact hall _ ((mem_jsonbMembers hnames).mpr ⟨m, hm, rfl⟩)
    · intro hall m hm
      obtain ⟨m', hm', rfl⟩ := (mem_jsonbMembers hnames).mp hm
      show m'.2.jsonb.depth ≤ n
      rw [depth_jsonbMembers h m' hm']
      exact hall m' hm'

theorem depth_jsonbItems : ∀ {items : List Json}, DistinctItems items →
    depthItems (jsonbItems items) = depthItems items
  | [], _ => rfl
  | _ :: _, ⟨hj, h⟩ => by
    rw [jsonbItems, depthItems, depthItems, depth_jsonb hj, depth_jsonbItems h]

theorem depth_jsonbMembers : ∀ {members : List (String × Json)}, DistinctMembers members →
    ∀ m ∈ members, m.2.jsonb.depth = m.2.depth
  | [], _ => fun _ hm => absurd hm List.not_mem_nil
  | _ :: _, ⟨hj, h⟩ => List.forall_mem_cons.mpr ⟨depth_jsonb hj, depth_jsonbMembers h⟩

end

/-! Hidden members may be nested deeper. -/

mutual

theorem depth_jsonb_le : ∀ j : Json, j.jsonb.depth ≤ j.depth
  | .null | .bool _ | .num _ | .str _ => le_rfl
  | .arr items => Nat.succ_le_succ (depth_jsonbItems_le items)
  | .obj members => by
    rw [jsonb, depth, depth, Nat.add_le_add_iff_right, depthMembers_le_iff]
    exact depth_jsonbMembers_le members [] _ le_rfl fun _ hm => absurd hm List.not_mem_nil

theorem depth_jsonbItems_le : ∀ items : List Json,
    depthItems (jsonbItems items) ≤ depthItems items
  | [] => le_rfl
  | j :: rest => max_le_max (depth_jsonb_le j) (depth_jsonbItems_le rest)

theorem depth_jsonbMembers_le : ∀ (members acc : List (String × Json)) (n : ℕ),
    depthMembers members ≤ n → (∀ m ∈ acc, m.2.depth ≤ n) →
      ∀ m ∈ jsonbMembers acc members, m.2.depth ≤ n
  | [], _, _, _, hacc => hacc
  | (k, v) :: rest, acc, n, h, hacc => by
    rw [depthMembers, max_le_iff] at h
    rw [jsonbMembers]
    refine depth_jsonbMembers_le rest _ n h.2 fun m hm => ?_
    rcases mem_insertMember hm with rfl | hm
    · exact (depth_jsonb_le v).trans h.1
    · exact hacc m hm

end

/-! What can be stored can be stored as it is stored. -/

mutual

theorem storable_of_storable : ∀ {j : Json}, j.storable = true → j.jsonb.storable = true
  | .null => fun h => h
  | .bool _ => fun h => h
  | .num _ => fun h => h
  | .str _ => fun h => h
  | .arr _ => fun h => storableItems_of_storable h
  | .obj members => fun h => by
    rw [jsonb, storable, storableMembers_iff]
    exact storableMembers_of_storable members [] h fun _ hm => absurd hm List.not_mem_nil

theorem storableItems_of_storable : ∀ {items : List Json}, storableItems items = true →
    storableItems (jsonbItems items) = true
  | [], _ => rfl
  | _ :: _, h => by
    rw [storableItems, Bool.and_eq_true] at h
    rw [jsonbItems, storableItems, Bool.and_eq_true]
    exact ⟨storable_of_storable h.1, storableItems_of_storable h.2⟩

theorem storableMembers_of_storable : ∀ members acc : List (String × Json),
    storableMembers members = true →
      (∀ m ∈ acc, storableText m.1 = true ∧ m.2.storable = true) →
        ∀ m ∈ jsonbMembers acc members, storableText m.1 = true ∧ m.2.storable = true
  | [], _, _, hacc => hacc
  | (k, v) :: rest, acc, h, hacc => by
    rw [storableMembers, Bool.and_eq_true, Bool.and_eq_true] at h
    rw [jsonbMembers]
    refine storableMembers_of_storable rest _ h.2 fun m hm => ?_
    rcases mem_insertMember hm with rfl | hm
    · exact ⟨h.1.1, storable_of_storable h.1.2⟩
    · exact hacc m hm

end

/-! A stored value has every name once. -/

mutual

theorem distinct_jsonb : ∀ j : Json, j.jsonb.Distinct
  | .null | .bool _ | .num _ | .str _ => trivial
  | .arr items => distinct_jsonbItems items
  | .obj members => by
    rw [jsonb, Distinct, distinctMembers_iff]
    exact ⟨(settled_jsonbMembers members [] settled_nil).nodup,
      distinct_jsonbMembers members [] fun _ hm => absurd hm List.not_mem_nil⟩

theorem distinct_jsonbItems : ∀ items : List Json, DistinctItems (jsonbItems items)
  | [] => trivial
  | j :: rest => ⟨distinct_jsonb j, distinct_jsonbItems rest⟩

theorem distinct_jsonbMembers : ∀ members acc : List (String × Json),
    (∀ m ∈ acc, m.2.Distinct) → ∀ m ∈ jsonbMembers acc members, m.2.Distinct
  | [], _, hacc => hacc
  | (_, v) :: rest, acc, hacc => by
    rw [jsonbMembers]
    refine distinct_jsonbMembers rest _ fun m hm => ?_
    rcases mem_insertMember hm with rfl | hm
    · exact distinct_jsonb v
    · exact hacc m hm

end

end Json

end Interbellum
