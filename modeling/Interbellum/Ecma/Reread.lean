import Mathlib.Data.Option.Basic
import Interbellum.Domain.JsonNames
import Interbellum.Ecma.Stringify
import Interbellum.Ecma.UnicodeText
import Interbellum.Http.Objects

/-!
# JSON values read and written by a browser

A browser keeps of a JSON value what `JSON.parse` makes of its document: one member of each name,
and doubles for numbers.

* `Ecma.jsonb_ofDoc`: nothing else of the value is lost.
* `Ecma.rounded_toJson`: what has been read once is not changed by reading it again.
-/

namespace Interbellum

open Utf16 (Text)
open JsonText (Doc)
open Ecma (Value)

namespace Json

mutual

/-- The value with each number as a browser prints what it reads of it. -/
def rounded : Json → Json
  | .null => .null
  | .bool b => .bool b
  | .num q => Http.toJson (Ecma.Number.ofRat q).toDoc
  | .str s => .str s
  | .arr items => .arr (roundedItems items)
  | .obj members => .obj (roundedMembers members)

def roundedItems : List Json → List Json
  | [] => []
  | j :: rest => j.rounded :: roundedItems rest

def roundedMembers : List (String × Json) → List (String × Json)
  | [] => []
  | (k, j) :: rest => (k, j.rounded) :: roundedMembers rest

end

theorem roundedItems_eq (items : List Json) : roundedItems items = items.map rounded := by
  induction items with
  | nil => rfl
  | cons j rest ih => rw [roundedItems, ih, List.map_cons]

theorem roundedMembers_eq (members : List (String × Json)) :
    roundedMembers members = members.map fun m => (m.1, m.2.rounded) := by
  induction members with
  | nil => rfl
  | cons m rest ih => rw [roundedMembers, ih, List.map_cons]

theorem last_map (k : String) (f : Json → Json) (members : List (String × Json)) :
    last k (members.map fun m => (m.1, f m.2)) = (last k members).map f := by
  induction members with
  | nil => rfl
  | cons m rest ih =>
    rw [List.map_cons, last_cons, last_cons, ih]
    cases last k rest with
    | some w => rfl
    | none =>
      rw [Option.map_none, Option.none_or, Option.none_or]
      split_ifs <;> rfl

/-- Where each name stands once, the order of the members does not matter. -/
theorem last_perm {ms ns : List (String × Json)} (h : (ms.map Prod.fst).Nodup) (hperm : ns.Perm ms)
    (k : String) : last k ns = last k ms := by
  have hnodup : (ns.map Prod.fst).Nodup := ((hperm.map Prod.fst).nodup_iff).mpr h
  ext v
  constructor
  · exact fun hv => last_of_mem h (hperm.mem_iff.mp (mem_of_last hv))
  · exact fun hv => last_of_mem hnodup (hperm.mem_iff.mpr (mem_of_last hv))

theorem last_roundedMembers (k : String) (members : List (String × Json)) :
    last k (roundedMembers members) = (last k members).map rounded := by
  rw [roundedMembers_eq, last_map]

theorem Same.refl (j : Json) : Same j j := same_iff.mpr rfl

theorem Same.trans {a b c : Json} (hab : Same a b) (hbc : Same b c) : Same a c :=
  same_iff.mpr ((same_iff.mp hab).trans (same_iff.mp hbc))

theorem same_jsonb (j : Json) : Same j.jsonb j := same_iff.mpr (jsonb_jsonb j)

theorem Same.rounded {a b : Json} (h : Same a b) : Same a.rounded b.rounded := by
  induction h with
  | null | bool | num | str => exact Same.refl _
  | @arr xs ys hlength hitems ih =>
    rw [Json.rounded, Json.rounded, roundedItems_eq, roundedItems_eq]
    refine .arr (by simpa using hlength) fun n hx hy => ?_
    rw [List.getElem_map, List.getElem_map]
    exact ih n _ _
  | @obj ms ns hnames hvalues ih =>
    rw [Json.rounded, Json.rounded, same_iff, jsonb, jsonb]
    congr 1
    refine jsonbMembers_eq_iff.mpr fun k => ?_
    rw [last_roundedMembers, last_roundedMembers]
    have hk := hnames k
    cases hms : last k ms with
    | none =>
      rw [hms] at hk
      rw [Option.isNone_iff_eq_none.mp (Option.isSome_eq_false_iff.mp hk.symm)]
    | some x =>
      rw [hms] at hk
      obtain ⟨y, hns⟩ := Option.isSome_iff_exists.mp hk.symm
      rw [hns, Option.map_some, Option.map_some, Option.map_some, Option.map_some,
        same_iff.mp (ih k x y hms hns)]

end Json

/-! ## Numbers -/

namespace Ecma

theorem nearest_of_precise {x : Binary64} (hx : x.Precise) : nearest x.value = x.value := by
  obtain ⟨m, e, hvalue, he, hm⟩ := hx
  rw [hvalue]
  rcases hm.lt_or_eq with hlt | heq
  · exact nearest_of_grid hlt he
  · -- the number is a power of two, with an exponent that is one more
    have hhalf : ∃ m' : ℤ, m = 2 * m' ∧ |m'| < 2 ^ 53 := by
      rcases (abs_eq (by norm_num)).mp heq with rfl | rfl
      · exact ⟨2 ^ 52, by norm_num, by norm_num⟩
      · exact ⟨-2 ^ 52, by norm_num, by norm_num⟩
    obtain ⟨m', rfl, hm'⟩ := hhalf
    have hvalue' : ((2 * m' : ℤ) : Rat) * 2 ^ e = m' * 2 ^ (e + 1) := by
      rw [zpow_add_one₀ (by norm_num)]
      push_cast
      ring
    rw [hvalue']
    exact nearest_of_grid hm' (by omega)

theorem nearest_shortest {q : Rat} (hq : nearest q = q) : nearest (shortest q) = q := by
  rcases shortest_spec q with heq | ⟨k, -, -, hc⟩
  · rw [heq, hq]
  · exact (shownWith_eq_some hc).1

/-- A double is read from what is printed of it. -/
theorem ofRat_shown {x : Binary64} (hx : x.Precise) : Number.ofRat x.shown = .finite x := by
  have hnearest := nearest_of_precise hx
  have hshown : nearest x.shown = x.value := by
    unfold Binary64.shown
    split_ifs with hzero hneg
    · rw [hzero] at hnearest ⊢
      exact hnearest
    · rw [nearest_neg, nearest_shortest, neg_neg]
      rw [nearest_neg, hnearest]
    · exact nearest_shortest hnearest
  have hfinite : |nearest x.shown| < 2 ^ 1024 := by
    rw [hshown]
    exact x.finite
  rw [Number.ofRat, dif_pos hfinite]
  cases x
  simp only [hshown]

/-! ## The properties of an object -/

theorem ownKeys_perm (members : List (Text × Value)) : (ownKeys members).Perm members :=
  ((List.perm_insertionSort _ _).append_right _).trans (List.filter_append_perm _ _)

theorem mem_setMember {k : Text} {v : Value} {members : List (Text × Value)} {m : Text × Value}
    (h : m ∈ setMember k v members) : m = (k, v) ∨ m ∈ members := by
  induction members with
  | nil => exact .inl (List.mem_singleton.mp h)
  | cons head rest ih =>
    obtain ⟨l, w⟩ := head
    rw [setMember] at h
    split_ifs at h
    · exact (List.mem_cons.mp h).imp_right (List.mem_cons_of_mem _)
    · rcases List.mem_cons.mp h with rfl | hrest
      · exact .inr List.mem_cons_self
      · exact (ih hrest).imp_right (List.mem_cons_of_mem _)

theorem names_setMember (k : Text) (v : Value) (members : List (Text × Value)) :
    (setMember k v members).map Prod.fst =
      if k ∈ members.map Prod.fst then members.map Prod.fst else members.map Prod.fst ++ [k] := by
  induction members with
  | nil => rfl
  | cons head rest ih =>
    obtain ⟨l, w⟩ := head
    rw [setMember]
    by_cases hl : l = k
    · simp [hl]
    · have hmem : k ∈ ((l, w) :: rest).map Prod.fst ↔ k ∈ rest.map Prod.fst := by
        rw [List.map_cons, List.mem_cons, or_iff_right (Ne.symm hl)]
      rw [if_neg hl, List.map_cons, ih]
      by_cases hk : k ∈ rest.map Prod.fst
      · rw [if_pos hk, if_pos (hmem.mpr hk)]
        rfl
      · rw [if_neg hk, if_neg (mt hmem.mp hk)]
        rfl

/-- The properties have different names, and these are Unicode strings. -/
structure Named (members : List (Text × Value)) : Prop where
  distinct : (members.map Prod.fst).Nodup
  unicode : ∀ m ∈ members, m.1.IsUnicode

theorem named_nil : Named [] := ⟨.nil, fun _ hm => absurd hm List.not_mem_nil⟩

theorem Named.setMember {k : Text} {v : Value} {members : List (Text × Value)} (h : Named members)
    (hk : k.IsUnicode) : Named (setMember k v members) := by
  constructor
  · rw [names_setMember]
    split_ifs with hmem
    · exact h.distinct
    · rw [← List.concat_eq_append]
      exact h.distinct.concat hmem
  · intro m hm
    rcases mem_setMember hm with rfl | hm
    · exact hk
    · exact h.unicode m hm

theorem jsonbText_eq {t : Text} (h : t.IsUnicode) : Http.jsonbText t = t.toUnicode :=
  if_pos h.wellFormed

theorem jsonbText_inj {t t' : Text} (h : t.IsUnicode) (h' : t'.IsUnicode)
    (heq : Http.jsonbText t = Http.jsonbText t') : t = t' := by
  rw [jsonbText_eq h, jsonbText_eq h'] at heq
  rw [← h, ← h', heq]

theorem toJsonMembers_memberDocs (members : List (Text × Value)) :
    Http.toJsonMembers (memberDocs members) =
      members.map fun m => (Http.jsonbText m.1, Http.toJson m.2.toDoc) := by
  induction members with
  | nil => rfl
  | cons m rest ih => rw [memberDocs, Http.toJsonMembers, ih, List.map_cons]

theorem Named.nodup {members : List (Text × Value)} (h : Named members) :
    ((Http.toJsonMembers (memberDocs members)).map Prod.fst).Nodup := by
  rw [toJsonMembers_memberDocs, List.map_map]
  refine List.Nodup.map_on ?_ h.distinct.of_map
  intro m hm m' hm' heq
  exact List.inj_on_of_nodup_map h.distinct hm hm'
    (jsonbText_inj (h.unicode m hm) (h.unicode m' hm') heq)

/-- The value that is set is the one that is found, and the others stay. -/
theorem Named.last_setMember {k : Text} {v : Value} {members : List (Text × Value)}
    (h : Named members) (hk : k.IsUnicode) (name : String) :
    Json.last name (Http.toJsonMembers (memberDocs (Ecma.setMember k v members))) =
      if Http.jsonbText k = name then some (Http.toJson v.toDoc)
      else Json.last name (Http.toJsonMembers (memberDocs members)) := by
  induction members with
  | nil =>
    show Json.last name [(Http.jsonbText k, Http.toJson v.toDoc)] = _
    rw [Json.last_cons]
    rfl
  | cons head rest ih =>
    obtain ⟨l, w⟩ := head
    obtain ⟨hl, hrest⟩ := List.forall_mem_cons.mp h.unicode
    have hnamed : Named rest := ⟨(List.nodup_cons.mp h.distinct).2, hrest⟩
    rw [Ecma.setMember]
    by_cases heq : l = k
    · subst heq
      rw [if_pos rfl, memberDocs, memberDocs, Http.toJsonMembers, Http.toJsonMembers,
        Json.last_cons, Json.last_cons]
      by_cases hname : Http.jsonbText l = name
      · have hnone : Json.last name (Http.toJsonMembers (memberDocs rest)) = none := by
          rw [Json.last_eq_none, toJsonMembers_memberDocs, List.forall_mem_map]
          intro m hm heq
          have hsame : m.1 = l := jsonbText_inj (hrest m hm) hl (heq.trans hname.symm)
          exact (List.nodup_cons.mp h.distinct).1 (List.mem_map.mpr ⟨m, hm, hsame⟩)
        rw [hnone, if_pos hname, if_pos hname, Option.none_or]
      · rw [if_neg hname, if_neg hname, if_neg hname]
    · rw [if_neg heq, memberDocs, memberDocs, Http.toJsonMembers, Http.toJsonMembers,
        Json.last_cons, Json.last_cons, ih hnamed]
      by_cases hname : Http.jsonbText k = name
      · rw [if_pos hname, if_pos hname, Option.some_or]
      · rw [if_neg hname, if_neg hname]

/-- The order of the properties does not matter. -/
theorem Named.last_perm {members members' : List (Text × Value)} (h : Named members)
    (hperm : members'.Perm members) (name : String) :
    Json.last name (Http.toJsonMembers (memberDocs members')) =
      Json.last name (Http.toJsonMembers (memberDocs members)) := by
  refine Json.last_perm h.nodup ?_ name
  rw [toJsonMembers_memberDocs, toJsonMembers_memberDocs]
  exact hperm.map _

/-! ## What `JSON.parse` makes -/

theorem preciseMembers_iff (members : List (Text × Value)) :
    PreciseMembers members ↔ ∀ m ∈ members, m.2.Precise := by
  induction members with
  | nil => exact iff_of_true trivial fun _ hm => absurd hm List.not_mem_nil
  | cons m rest ih => rw [PreciseMembers, ih, List.forall_mem_cons]

mutual

theorem precise_ofDoc : ∀ d : Doc, (ofDoc d).Precise
  | .null | .bool _ | .str _ => trivial
  | .num q _ => ofRat_precise q
  | .arr items => precise_ofItems items
  | .obj members => by
    rw [ofDoc, Value.Precise, preciseMembers_iff]
    intro m hm
    exact precise_ofMembers members [] (fun _ hm => absurd hm List.not_mem_nil) m
      ((ownKeys_perm _).mem_iff.mp hm)

theorem precise_ofItems : ∀ items : List Doc, PreciseItems (ofItems items)
  | [] => trivial
  | d :: rest => ⟨precise_ofDoc d, precise_ofItems rest⟩

theorem precise_ofMembers : ∀ (members : List (Text × Doc)) (set : List (Text × Value)),
    (∀ m ∈ set, m.2.Precise) → ∀ m ∈ ofMembers set members, m.2.Precise
  | [], _, hset => hset
  | (k, d) :: rest, set, hset => by
    rw [ofMembers]
    refine precise_ofMembers rest _ fun m hm => ?_
    rcases mem_setMember hm with rfl | hm
    · exact precise_ofDoc d
    · exact hset m hm

end

end Ecma

namespace JsonText

mutual

/-- All texts of the document are Unicode strings. -/
def Doc.IsUnicode : Doc → Prop
  | .null | .bool _ | .num _ _ => True
  | .str t => t.IsUnicode
  | .arr items => UnicodeItems items
  | .obj members => UnicodeMembers members

def UnicodeItems : List Doc → Prop
  | [] => True
  | d :: rest => d.IsUnicode ∧ UnicodeItems rest

def UnicodeMembers : List (Text × Doc) → Prop
  | [] => True
  | (k, d) :: rest => k.IsUnicode ∧ d.IsUnicode ∧ UnicodeMembers rest

end

end JsonText

namespace Ecma

theorem named_ofMembers {members : List (Text × Doc)} {set : List (Text × Value)}
    (h : JsonText.UnicodeMembers members) (hset : Named set) : Named (ofMembers set members) := by
  induction members generalizing set with
  | nil => exact hset
  | cons m rest ih => exact ih h.2.2 (hset.setMember h.1)

mutual

/-- The value that is read is the one that is written, with its numbers rounded. -/
theorem jsonb_ofDoc : ∀ {d : Doc}, d.IsUnicode →
    (Http.toJson (ofDoc d).toDoc).jsonb = (Http.toJson d).rounded.jsonb
  | .null, _ | .bool _, _ | .num _ _, _ | .str _, _ => rfl
  | .arr _, h => congrArg Json.arr (jsonb_ofItems h)
  | .obj members, h => by
    show Json.obj (Json.jsonbMembers [] (Http.toJsonMembers (memberDocs (ownKeys _)))) =
      .obj (Json.jsonbMembers [] (Json.roundedMembers (Http.toJsonMembers members)))
    rw [Json.jsonbMembers_eq_iff.mpr]
    intro k
    rw [(named_ofMembers h named_nil).last_perm (ownKeys_perm _), jsonb_ofMembers h named_nil]
    exact congrArg _ (Option.or_none)

theorem jsonb_ofItems : ∀ {items : List Doc}, JsonText.UnicodeItems items →
    Json.jsonbItems (Http.toJsonItems (itemDocs (ofItems items))) =
      Json.jsonbItems (Json.roundedItems (Http.toJsonItems items))
  | [], _ => rfl
  | _ :: _, h => congrArg₂ List.cons (jsonb_ofDoc h.1) (jsonb_ofItems h.2)

theorem jsonb_ofMembers : ∀ {members : List (Text × Doc)} {set : List (Text × Value)}
    (_ : JsonText.UnicodeMembers members) (_ : Named set) (k : String),
    (Json.last k (Http.toJsonMembers (memberDocs (ofMembers set members)))).map Json.jsonb =
      ((Json.last k (Json.roundedMembers (Http.toJsonMembers members))).or
        (Json.last k (Http.toJsonMembers (memberDocs set)))).map Json.jsonb
  | [], _, _, _, _ => rfl
  | (name, d) :: rest, set, h, hset, k => by
    rw [ofMembers, jsonb_ofMembers h.2.2 (hset.setMember h.1) k, hset.last_setMember h.1,
      Http.toJsonMembers, Json.roundedMembers, Json.last_cons]
    cases Json.last k (Json.roundedMembers (Http.toJsonMembers rest)) with
    | some w => rfl
    | none =>
      rw [Option.none_or, Option.none_or]
      by_cases hname : Http.jsonbText name = k
      · rw [if_pos hname, if_pos hname, Option.some_or, Option.map_some, Option.map_some,
          jsonb_ofDoc h.2.1]
      · rw [if_neg hname, if_neg hname, Option.none_or]

end

/-! A value that was read hides no members. -/

mutual

theorem distinct_ofDoc : ∀ {d : Doc}, d.IsUnicode → (Http.toJson (ofDoc d).toDoc).Distinct
  | .null, _ | .bool _, _ | .str _, _ => trivial
  | .num q _, _ => by
    rw [ofDoc, Value.toDoc]
    cases Number.ofRat q <;> trivial
  | .arr _, h => distinct_ofItems h
  | .obj members, h => by
    have hnamed := named_ofMembers h named_nil
    have hperm : (Http.toJsonMembers (memberDocs (ownKeys (ofMembers [] members)))).Perm
        (Http.toJsonMembers (memberDocs (ofMembers [] members))) := by
      rw [toJsonMembers_memberDocs, toJsonMembers_memberDocs]
      exact (ownKeys_perm _).map _
    show (List.map Prod.fst _).Nodup ∧ Json.DistinctMembers _
    rw [Json.distinctMembers_iff, (hperm.map Prod.fst).nodup_iff]
    refine ⟨hnamed.nodup, fun m hm => ?_⟩
    have hm' := hperm.mem_iff.mp hm
    rw [toJsonMembers_memberDocs] at hm'
    obtain ⟨m', hmem, rfl⟩ := List.mem_map.mp hm'
    exact distinct_ofMembers h (fun _ hm => absurd hm List.not_mem_nil) m' hmem

theorem distinct_ofItems : ∀ {items : List Doc}, JsonText.UnicodeItems items →
    Json.DistinctItems (Http.toJsonItems (itemDocs (ofItems items)))
  | [], _ => trivial
  | _ :: _, h => ⟨distinct_ofDoc h.1, distinct_ofItems h.2⟩

theorem distinct_ofMembers : ∀ {members : List (Text × Doc)} {set : List (Text × Value)},
    JsonText.UnicodeMembers members → (∀ m ∈ set, (Http.toJson m.2.toDoc).Distinct) →
      ∀ m ∈ ofMembers set members, (Http.toJson m.2.toDoc).Distinct
  | [], _, _, hset => hset
  | (name, d) :: rest, set, h, hset => by
    rw [ofMembers]
    refine distinct_ofMembers h.2.2 fun m hm => ?_
    rcases mem_setMember hm with rfl | hm
    · exact distinct_ofDoc h.2.1
    · exact hset m hm

end

end Ecma

/-! ## Reading again -/

namespace Ecma

mutual

/-- A value of doubles is not changed by rounding. -/
theorem rounded_toJson : ∀ {v : Value}, v.Precise →
    (Http.toJson v.toDoc).rounded = Http.toJson v.toDoc
  | .null, _ | .bool _, _ | .str _, _ => rfl
  | .num .infinite, _ => rfl
  | .num (.finite x), h => by
    show Http.toJson (Number.ofRat x.shown).toDoc = _
    rw [ofRat_shown h]
    rfl
  | .arr _, h => congrArg Json.arr (rounded_itemDocs h)
  | .obj _, h => congrArg Json.obj (rounded_memberDocs h)

theorem rounded_itemDocs : ∀ {items : List Value}, PreciseItems items →
    Json.roundedItems (Http.toJsonItems (itemDocs items)) = Http.toJsonItems (itemDocs items)
  | [], _ => rfl
  | _ :: _, h => congrArg₂ List.cons (rounded_toJson h.1) (rounded_itemDocs h.2)

theorem rounded_memberDocs : ∀ {members : List (Text × Value)}, PreciseMembers members →
    Json.roundedMembers (Http.toJsonMembers (memberDocs members)) =
      Http.toJsonMembers (memberDocs members)
  | [], _ => rfl
  | _ :: _, h =>
    congrArg₂ List.cons (congrArg (Prod.mk _) (rounded_toJson h.1)) (rounded_memberDocs h.2)

end

/-! ## What is written -/

theorem Named.perm {members members' : List (Text × Value)} (h : Named members)
    (hperm : members'.Perm members) : Named members' :=
  ⟨((hperm.map Prod.fst).nodup_iff).mpr h.distinct, fun m hm => h.unicode m (hperm.mem_iff.mp hm)⟩

/-- The properties of an object that is read. -/
theorem named_ownKeys {members : List (Text × Doc)} (h : JsonText.UnicodeMembers members) :
    Named (ownKeys (ofMembers [] members)) :=
  (named_ofMembers h named_nil).perm (ownKeys_perm _)

theorem unicodeMembers_iff (members : List (Text × Value)) :
    JsonText.UnicodeMembers (memberDocs members) ↔
      ∀ m ∈ members, m.1.IsUnicode ∧ m.2.toDoc.IsUnicode := by
  induction members with
  | nil => exact iff_of_true trivial fun _ hm => absurd hm List.not_mem_nil
  | cons m rest ih => rw [memberDocs, JsonText.UnicodeMembers, ih, List.forall_mem_cons, and_assoc]

mutual

theorem unicode_ofDoc : ∀ {d : Doc}, d.IsUnicode → (ofDoc d).toDoc.IsUnicode
  | .null, _ | .bool _, _ => trivial
  | .num q _, _ => by
    rw [ofDoc, Value.toDoc]
    cases Number.ofRat q <;> trivial
  | .str _, h => h
  | .arr _, h => unicode_ofItems h
  | .obj members, h => by
    show JsonText.UnicodeMembers (memberDocs (ownKeys (ofMembers [] members)))
    rw [unicodeMembers_iff]
    intro m hm
    have hset : ∀ m ∈ ([] : List (Text × Value)), m.2.toDoc.IsUnicode :=
      fun _ hm => absurd hm List.not_mem_nil
    exact ⟨(named_ownKeys h).unicode m hm,
      unicode_ofMembers h hset m ((ownKeys_perm _).mem_iff.mp hm)⟩

theorem unicode_ofItems : ∀ {items : List Doc}, JsonText.UnicodeItems items →
    JsonText.UnicodeItems (itemDocs (ofItems items))
  | [], _ => trivial
  | _ :: _, h => ⟨unicode_ofDoc h.1, unicode_ofItems h.2⟩

theorem unicode_ofMembers : ∀ {members : List (Text × Doc)} {set : List (Text × Value)},
    JsonText.UnicodeMembers members → (∀ m ∈ set, m.2.toDoc.IsUnicode) →
      ∀ m ∈ ofMembers set members, m.2.toDoc.IsUnicode
  | [], _, _, hset => hset
  | (name, d) :: rest, set, h, hset => by
    rw [ofMembers]
    refine unicode_ofMembers h.2.2 fun m hm => ?_
    rcases mem_setMember hm with rfl | hm
    · exact unicode_ofDoc h.2.1
    · exact hset m hm

end

theorem parseJson_of_holds {t : Text} {d : Doc} (h : Http.Holds t d) :
    parseJson t = some (ofDoc d) := by
  obtain ⟨rest, hparse, hblank⟩ := h
  simp only [parseJson, hparse, if_pos hblank]

theorem holds_print {indent : ℕ} {d : Doc} (h : (jsonStyle indent).Prints d) :
    Http.Holds ((jsonStyle indent).print d) d :=
  ⟨[], JsonText.Style.parse_print h, rfl⟩

/-- No white space stands around an object. -/
theorem trim_print_obj (indent : ℕ) (members : List (Text × Doc)) :
    ((jsonStyle indent).print (.obj members)).trim = (jsonStyle indent).print (.obj members) := by
  obtain ⟨middle, hprint⟩ := JsonText.Style.print_obj (S := jsonStyle indent) members
  rw [hprint]
  show ((Utf16.unit '{' :: (middle ++ [Utf16.unit '}'])).dropWhile Utf16.isSpace).rdropWhile
    Utf16.isSpace = Utf16.unit '{' :: (middle ++ [Utf16.unit '}'])
  rw [List.dropWhile_cons_of_neg (by decide), ← List.cons_append,
    List.rdropWhile_concat_neg _ _ _ (by decide)]

end Ecma

mutual

theorem Http.depth_toJson : ∀ d : Doc, (Http.toJson d).depth = d.depth
  | .null | .bool _ | .num _ _ | .str _ => rfl
  | .arr items => congrArg (· + 1) (Http.depth_toJsonItems items)
  | .obj members => congrArg (· + 1) (Http.depth_toJsonMembers members)

theorem Http.depth_toJsonItems : ∀ items : List Doc,
    Json.depthItems (Http.toJsonItems items) = JsonText.depthItems items
  | [] => rfl
  | d :: rest => congrArg₂ max (Http.depth_toJson d) (Http.depth_toJsonItems rest)

theorem Http.depth_toJsonMembers : ∀ members : List (Text × Doc),
    Json.depthMembers (Http.toJsonMembers members) = JsonText.depthMembers members
  | [] => rfl
  | (_, d) :: rest => congrArg₂ max (Http.depth_toJson d) (Http.depth_toJsonMembers rest)

end

end Interbellum
