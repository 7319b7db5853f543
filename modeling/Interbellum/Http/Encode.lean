import Mathlib.Data.Nat.Digits.Defs
import Interbellum.Domain.JsonNames
import Interbellum.Ecma.Reread
import Interbellum.Http.Investigation

/-!
# The answer that shows a version

What `json.Encoder` writes of a version's definition, as a document. Names stand in the order of
the struct, those of a map in the order of its keys.
-/

namespace Interbellum.Http.Response

open Utf16 (Text)
open JsonText (Doc)

/-- How ids, times and the values of `jsonb` columns are written. -/
structure Writer where
  id : UUID → String
  time : Time → String
  json : Json → Doc

/-- Ids are read back, and a value that can be stored is written as a Unicode document of the same
value; the order of members and the digits of numbers are left to the database. -/
structure Writer.Faithful (w : Writer) (parse : String → Option UUID) : Prop where
  id : ∀ id, parse (w.id id) = some id
  no_id : parse "" = none
  json_unicode : ∀ j, (w.json j).IsUnicode
  json_same : ∀ j, j.storable = true → (toJson (w.json j)).Same j

variable (w : Writer)

def text (s : String) : Doc := .str (.ofString s)

def textPointer : Option String → Doc
  | none => .null
  | some s => text s

def entry (name : String) (d : Doc) : Text × Doc := (.ofString name, d)

/-- The entries of a map. -/
def entriesDoc (entries : List (String × Json)) : Doc :=
  .obj ((entries.insertionSort fun a b => a.1 ≤ b.1).map fun e => entry e.1 (w.json e.2))

/-- An empty map is left out. -/
def metadataMember (metadata : Option (List (String × Json))) : List (Text × Doc) :=
  match metadata.getD [] with
  | [] => []
  | entries => [entry "metadata" (entriesDoc w entries)]

def Node.toDoc (n : Node) : Doc :=
  .obj ([entry "id" (text (w.id n.id)), entry "kind" (text n.kind), entry "title" (text n.title),
    entry "description" (text n.description),
    entry "terminal_resolution" (textPointer n.terminalResolution)] ++
      metadataMember w n.metadata)

def Edge.toDoc (e : Edge) : Doc :=
  .obj [entry "id" (text (w.id e.id)), entry "from_node_id" (text (w.id e.fromNodeID)),
    entry "to_node_id" (text (w.id e.toNodeID)), entry "label" (text e.label),
    entry "description" (textPointer e.description), entry "sort_order" (.num e.sortOrder true)]

def PlaybookVersionDefinition.toDoc (d : PlaybookVersionDefinition) : Doc :=
  .obj [entry "id" (text (w.id d.id)), entry "playbook_id" (text (w.id d.playbookID)),
    entry "version" (.num d.version true), entry "status" (text d.status),
    entry "created_at" (text (w.time d.createdAt)),
    entry "published_at" (textPointer (d.publishedAt.map w.time)),
    entry "root_node_id" (textPointer (d.rootNodeID.map w.id)),
    entry "nodes" (.arr (d.nodes.map (Node.toDoc w))),
    entry "edges" (.arr (d.edges.map (Edge.toDoc w)))]

/-! ## Maps -/

/-- Entries with names of their own are added one after the other. -/
theorem foldl_setEntry {α β : Type} {name : α → String} {value : α → β} {items : List α}
    {entries : List (String × β)} (h : (entries.map Prod.fst ++ items.map name).Nodup) :
    items.foldl (fun entries a => Decoder.setEntry (name a) (value a) entries) entries =
      entries ++ items.map fun a => (name a, value a) := by
  induction items generalizing entries with
  | nil => simp
  | cons a rest ih =>
    have ha : ∀ e ∈ entries, e.1 ≠ name a := fun e he heq =>
      (List.nodup_append.mp h).2.2 e.1 (List.mem_map_of_mem he) (name a) List.mem_cons_self heq
    have hfilter : entries.filter (fun e => e.1 ≠ name a) = entries :=
      List.filter_eq_self.mpr fun e he => decide_eq_true (ha e he)
    rw [List.foldl_cons, Decoder.setEntry, hfilter, ih (by simpa using h)]
    simp

theorem toMap_obj {members : List (String × Json)} (h : (members.map Prod.fst).Nodup) :
    toMap (.obj members) = some members := by
  rw [toMap, foldl_setEntry (by simpa using h)]
  simp

/-! ## The text of an id -/

/-- The hexadecimal digits, from the last one on; there are at least 32. -/
def idDigits (id : UUID) : List ℕ :=
  Nat.digits 16 id ++ List.replicate (32 - (Nat.digits 16 id).length) 0

/-- Groups of 8, 4, 4, 4 and 12 digits. -/
def idText (id : UUID) : String :=
  let digits := (idDigits id).map Nat.digitChar
  let (node, rest) := digits.splitAt 12
  let (sequence, rest) := rest.splitAt 4
  let (high, rest) := rest.splitAt 4
  let (middle, low) := rest.splitAt 4
  .ofList (node ++ '-' :: sequence ++ '-' :: high ++ '-' :: middle ++ '-' :: low).reverse

def hexValue (c : Char) : ℕ := if c.isDigit then c.toNat - 48 else c.toNat - 87

/-- No text is an id that is shorter than one. -/
def readID (s : String) : Option UUID :=
  if s.length < 36 then none
  else some (Nat.ofDigits 16 ((s.toList.filter fun c => c ≠ '-').reverse.map hexValue))

theorem digit_lt {id : UUID} {d : ℕ} (hd : d ∈ idDigits id) : d < 16 := by
  rcases List.mem_append.mp hd with hd | hd
  · exact Nat.digits_lt_base (by norm_num) hd
  · rw [List.eq_of_mem_replicate hd]
    norm_num

theorem length_idDigits (id : UUID) : 32 ≤ (idDigits id).length := by
  rw [idDigits, List.length_append, List.length_replicate]
  omega

theorem ofDigits_idDigits (id : UUID) : Nat.ofDigits 16 (idDigits id) = id := by
  rw [idDigits, Nat.ofDigits_append_replicate_zero, Nat.ofDigits_digits]

theorem readID_idText (id : UUID) : readID (idText id) = some id := by
  have hdigit : ∀ d < 16, Nat.digitChar d ≠ '-' ∧ hexValue (Nat.digitChar d) = d := by decide
  have hlength := length_idDigits id
  have hvalue := ofDigits_idDigits id
  have hlt : ∀ d ∈ idDigits id, d < 16 := fun d hd => digit_lt hd
  unfold readID idText
  generalize idDigits id = digits at *
  have hplain : ∀ c ∈ digits.map Nat.digitChar, decide (c ≠ '-') = true := by
    rw [List.forall_mem_map]
    exact fun d hd => decide_eq_true (hdigit d (hlt d hd)).1
  have hread : (digits.map Nat.digitChar).map hexValue = digits := by
    rw [List.map_map]
    exact (List.map_congr_left fun d hd => (hdigit d (hlt d hd)).2).trans (List.map_id _)
  have hfilter : ∀ part : List Char, part.Sublist (digits.map Nat.digitChar) →
      part.filter (fun c => c ≠ '-') = part :=
    fun part hpart => List.filter_eq_self.mpr fun c hc => hplain c (hpart.subset hc)
  have htaken : ∀ m n, (((digits.map Nat.digitChar).drop m).take n).filter (fun c => c ≠ '-') =
      ((digits.map Nat.digitChar).drop m).take n :=
    fun m n => hfilter _ ((List.take_sublist _ _).trans (List.drop_sublist _ _))
  have hdropped : ∀ m, ((digits.map Nat.digitChar).drop m).filter (fun c => c ≠ '-') =
      (digits.map Nat.digitChar).drop m := fun m => hfilter _ (List.drop_sublist _ _)
  have htext : 36 ≤ (digits.map Nat.digitChar).length + 4 := by
    rw [List.length_map]
    omega
  generalize digits.map Nat.digitChar = chars at *
  have hall : chars.take 12 ++ ((chars.drop 12).take 4 ++ ((chars.drop 16).take 4 ++
      ((chars.drop 20).take 4 ++ chars.drop 24))) = chars := by
    have hdrop : ∀ m n, (chars.drop m).take n ++ chars.drop (m + n) = chars.drop m := fun m n => by
      rw [← List.drop_drop, List.take_append_drop]
    rw [hdrop 20 4, hdrop 16 4, hdrop 12 4, List.take_append_drop]
  have hnode := htaken 0 12
  rw [List.drop_zero] at hnode
  simp only [List.splitAt_eq, String.toList_ofList, String.length_ofList, List.length_reverse,
    List.filter_reverse, List.reverse_reverse, List.filter_append, List.filter_cons,
    List.drop_drop, hnode, htaken, hdropped, ne_eq, not_true_eq_false, decide_false]
  rw [if_neg]
  · simp [hall, hread, hvalue]
  · simp
    omega

/-! ## The document of a value -/

mutual

def docOf : Json → Doc
  | .null => .null
  | .bool b => .bool b
  | .num q => .num q true
  | .str s => .str (.ofString s)
  | .arr items => .arr (itemDocs items)
  | .obj members => .obj (memberDocs members)

def itemDocs : List Json → List Doc
  | [] => []
  | j :: rest => docOf j :: itemDocs rest

def memberDocs : List (String × Json) → List (Text × Doc)
  | [] => []
  | (k, j) :: rest => entry k (docOf j) :: memberDocs rest

end

theorem jsonbText_ofString (s : String) : jsonbText (.ofString s) = s := by
  rw [Ecma.jsonbText_eq (Text.isUnicode_ofString s), Text.toUnicode_ofString]

mutual

theorem toJson_docOf : ∀ j : Json, toJson (docOf j) = j ∧ (docOf j).IsUnicode
  | .null | .bool _ | .num _ => ⟨rfl, trivial⟩
  | .str s => ⟨congrArg Json.str (jsonbText_ofString s), Text.isUnicode_ofString s⟩
  | .arr items => ⟨congrArg Json.arr (toJson_itemDocs items).1, (toJson_itemDocs items).2⟩
  | .obj members => ⟨congrArg Json.obj (toJson_memberDocs members).1, (toJson_memberDocs members).2⟩

theorem toJson_itemDocs : ∀ items : List Json,
    toJsonItems (itemDocs items) = items ∧ JsonText.UnicodeItems (itemDocs items)
  | [] => ⟨rfl, trivial⟩
  | j :: rest => ⟨congrArg₂ List.cons (toJson_docOf j).1 (toJson_itemDocs rest).1,
      (toJson_docOf j).2, (toJson_itemDocs rest).2⟩

theorem toJson_memberDocs : ∀ members : List (String × Json),
    toJsonMembers (memberDocs members) = members ∧ JsonText.UnicodeMembers (memberDocs members)
  | [] => ⟨rfl, trivial⟩
  | (k, j) :: rest => by
    refine ⟨?_, Text.isUnicode_ofString k, (toJson_docOf j).2, (toJson_memberDocs rest).2⟩
    rw [memberDocs, entry, toJsonMembers, jsonbText_ofString, (toJson_docOf j).1,
      (toJson_memberDocs rest).1]

end

/-- One way to write answers. -/
def Writer.canonical (time : Time → String) : Writer := ⟨idText, time, docOf⟩

theorem faithful_canonical (time : Time → String) : (Writer.canonical time).Faithful readID where
  id := readID_idText
  no_id := by decide
  json_unicode j := (toJson_docOf j).2
  json_same j _ := by
    show (toJson (docOf j)).Same j
    rw [(toJson_docOf j).1]
    exact Json.Same.refl j

end Interbellum.Http.Response
