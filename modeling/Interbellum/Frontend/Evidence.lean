import Interbellum.Frontend.PlaybookDraft

/-!
# The evidence editor

`serializeEvidence` turns the rows of the editor into the evidence that is sent, or reports every
problem it finds. Rows that are blank are dropped.

* `serializeEvidence_eq_ok`, `exists_serializeEvidence`: when it returns evidence, and which.
* `serializeEvidence_eq_error`: every wrong field is reported once, and nothing else.
-/

namespace Interbellum.Frontend

open Ecma (Value)
open Utf16 (Text)
open JsonText (Doc)

/-- `key` is for rendering the list and never sent. -/
structure EvidenceDraft where
  key : Text
  type : Text
  summary : Text
  data : Text

/-- What a new row starts with. -/
structure EvidenceSeed where
  type : Option Text
  summary : Option Text
  data : Option Text

/-- The rows are numbered by a counter, which is one more after each of them. -/
def newEvidenceDraft (counter : ℕ) (seed : EvidenceSeed) : EvidenceDraft where
  key := .ofString "ev-" ++ Ecma.natText (counter + 1)
  type := seed.type.getD []
  summary := seed.summary.getD []
  data := seed.data.getD []

structure EvidenceItem where
  type : Text
  summary : Text
  data : Option (List (Text × Value))

/-- Absent data is left out. -/
def EvidenceItem.toDoc (item : EvidenceItem) : Doc :=
  .obj ([member "type" (.str item.type), member "summary" (.str item.summary)] ++
    item.data.toList.map fun members => member "data" (.obj (Ecma.memberDocs members)))

inductive EvidenceField where
  | type
  | summary
  | data
  deriving DecidableEq, Repr

structure EvidenceSerializationError where
  index : ℕ
  field : EvidenceField
  message : String
  deriving DecidableEq, Repr

/-- The value of a trimmed data field, or what is wrong with it. -/
def parseData (data : Text) : Except String (Option (List (Text × Value))) :=
  if data = [] then .ok none
  else
    match Ecma.parseJson data with
    | none => .error "Data is not valid JSON."
    | some (.obj members) => .ok (some members)
    | some _ => .error ("Data must be a JSON object, for example " ++
        "\x7b\"asset\": \"ENG-WS-14\"\x7d.")

/-- The problems of a row and the evidence it gives. -/
def serializeRow (index : ℕ) (draft : EvidenceDraft) :
    List EvidenceSerializationError × List EvidenceItem :=
  let type := draft.type.trim
  let summary := draft.summary.trim
  let data := draft.data.trim
  if type = [] ∧ summary = [] ∧ data = [] then ([], [])
  else
    let missing := (if type = [] then [⟨index, .type, "Type is required."⟩] else []) ++
      if summary = [] then [⟨index, .summary, "Summary is required."⟩] else []
    match parseData data with
    | .error message => (missing ++ [⟨index, .data, message⟩], [])
    | .ok parsed =>
      if type = [] ∨ summary = [] then (missing, []) else (missing, [⟨type, summary, parsed⟩])

/-- The rows are counted from `index`. -/
def serializeRows (index : ℕ) :
    List EvidenceDraft → List EvidenceSerializationError × List EvidenceItem
  | [] => ([], [])
  | draft :: rest =>
    ((serializeRow index draft).1 ++ (serializeRows (index + 1) rest).1,
      (serializeRow index draft).2 ++ (serializeRows (index + 1) rest).2)

def serializeEvidence (drafts : List EvidenceDraft) :
    Except (List EvidenceSerializationError) (List EvidenceItem) :=
  if (serializeRows 0 drafts).1.length > 0 then .error (serializeRows 0 drafts).1
  else .ok (serializeRows 0 drafts).2

/-! ## Rows -/

namespace EvidenceDraft

/-- The row was added and left empty. -/
def Blank (draft : EvidenceDraft) : Prop :=
  draft.type.trim = [] ∧ draft.summary.trim = [] ∧ draft.data.trim = []

instance (draft : EvidenceDraft) : Decidable draft.Blank :=
  inferInstanceAs (Decidable (_ ∧ _ ∧ _))

/-- The data is blank or an object, which is `members`. -/
def Holds (draft : EvidenceDraft) (members : Option (List (Text × Value))) : Prop :=
  (draft.data.trim = [] ∧ members = none) ∨
    ∃ object, Ecma.parseJson draft.data.trim = some (.obj object) ∧ draft.data.trim ≠ [] ∧
      members = some object

/-- A field of a row that is not blank is wrong. -/
def Wrong (draft : EvidenceDraft) : EvidenceField → Prop
  | .type => draft.type.trim = []
  | .summary => draft.summary.trim = []
  | .data => ¬ ∃ members, draft.Holds members

/-- The row is blank, or nothing is wrong with it. -/
def Fits (draft : EvidenceDraft) : Prop := draft.Blank ∨ ∀ field, ¬ draft.Wrong field

/-- The row gives this evidence. -/
structure Gives (draft : EvidenceDraft) (item : EvidenceItem) : Prop where
  type : item.type = draft.type.trim
  summary : item.summary = draft.summary.trim
  data : draft.Holds item.data

end EvidenceDraft

variable {draft : EvidenceDraft} {drafts : List EvidenceDraft} {index i : ℕ}
  {field : EvidenceField}

theorem parseData_eq_ok {members : Option (List (Text × Value))} :
    parseData draft.data.trim = .ok members ↔ draft.Holds members := by
  unfold parseData EvidenceDraft.Holds
  split_ifs with h
  · simp [h, eq_comm]
  · cases hjson : Ecma.parseJson draft.data.trim with
    | none => simp [h]
    | some value => cases value <;> simp [h, eq_comm]

theorem wrong_data_iff (draft : EvidenceDraft) :
    draft.Wrong .data ↔ ∃ message, parseData draft.data.trim = .error message := by
  simp only [EvidenceDraft.Wrong, ← parseData_eq_ok]
  cases parseData draft.data.trim <;> simp

theorem serializeRow_of_blank (h : draft.Blank) : serializeRow index draft = ([], []) := if_pos h

theorem errors_serializeRow (h : ¬ draft.Blank) : (serializeRow index draft).1 =
    (if draft.type.trim = [] then [⟨index, .type, "Type is required."⟩] else []) ++
    (if draft.summary.trim = [] then [⟨index, .summary, "Summary is required."⟩] else []) ++
    match parseData draft.data.trim with
    | .error message => [⟨index, .data, message⟩]
    | .ok _ => [] := by
  unfold serializeRow
  simp only [if_neg (show ¬ (_ ∧ _ ∧ _) from h)]
  cases parseData draft.data.trim with
  | error message => rfl
  | ok parsed =>
    dsimp only
    rw [List.append_nil]
    split_ifs <;> rfl

/-- The row and the field that a problem names. -/
def EvidenceSerializationError.place (e : EvidenceSerializationError) : ℕ × EvidenceField :=
  (e.index, e.field)

/-- A row that is not blank is reported for each of its wrong fields. -/
theorem mem_serializeRow : (i, field) ∈ (serializeRow index draft).1.map (·.place) ↔
    i = index ∧ ¬ draft.Blank ∧ draft.Wrong field := by
  by_cases hblank : draft.Blank
  · simp [serializeRow_of_blank hblank, hblank]
  · have hdata := wrong_data_iff draft
    rw [errors_serializeRow hblank]
    cases hparsed : parseData draft.data.trim with
    | error message =>
      have hwrong : draft.Wrong .data := hdata.mpr ⟨_, hparsed⟩
      cases field <;> split_ifs <;> simp_all [EvidenceSerializationError.place, EvidenceDraft.Wrong]
    | ok parsed =>
      have hright : ¬ draft.Wrong .data := by rw [hdata, hparsed]; simp
      cases field <;> split_ifs <;> simp_all [EvidenceSerializationError.place, EvidenceDraft.Wrong]

/-- No field is reported twice. -/
theorem nodup_serializeRow : ((serializeRow index draft).1.map (·.place)).Nodup := by
  by_cases hblank : draft.Blank
  · rw [serializeRow_of_blank hblank]
    exact List.nodup_nil
  · rw [errors_serializeRow hblank]
    cases parseData draft.data.trim <;> split_ifs <;> simp [EvidenceSerializationError.place]

/-- A row without problems gives its evidence, unless it is blank. -/
theorem evidence_serializeRow (h : (serializeRow index draft).1 = []) :
    (draft.Blank ∧ (serializeRow index draft).2 = []) ∨
      ¬ draft.Blank ∧ ∃ item, draft.Gives item ∧ (serializeRow index draft).2 = [item] := by
  by_cases hblank : draft.Blank
  · exact .inl ⟨hblank, by rw [serializeRow_of_blank hblank]⟩
  · refine .inr ⟨hblank, ?_⟩
    have hright : ∀ field, ¬ draft.Wrong field := fun field hwrong => by
      have hmem := (@mem_serializeRow draft index index field).mpr ⟨rfl, hblank, hwrong⟩
      rw [h] at hmem
      exact List.not_mem_nil hmem
    have htype : draft.type.trim ≠ [] := hright .type
    have hsummary : draft.summary.trim ≠ [] := hright .summary
    obtain ⟨parsed, hparsed⟩ := not_not.mp (hright .data)
    refine ⟨⟨draft.type.trim, draft.summary.trim, parsed⟩, ⟨rfl, rfl, hparsed⟩, ?_⟩
    simp [serializeRow, parseData_eq_ok.mpr hparsed, htype, hsummary]

/-! ## All rows -/

theorem mem_serializeRows : (i, field) ∈ (serializeRows index drafts).1.map (·.place) ↔
    ∃ n draft, i = index + n ∧ drafts[n]? = some draft ∧ ¬ draft.Blank ∧ draft.Wrong field := by
  induction drafts generalizing index with
  | nil => simp [serializeRows]
  | cons d rest ih =>
    rw [serializeRows, List.map_append, List.mem_append, mem_serializeRow, ih]
    constructor
    · rintro (⟨hi, hblank, hwrong⟩ | ⟨n, draft, hi, hdraft, hrest⟩)
      · exact ⟨0, d, hi, rfl, hblank, hwrong⟩
      · exact ⟨n + 1, draft, by omega, hdraft, hrest⟩
    · rintro ⟨n | n, draft, hi, hdraft, hrest⟩
      · obtain rfl := Option.some.inj hdraft
        exact .inl ⟨hi, hrest⟩
      · exact .inr ⟨n, draft, by omega, hdraft, hrest⟩

theorem nodup_serializeRows : ((serializeRows index drafts).1.map (·.place)).Nodup := by
  induction drafts generalizing index with
  | nil => exact List.nodup_nil
  | cons d rest ih =>
    rw [serializeRows, List.map_append, List.nodup_append]
    refine ⟨nodup_serializeRow, ih, ?_⟩
    rintro ⟨i, field⟩ hrow ⟨i', field'⟩ hrest hsame
    obtain ⟨rfl, rfl⟩ := Prod.mk.inj hsame
    obtain ⟨hi, -⟩ := mem_serializeRow.mp hrow
    obtain ⟨n, -, hi', -⟩ := mem_serializeRows.mp hrest
    omega

/-- Rows without problems give their evidence in order. -/
theorem evidence_serializeRows (h : (serializeRows index drafts).1 = []) :
    List.Forall₂ EvidenceDraft.Gives (drafts.filter fun draft => ¬ draft.Blank)
      (serializeRows index drafts).2 := by
  induction drafts generalizing index with
  | nil => exact List.Forall₂.nil
  | cons d rest ih =>
    rw [serializeRows, List.append_eq_nil_iff] at h
    obtain ⟨hrow, hrest⟩ := h
    rw [serializeRows]
    rcases evidence_serializeRow hrow with ⟨hblank, hnone⟩ | ⟨hblank, item, hgives, hone⟩
    · rw [List.filter_cons_of_neg (by simpa using hblank), hnone]
      exact ih hrest
    · rw [List.filter_cons_of_pos (by simpa using hblank), hone]
      exact .cons hgives (ih hrest)

theorem errors_eq_nil : (serializeRows index drafts).1 = [] ↔ ∀ draft ∈ drafts, draft.Fits := by
  rw [← List.map_eq_nil_iff (f := (·.place)), List.eq_nil_iff_forall_not_mem]
  constructor
  · intro h draft hdraft
    obtain ⟨n, hn⟩ := List.getElem?_of_mem hdraft
    by_contra hfits
    obtain ⟨hblank, hwrong⟩ := not_or.mp hfits
    push Not at hwrong
    obtain ⟨field, hfield⟩ := hwrong
    exact h (index + n, field) (mem_serializeRows.mpr ⟨n, draft, rfl, hn, hblank, hfield⟩)
  · rintro h ⟨i, field⟩ hmem
    obtain ⟨n, draft, -, hdraft, hblank, hwrong⟩ := mem_serializeRows.mp hmem
    exact (h draft (List.mem_of_getElem? hdraft)).elim hblank fun hright => hright field hwrong

/-- Evidence is returned exactly when every row is blank or right, and then it is that of the rows
that are not blank, in order. -/
theorem serializeEvidence_eq_ok {evidence : List EvidenceItem}
    (h : serializeEvidence drafts = .ok evidence) : (∀ draft ∈ drafts, draft.Fits) ∧
      List.Forall₂ EvidenceDraft.Gives (drafts.filter fun draft => ¬ draft.Blank) evidence := by
  unfold serializeEvidence at h
  split_ifs at h with hlen
  have hnone := List.eq_nil_of_length_eq_zero (Nat.eq_zero_of_not_pos hlen)
  rw [← Except.ok.inj h]
  exact ⟨errors_eq_nil.mp hnone, evidence_serializeRows hnone⟩

theorem exists_serializeEvidence (h : ∀ draft ∈ drafts, draft.Fits) :
    ∃ evidence, serializeEvidence drafts = .ok evidence := by
  refine ⟨_, if_neg ?_⟩
  rw [errors_eq_nil.mpr h]
  exact lt_irrefl 0

/-- Otherwise every wrong field of a row that is not blank is reported once, and nothing else. -/
theorem serializeEvidence_eq_error {errors : List EvidenceSerializationError}
    (h : serializeEvidence drafts = .error errors) : (errors.map (·.place)).Nodup ∧
      ∀ i field, (i, field) ∈ errors.map (·.place) ↔
        ∃ draft, drafts[i]? = some draft ∧ ¬ draft.Blank ∧ draft.Wrong field := by
  unfold serializeEvidence at h
  split_ifs at h
  rw [← Except.error.inj h]
  refine ⟨nodup_serializeRows, fun i field => mem_serializeRows.trans ?_⟩
  constructor
  · rintro ⟨n, draft, rfl, hrest⟩
    exact ⟨draft, by rwa [Nat.zero_add]⟩
  · rintro ⟨draft, hrest⟩
    exact ⟨i, draft, (Nat.zero_add i).symm, hrest⟩

end Interbellum.Frontend
