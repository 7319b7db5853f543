import Interbellum.Frontend.Evidence
import Interbellum.Frontend.Received
import Interbellum.Http.Decision

/-!
# What the evidence editor lets through

The editor checks the rows as the server does, but it trims them by the rules of its language: to
these U+0085 is no white space.

* `mirrors_iff`: what the editor returns is right, and accepted, unless a field is made of U+0085.
-/

namespace Interbellum

open Frontend (EvidenceDraft EvidenceField serializeEvidence)
open Utf16 (Text)

/-! ## White space -/

theorem utf16_isSpace_iff {u : UInt16} : Utf16.isSpace u = true ↔
    (9 ≤ u.toNat ∧ u.toNat ≤ 13) ∨ u.toNat = 0x20 ∨ u.toNat = 0xA0 ∨ u.toNat = 0x1680 ∨
      (0x2000 ≤ u.toNat ∧ u.toNat ≤ 0x200A) ∨ u.toNat = 0x2028 ∨ u.toNat = 0x2029 ∨
      u.toNat = 0x202F ∨ u.toNat = 0x205F ∨ u.toNat = 0x3000 ∨ u.toNat = 0xFEFF := by
  simp only [Utf16.isSpace, List.mem_cons, List.not_mem_nil, or_false, decide_eq_true_eq,
    ← UInt16.toNat_inj, UInt16.reduceToNat]
  omega

theorem toNat_loneChar (u : UInt16) : (Utf16.loneChar u).toNat =
    if 0xD800 ≤ u.toNat ∧ u.toNat < 0xE000 then 0xFFFD else u.toNat := by
  have hlt : u.toNat < 65536 := u.toNat_lt
  unfold Utf16.loneChar
  by_cases hpair : (Utf16.isHigh u || Utf16.isLow u) = true
  · rw [if_pos hpair]
    simp only [Utf16.isHigh, Utf16.isLow, Bool.or_eq_true, Bool.and_eq_true, decide_eq_true_eq] at hpair
    rw [if_pos (by omega)]
    rfl
  · rw [if_neg hpair]
    simp only [Utf16.isHigh, Utf16.isLow, Bool.or_eq_true, Bool.and_eq_true, decide_eq_true_eq] at hpair
    rw [if_neg (by omega), Utf16.toNat_ofNat (by unfold Nat.isValidChar; omega)]

/-- The server does not trim U+FEFF, and the form does not trim U+0085. -/
theorem isSpace_loneChar (u : UInt16) : isSpace (Utf16.loneChar u) = true ↔
    u = 0x0085 ∨ (Utf16.isSpace u = true ∧ u ≠ 0xFEFF) := by
  have hlt : u.toNat < 65536 := u.toNat_lt
  rw [utf16_isSpace_iff, Ne, ← UInt16.toNat_inj, ← UInt16.toNat_inj]
  simp only [isSpace, toNat_loneChar, Bool.or_eq_true, Bool.and_eq_true, decide_eq_true_eq,
    UInt16.reduceToNat]
  split_ifs with hpair <;> omega

theorem not_isSpace_pairChar {high low : UInt16} (hhigh : Utf16.isHigh high = true)
    (hlow : Utf16.isLow low = true) : isSpace (Utf16.pairChar high low) = false := by
  simp only [Utf16.isHigh, Utf16.isLow, Bool.and_eq_true, decide_eq_true_eq] at hhigh hlow
  unfold isSpace Utf16.pairChar
  rw [Utf16.toNat_ofNat (.inr ⟨by omega, by omega⟩)]
  simp
  omega

/-- A text that is blank to the server. -/
theorem isBlank_toUnicode {t : Text} : isBlank t.toUnicode = true ↔
    ∀ u ∈ t, u = 0x0085 ∨ (Utf16.isSpace u = true ∧ u ≠ 0xFEFF) := by
  rw [isBlank, Text.toUnicode, String.toList_ofList, List.all_eq_true]
  fun_induction Text.chars t with
  | case1 => simp
  | case2 u => simp [isSpace_loneChar]
  | case3 u w rest hpair ih =>
    obtain ⟨hhigh, hlow⟩ := Bool.and_eq_true_iff.mp hpair
    refine iff_of_false (fun h => ?_) fun h => ?_
    · have hspace := h _ List.mem_cons_self
      rw [not_isSpace_pairChar hhigh hlow] at hspace
      cases hspace
    · simp only [Utf16.isHigh, Bool.and_eq_true, decide_eq_true_eq] at hhigh
      rcases h u List.mem_cons_self with rfl | ⟨hspace, -⟩
      · exact absurd hhigh.1 (by decide)
      · rw [utf16_isSpace_iff] at hspace
        omega
  | case4 u w rest hpair ih =>
    rw [List.forall_mem_cons, ih, isSpace_loneChar]
    simp only [List.mem_cons, forall_eq_or_imp]

/-! ## What the server reads -/

def readEvidence (item : Frontend.EvidenceItem) : Http.EvidenceItem where
  type := item.type.toUnicode
  summary := item.summary.toUnicode
  data := item.data.map rawEntries

theorem run_evidenceItem {path : List String} (item : Frontend.EvidenceItem) :
    Http.evidenceItem.run path Http.evidenceItem.zero item.toDoc = .ok (readEvidence item) := by
  show Http.Decoder.runMembers Http.evidenceFields path _ _ = _
  refine (runMembers_field rfl (run_text _)).trans ?_
  refine (runMembers_field rfl (run_text _)).trans ?_
  obtain ⟨type, summary, data⟩ := item
  cases data with
  | none => rfl
  | some members =>
    show Http.Decoder.runMembers Http.evidenceFields path _
      [Frontend.member "data" (.obj (Ecma.memberDocs members))] = _
    exact (runMembers_last rfl).trans rfl

/-- The evidence of the request, when these items are sent. -/
theorem run_evidence (evidence : List Frontend.EvidenceItem) :
    (Http.Decoder.slice "[]httpdto.EvidenceItem" Http.evidenceItem).run ["evidence"] none
      (.arr (evidence.map Frontend.EvidenceItem.toDoc)) = .ok (some (evidence.map readEvidence)) := by
  show (Http.Decoder.runItems _ _ [] _).map some = _
  rw [runItems_map fun item _ => run_evidenceItem item]
  rfl

theorem validateEvidenceFrom_eq_ok {i : ℕ} {items : List EvidenceItem} :
    validateEvidenceFrom i items = .ok () ↔
      ∀ item ∈ items, isBlank item.type = false ∧ isBlank item.summary = false := by
  induction items generalizing i with
  | nil => exact iff_of_true rfl nofun
  | cons item rest ih =>
    rw [validateEvidenceFrom, List.forall_mem_cons, EvidenceItem.validate]
    cases isBlank item.type <;> cases isBlank item.summary <;> simp [ih]

/-! ## The editor and the server -/

/-- Trimmed by the form, the field is not empty, but white space to the server: it begins and ends
with U+0085, and there is only white space between. -/
def NextLines (t : Text) : Prop :=
  t.trim ≠ [] ∧ ∀ u ∈ t.trim, u = 0x0085 ∨ (Utf16.isSpace u = true ∧ u ≠ 0xFEFF)

theorem nextLines_iff {t : Text} (h : t.trim ≠ []) :
    NextLines t ↔ isBlank t.trim.toUnicode = true := by
  rw [isBlank_toUnicode, NextLines, and_iff_right h]

/-- What the editor promises of its rows: it returns evidence exactly when every row is blank or
right, then that of the rows that are not blank, which the server accepts, and otherwise every
wrong field once. -/
structure Mirrors (drafts : List EvidenceDraft) : Prop where
  returns : (∃ evidence, serializeEvidence drafts = .ok evidence) ↔ ∀ draft ∈ drafts, draft.Fits
  evidence : ∀ evidence, serializeEvidence drafts = .ok evidence →
    List.Forall₂ EvidenceDraft.Gives (drafts.filter fun draft => ¬ draft.Blank) evidence
  accepted : ∀ evidence, serializeEvidence drafts = .ok evidence → ∃ items,
    (Http.Decoder.slice "[]httpdto.EvidenceItem" Http.evidenceItem).run ["evidence"] none
      (.arr (evidence.map Frontend.EvidenceItem.toDoc)) = .ok items ∧
    validateEvidence (Http.toEvidenceItems items) = .ok ()
  errors : ∀ errors, serializeEvidence drafts = .error errors →
    (errors.map (·.place)).Nodup ∧ ∀ i field, (i, field) ∈ errors.map (·.place) ↔
      ∃ draft, drafts[i]? = some draft ∧ ¬ draft.Blank ∧ draft.Wrong field

theorem forall_mem_iff_of_forall₂ {α β : Type} {R : α → β → Prop} {p : α → Prop} {q : β → Prop}
    {xs : List α} {ys : List β} (h : List.Forall₂ R xs ys)
    (hpq : ∀ x ∈ xs, ∀ y, R x y → (p x ↔ q y)) : (∀ x ∈ xs, p x) ↔ ∀ y ∈ ys, q y := by
  induction h with
  | nil => exact iff_of_true nofun nofun
  | @cons x y xs ys hxy _ ih =>
    rw [List.forall_mem_cons, List.forall_mem_cons, hpq x List.mem_cons_self y hxy,
      ih fun x hx => hpq x (List.mem_cons_of_mem _ hx)]

/-- The server accepts what is returned unless some field is white space to the server only. -/
theorem accepts_iff {drafts : List EvidenceDraft} {evidence : List Frontend.EvidenceItem}
    (h : serializeEvidence drafts = .ok evidence) :
    validateEvidence (Http.toEvidenceItems (some (evidence.map readEvidence))) = .ok () ↔
      ∀ draft ∈ drafts, ¬ NextLines draft.type ∧ ¬ NextLines draft.summary := by
  obtain ⟨hfits, hgives⟩ := Frontend.serializeEvidence_eq_ok h
  have hitems : validateEvidence (Http.toEvidenceItems (some (evidence.map readEvidence))) = .ok () ↔
      ∀ item ∈ evidence, isBlank item.type.toUnicode = false ∧
        isBlank item.summary.toUnicode = false := by
    rw [validateEvidence, validateEvidenceFrom_eq_ok, Http.toEvidenceItems, Option.getD_some,
      List.map_map, List.forall_mem_map]
    rfl
  have hrows : (∀ draft ∈ drafts, ¬ NextLines draft.type ∧ ¬ NextLines draft.summary) ↔
      ∀ draft ∈ drafts.filter (fun draft => ¬ draft.Blank),
        ¬ NextLines draft.type ∧ ¬ NextLines draft.summary := by
    refine ⟨fun hall draft hdraft => hall draft (List.mem_of_mem_filter hdraft), ?_⟩
    intro hall draft hdraft
    by_cases hblank : draft.Blank
    · exact ⟨fun hnext => hnext.1 hblank.1, fun hnext => hnext.1 hblank.2.1⟩
    · exact hall draft (List.mem_filter.mpr ⟨hdraft, by simpa using hblank⟩)
  rw [hitems, hrows]
  refine (forall_mem_iff_of_forall₂ hgives fun draft hdraft item hitem => ?_).symm
  obtain ⟨hmem, hblank⟩ := List.mem_filter.mp hdraft
  have hright := (hfits draft hmem).resolve_left (of_decide_eq_true hblank)
  rw [hitem.type, hitem.summary, nextLines_iff (hright .type), nextLines_iff (hright .summary),
    Bool.not_eq_true, Bool.not_eq_true]

/-- The editor keeps its promise exactly when some row is wrong, so that nothing is returned, or
no type and no summary is made of U+0085 and white space. -/
theorem mirrors_iff (drafts : List EvidenceDraft) : Mirrors drafts ↔
    (∃ draft ∈ drafts, ¬ draft.Fits) ∨
      ∀ draft ∈ drafts, ¬ NextLines draft.type ∧ ¬ NextLines draft.summary := by
  constructor
  · intro h
    refine or_iff_not_imp_left.mpr fun hright => ?_
    push Not at hright
    obtain ⟨evidence, hevidence⟩ := h.returns.mpr hright
    obtain ⟨items, hitems, hvalid⟩ := h.accepted evidence hevidence
    rw [run_evidence] at hitems
    rw [← Except.ok.inj hitems] at hvalid
    exact (accepts_iff hevidence).mp hvalid
  · intro h
    refine ⟨⟨?_, Frontend.exists_serializeEvidence⟩, ?_, ?_, ?_⟩
    · exact fun ⟨evidence, hevidence⟩ => (Frontend.serializeEvidence_eq_ok hevidence).1
    · exact fun evidence hevidence => (Frontend.serializeEvidence_eq_ok hevidence).2
    · intro evidence hevidence
      refine ⟨_, run_evidence evidence, (accepts_iff hevidence).mpr (h.resolve_left ?_)⟩
      rintro ⟨draft, hdraft, hwrong⟩
      exact hwrong ((Frontend.serializeEvidence_eq_ok hevidence).1 draft hdraft)
    · exact fun errors herrors => Frontend.serializeEvidence_eq_error herrors

/-- A row whose type is a single U+0085. -/
theorem nextLine_passes : ¬ Mirrors [⟨.ofString "ev-1", [0x0085], .ofString "seen", []⟩] := by
  intro h
  have hevidence : serializeEvidence [⟨.ofString "ev-1", [0x0085], .ofString "seen", []⟩] =
      .ok [⟨[0x0085], .ofString "seen", none⟩] := rfl
  obtain ⟨items, hitems, hvalid⟩ := h.accepted _ hevidence
  rw [run_evidence] at hitems
  rw [← Except.ok.inj hitems] at hvalid
  exact absurd hvalid (by decide +kernel)

end Interbellum
