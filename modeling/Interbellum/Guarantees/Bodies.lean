import Interbellum.Guarantees.Drafts
import Interbellum.Http.Handlers

/-!
# Bodies that are not one object

A request body is to be one object whose members are all known. Null is read like an object
without members.

* `readStrictly_iff`: null is the only other body that is read.
* `replaceGraph_null`: a draft that is sent null loses its graph.
-/

namespace Interbellum

open Http (Holds decodeJSON decodeOptionalJSON acceptsType)
open Http.Decoder (struct MembersFit)
open Utf16 (Text)
open JsonText (Doc)

variable {σ : Type} {fields : List (Http.Field σ)} {contentType : String} {body : Text}

/-- The body is one object, apart from white space, and the target knows its members. -/
def OneObject (fields : List (Http.Field σ)) (body : Text) : Prop :=
  ∃ members, Holds body (.obj members) ∧ MembersFit fields members

/-- What is read into a struct is an object that fits, or null. -/
theorem oneObject_of_decodeJSON {typeName : String} {zero v : σ}
    (h : decodeJSON (struct typeName zero fields) contentType body = .ok v) :
    OneObject fields body ∨ Holds body .null := by
  obtain ⟨-, d, hholds, -, hrun⟩ := Http.decodeJSON_eq_ok.mp h
  rcases (struct typeName zero fields).fits hrun with rfl | ⟨members, rfl, hfit⟩
  · exact .inr hholds
  · exact .inl ⟨members, hholds, hfit⟩

theorem decodeJSON_null {typeName : String} {zero : σ} (htype : acceptsType contentType = true)
    (h : Holds body .null) :
    decodeJSON (struct typeName zero fields) contentType body = .ok zero :=
  Http.decodeJSON_eq_ok.mpr ⟨htype, .null, h, Nat.zero_le _, rfl⟩

theorem not_oneObject_null (h : Holds body .null) : ¬ OneObject fields body := by
  rintro ⟨members, hholds, -⟩
  cases h.unique hholds

theorem decodeJSON_noValue {τ : Type} {t : Http.Decoder τ} :
    decodeJSON t contentType body = .error (.decode .noValue) ↔
      acceptsType contentType = true ∧ JsonText.skipBlanks body = [] := by
  unfold decodeJSON
  split_ifs with htype
  · simp [htype]
  · rw [Bool.not_eq_false] at htype
    rw [← Http.nextValue_eq_noValue, and_iff_right htype]
    cases Http.nextValue body with
    | error e => simp
    | ok r =>
      obtain ⟨d, rest⟩ := r
      refine iff_of_false ?_ nofun
      dsimp only
      split
      · simp
      · split <;> simp

/-- Besides what is read of a body that must be there, an optional one may be absent. -/
theorem decodeOptionalJSON_eq_ok {τ : Type} {t : Http.Decoder τ} {v : τ} :
    decodeOptionalJSON t contentType body = .ok v ↔ decodeJSON t contentType body = .ok v ∨
      (acceptsType contentType = true ∧ JsonText.skipBlanks body = []) ∧ v = t.zero := by
  rw [← @decodeJSON_noValue contentType body _ t, decodeOptionalJSON]
  split
  · next h => simp [h, eq_comm]
  · next h => exact ⟨.inl, fun hread => hread.resolve_right fun hnone => h hnone.1⟩

variable (parse : String → Option UUID)

/-- The body is read into the target only if it is one object of known members, or absent where
it may be; and when it is no graph, a `PUT` of it ends before there is a transaction. -/
structure ReadStrictly (typeName : String) (zero : σ) (fields : List (Http.Field σ))
    (contentType : String) (body : Text) : Prop where
  decode : ∀ v, decodeJSON (struct typeName zero fields) contentType body = .ok v →
    OneObject fields body
  optional : ∀ v, decodeOptionalJSON (struct typeName zero fields) contentType body = .ok v →
    OneObject fields body ∨ JsonText.skipBlanks body = [] ∧ v = zero
  absent : acceptsType contentType = true → JsonText.skipBlanks body = [] →
    decodeOptionalJSON (struct typeName zero fields) contentType body = .ok zero
  replace : ¬ OneObject (Http.graphFields parse) body → ∀ versionID, ∃ e,
    Http.replaceGraph parse versionID contentType body = .ret (.error e)

/-- The one body that is read although it is no object is null. -/
theorem readStrictly_iff {typeName : String} {zero : σ} :
    ReadStrictly parse typeName zero fields contentType body ↔
      ¬ (acceptsType contentType = true ∧ Holds body .null) := by
  constructor
  · rintro h ⟨htype, hnull⟩
    exact not_oneObject_null hnull (h.decode zero (decodeJSON_null htype hnull))
  · intro hnot
    have hdecode : ∀ {τ : Type} {fields : List (Http.Field τ)} {name : String} {zero v : τ},
        decodeJSON (struct name zero fields) contentType body = .ok v → OneObject fields body :=
      fun h => (oneObject_of_decodeJSON h).resolve_right fun hnull =>
        hnot ⟨(Http.decodeJSON_eq_ok.mp h).1, hnull⟩
    refine ⟨fun v => hdecode, fun v hv => ?_, fun htype hblank => ?_, fun hbody versionID => ?_⟩
    · rcases decodeOptionalJSON_eq_ok.mp hv with hv | ⟨⟨-, hblank⟩, hv⟩
      · exact .inl (hdecode hv)
      · exact .inr ⟨hblank, hv⟩
    · exact decodeOptionalJSON_eq_ok.mpr (.inr ⟨⟨htype, hblank⟩, rfl⟩)
    · unfold Http.replaceGraph
      cases Http.pathUUID parse "versionId" versionID with
      | error e => exact ⟨e, rfl⟩
      | ok id =>
        cases hreq : decodeJSON (Http.graphInput parse) contentType body with
        | error e => exact ⟨e.app, rfl⟩
        | ok req => exact absurd (hdecode hreq) hbody

/-- A draft that is sent null is left without a root, nodes and edges. -/
theorem replaceGraph_null {s : Store} (hs : Valid s) {v : Version} (hv : v ∈ s.versions)
    (hdraft : v.isDraft = true) {versionID : String} (hid : parse versionID = some v.id)
    (htype : acceptsType contentType = true) (hnull : Holds body .null) :
    ∃ d, (Http.replaceGraph parse versionID contentType body).run s =
      (.ok (.definition d), replaced v.id ⟨none, [], []⟩ s) := by
  have hcall : Http.replaceGraph parse versionID contentType body =
      (Operation.replaceGraph v.id ⟨none, [], []⟩).call := by
    have hpath : Http.pathUUID parse "versionId" versionID = .ok v.id := by
      rw [Http.pathUUID, hid]
    rw [Http.replaceGraph, hpath, Http.graphInput, decodeJSON_null htype hnull]
    rfl
  rw [hcall]
  rcases run_replaceGraph (g := ⟨none, [], []⟩) hs hv hdraft rfl with ⟨-, h⟩ | ⟨hnot, -⟩
  · exact h
  · refine absurd ?_ hnot
    exact ⟨fun _ hn => (List.not_mem_nil hn).elim, fun _ he => (List.not_mem_nil he).elim,
      List.nodup_nil, nofun⟩

/-- The ids that requests to the small server are written with. -/
def Triage.uuid (s : String) : Option UUID :=
  if s = "00000000-0000-0000-0000-000000000002" then some 2
  else if s = "00000000-0000-0000-0000-00000000000d" then some 13
  else if s = "00000000-0000-0000-0000-00000000000e" then some 14
  else if s = "00000000-0000-0000-0000-00000000000f" then some 15
  else none

/-- A `PUT` of null to the only version there is. -/
theorem replaceGraph_null_triage : ¬ ∀ (parse : String → Option UUID) (versionID contentType : String)
    (body : Text) (s : Store), Reachable s → ¬ OneObject (Http.graphFields parse) body →
      ((Http.replaceGraph parse versionID contentType body).run s).2 = s := by
  intro hclaim
  have hnull : Holds (.ofString "null") .null := ⟨[], rfl, rfl⟩
  have hversion : (⟨2, 1, 1, .draft, some 10, 7, none⟩ : Version) ∈ Triage.drafted.versions := by
    decide +kernel
  have hid : Triage.uuid "00000000-0000-0000-0000-000000000002" = some 2 := rfl
  have htype : acceptsType "application/json" = true := by decide
  obtain ⟨d, hrun⟩ := replaceGraph_null Triage.uuid Triage.reachable_drafted.valid hversion rfl hid
    htype hnull
  have hsame := hclaim Triage.uuid "00000000-0000-0000-0000-000000000002" "application/json"
    (.ofString "null") Triage.drafted Triage.reachable_drafted (not_oneObject_null hnull)
  rw [hrun] at hsame
  obtain ⟨-, hnodes, -⟩ :=
    rows_replaced (g := ⟨none, [], []⟩) Triage.reachable_drafted.valid hversion rfl
  have hleft : Triage.drafted.nodesOf 2 ≠ [] := by decide +kernel
  exact hleft (hsame ▸ hnodes)

end Interbellum
