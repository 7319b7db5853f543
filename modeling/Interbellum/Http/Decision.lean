import Interbellum.Domain.Investigation
import Interbellum.Domain.JsonValue
import Interbellum.Http.Objects

/-!
# Decisions in requests

`SubmitDecisionRequest` is what the body of a decision is decoded into. `Same` says which
requests mean the same.

* `runMembers_null`: a null member is the same as no member.
* `marshalObject_same`: data is stored alike when it is the same value.
-/

namespace Interbellum.Http

open Decoder (string uuid rawMap pointer slice struct field)
open JsonText (Doc)
open Utf16 (Text)

structure Actor where
  type : String
  id : Option String

structure EvidenceItem where
  type : String
  summary : String
  data : Option (List (String × Doc))

structure SubmitDecisionRequest where
  edgeID : UUID
  actor : Actor
  rationale : Option String
  evidence : Option (List EvidenceItem)

def actorFields : List (Field Actor) :=
  [field "type" string Actor.type fun a v => { a with type := v },
   field "id" (pointer string) Actor.id fun a v => { a with id := v }]

def actor : Decoder Actor := struct "httpdto.Actor" ⟨"", none⟩ actorFields

def evidenceFields : List (Field EvidenceItem) :=
  [field "type" string EvidenceItem.type fun e v => { e with type := v },
   field "summary" string EvidenceItem.summary fun e v => { e with summary := v },
   field "data" rawMap EvidenceItem.data fun e v => { e with data := v }]

def evidenceItem : Decoder EvidenceItem :=
  struct "httpdto.EvidenceItem" ⟨"", "", none⟩ evidenceFields

variable (parse : String → Option UUID)

def decisionFields : List (Field SubmitDecisionRequest) :=
  [field "edge_id" (uuid parse) SubmitDecisionRequest.edgeID fun r v => { r with edgeID := v },
   field "actor" actor SubmitDecisionRequest.actor fun r v => { r with actor := v },
   field "rationale" (pointer string) SubmitDecisionRequest.rationale
     fun r v => { r with rationale := v },
   field "evidence" (slice "[]httpdto.EvidenceItem" evidenceItem) SubmitDecisionRequest.evidence
     fun r v => { r with evidence := v }]

def submitDecisionRequest : Decoder SubmitDecisionRequest :=
  struct "httpdto.SubmitDecisionRequest" ⟨UUID.nil, ⟨"", none⟩, none, none⟩ (decisionFields parse)

/-- A null member of a field that still has its zero value is the same as no member. -/
theorem runMembers_null {τ σ : Type} {fields : List (Field σ)} {path : List String} {old : σ}
    {k : Text} {name : String} {t : Decoder τ} {get : σ → τ} {set : σ → τ → σ}
    {rest : List (Text × Doc)}
    (hfield : Decoder.fieldFor fields k.toUnicode = some (field name t get set))
    (hnull : t.run (path ++ [name]) (get old) .null = .ok (get old))
    (hset : set old (get old) = old) :
    Decoder.runMembers fields path old ((k, .null) :: rest) =
      Decoder.runMembers fields path old rest := by
  rw [Decoder.runMembers, hfield]
  show ((t.run (path ++ [name]) (get old) .null).map (set old) >>= _) = _
  rw [hnull, Except.map, hset]
  rfl

/-! ## To the domain -/

/-- A string as an actor type. -/
def actorType (s : String) : ActorType :=
  if s = "human" then .human else if s = "agent" then .agent else .unknown s

def toEvidenceItems (items : Option (List EvidenceItem)) : List Interbellum.EvidenceItem :=
  (items.getD []).map fun item => ⟨item.type, item.summary, marshalObject item.data⟩

/-- The key comes from a header. -/
def SubmitDecisionRequest.toDecisionInput (r : SubmitDecisionRequest)
    (idempotencyKey : Option String) : DecisionInput where
  edgeID := r.edgeID
  actor := ⟨actorType r.actor.type, r.actor.id⟩
  rationale := r.rationale
  evidence := toEvidenceItems r.evidence
  idempotencyKey := idempotencyKey

theorem actorType_injective : Function.Injective actorType := by
  intro x y h
  unfold actorType at h
  split_ifs at h with hx hx' hy hy' <;> simp_all

/-! ## Requests that mean the same -/

/-- The members of the data as the database reads them. -/
def EvidenceItem.members (e : EvidenceItem) : List (String × Json) :=
  (e.data.getD []).map fun m => (m.1, toJson m.2)

/-- Absent data and an empty object are the same. -/
structure EvidenceItem.Same (x y : EvidenceItem) : Prop where
  type : x.type = y.type
  summary : x.summary = y.summary
  data : Json.Same (.obj x.members) (.obj y.members)

/-- Absent evidence and an empty list are the same, absent rationale and an empty one are not. -/
structure SubmitDecisionRequest.Same (a b : SubmitDecisionRequest) : Prop where
  edgeID : a.edgeID = b.edgeID
  actorType : a.actor.type = b.actor.type
  actorID : a.actor.id = b.actor.id
  rationale : a.rationale = b.rationale
  evidence : List.Forall₂ EvidenceItem.Same (a.evidence.getD []) (b.evidence.getD [])

theorem SubmitDecisionRequest.Same.refl (r : SubmitDecisionRequest) : r.Same r :=
  ⟨rfl, rfl, rfl, rfl, List.forall₂_same.mpr fun _ _ => ⟨rfl, rfl, Json.same_iff.mpr rfl⟩⟩

/-- Data as it is stored: nothing, or an object that is the same value. -/
theorem marshalObject_jsonb (e : EvidenceItem) :
    (marshalObject e.data).map Json.jsonb =
      if e.members = [] then none else some (Json.obj e.members).jsonb := by
  unfold marshalObject EvidenceItem.members
  cases e.data.getD [] with
  | nil => rfl
  | cons m rest =>
    have hsort := List.map_insertionSort (r := fun a b : String × Doc => a.1 ≤ b.1)
      (s := fun a b : String × Json => a.1 ≤ b.1) (fun m => (m.1, toJson m.2)) (m :: rest)
      fun _ _ _ _ => Iff.rfl
    dsimp only
    rw [hsort, Option.map_some, Json.jsonb_sorted, List.map_cons, if_neg (List.cons_ne_nil _ _)]

/-- Data is stored alike when it is the same value. -/
theorem marshalObject_same {x y : EvidenceItem} :
    (marshalObject x.data).map Json.jsonb = (marshalObject y.data).map Json.jsonb ↔
      Json.Same (.obj x.members) (.obj y.members) := by
  rw [marshalObject_jsonb, marshalObject_jsonb]
  constructor
  · intro h
    rw [Json.same_iff]
    split_ifs at h with hx hy hy
    · rw [hx, hy]
    · exact Option.some.inj h
  · intro h
    by_cases hx : x.members = []
    · rw [hx] at h
      rw [if_pos hx, if_pos (Json.same_empty h)]
    · have hy : y.members ≠ [] := fun hy => hx (Json.same_empty (hy ▸ h.symm))
      rw [if_neg hx, if_neg hy, Json.same_iff.mp h]

end Interbellum.Http
