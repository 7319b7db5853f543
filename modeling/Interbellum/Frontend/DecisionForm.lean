import Interbellum.Frontend.Evidence

/-!
# The decision form

The form of one investigation: what is typed into it, and the key under which its content is
sent. The key is remembered together with the content it was minted for, and forgotten when a
decision has landed.

* `FormRun.remembers`: the form remembers the last attempt, if it has not landed.
* `FormRun.same_key_iff`: two attempts carry the same key when all attempts from the one to the
  other have the same content, and none of them has landed.
-/

namespace Interbellum.Frontend

open Utf16 (Text)
open JsonText (Doc)

inductive ActorType where
  | human
  | agent
  deriving DecidableEq, Repr

def ActorType.text : ActorType → String
  | .human => "human"
  | .agent => "agent"

structure Actor where
  type : ActorType
  id : Option Text

structure SubmitDecisionRequest where
  edgeId : Text
  actor : Actor
  rationale : Option Text
  evidence : List EvidenceItem

def Actor.toDoc (actor : Actor) : Doc :=
  .obj [member "type" (.str (.ofString actor.type.text)), member "id" (textDoc actor.id)]

/-- What `JSON.stringify` writes of the request. -/
def SubmitDecisionRequest.toDoc (body : SubmitDecisionRequest) : Doc :=
  .obj [member "edge_id" (.str body.edgeId), member "actor" body.actor.toDoc,
    member "rationale" (textDoc body.rationale),
    member "evidence" (.arr (body.evidence.map EvidenceItem.toDoc))]

/-- A worked example that fills the form. -/
structure Suggestion where
  rationale : Text
  evidence : EvidenceSeed

/-- `key` and `keyFor` are the key and the content that it was minted for; `drawn` counts the
calls of `crypto.randomUUID`. -/
structure DecisionForm where
  edgeId : Option Text
  actorType : ActorType
  actorId : Text
  rationale : Text
  evidence : List EvidenceDraft
  evidenceErrors : List EvidenceSerializationError
  submitting : Bool
  key : Option Text
  keyFor : Option Text
  drawn : ℕ

def DecisionForm.initial : DecisionForm :=
  ⟨none, .human, .ofString "analyst", [], [], [], false, none, none, 0⟩

/-- What happens to the form. The evidence editor sets all rows at once, and a choice may come
with a worked example, whose row is numbered by a counter. -/
inductive FormEvent where
  | chooseEdge (edgeId : Text) (suggestion : Option Suggestion) (counter : ℕ)
  | setActorType (type : ActorType)
  | setActorId (id : Text)
  | setRationale (rationale : Text)
  | setEvidence (evidence : List EvidenceDraft)
  | submit
  /-- the response of the attempt is a success -/
  | landed
  /-- the response of the attempt is an error, or there is none -/
  | failed

/-- An attempt as it is sent: the content of its body, and its key. -/
structure Sent where
  body : Doc
  key : Text

/-- What the server may have seen of the form, and what the form has heard. -/
inductive Entry where
  | sent (attempt : Sent)
  | landed

namespace DecisionForm

/-- A choice fills the form when nothing has been typed into it. -/
def chooseEdge (form : DecisionForm) (edgeId : Text) (suggestion : Option Suggestion)
    (counter : ℕ) : DecisionForm :=
  match suggestion with
  | some s =>
    if form.rationale.trim = [] ∧ form.evidence.length = 0 then
      { form with
        edgeId := some edgeId
        rationale := s.rationale
        evidence := [newEvidenceDraft counter s.evidence] }
    else { form with edgeId := some edgeId }
  | none => { form with edgeId := some edgeId }

/-- The request, with the fields trimmed and blank ones left out. -/
def body (form : DecisionForm) (edgeId : Text) (evidence : List EvidenceItem) :
    SubmitDecisionRequest where
  edgeId := edgeId
  actor := ⟨form.actorType, if form.actorId.trim = [] then none else some form.actorId.trim⟩
  rationale := if form.rationale.trim = [] then none else some form.rationale.trim
  evidence := evidence

variable (stringify : Doc → Text) (randomUUID : ℕ → Text)

/-- The key for a content; it is minted unless the last one was for the same content. -/
def idempotencyKeyFor (form : DecisionForm) (body : Doc) : Text × DecisionForm :=
  let signature := stringify body
  match form.key with
  | some key =>
    if form.keyFor = some signature then (key, form)
    else (randomUUID form.drawn, { form with
      key := some (randomUUID form.drawn)
      keyFor := some signature
      drawn := form.drawn + 1 })
  | none => (randomUUID form.drawn, { form with
      key := some (randomUUID form.drawn)
      keyFor := some signature
      drawn := form.drawn + 1 })

/-- The attempt that is sent, unless one is under way, no edge is chosen or a row is wrong. -/
def submit (form : DecisionForm) : DecisionForm × List Entry :=
  if form.submitting then (form, [])
  else
    match form.edgeId with
    | none | some [] => (form, [])
    | some edgeId =>
      match serializeEvidence form.evidence with
      | .error errors => ({ form with evidenceErrors := errors }, [])
      | .ok evidence =>
        let content := (form.body edgeId evidence).toDoc
        let (key, form) :=
          idempotencyKeyFor stringify randomUUID { form with evidenceErrors := [] } content
        ({ form with submitting := true }, [.sent ⟨content, key⟩])

/-- The controls are disabled while an attempt is under way, and only then is a response
expected. -/
def apply (form : DecisionForm) : FormEvent → DecisionForm × List Entry
  | .submit => form.submit stringify randomUUID
  | .landed =>
    if form.submitting then
      ({ form with
        key := none
        keyFor := none
        edgeId := none
        rationale := []
        evidence := []
        submitting := false }, [.landed])
    else (form, [])
  | .failed => ({ form with submitting := false }, [])
  | .chooseEdge edgeId suggestion counter =>
    if form.submitting then (form, []) else (form.chooseEdge edgeId suggestion counter, [])
  | .setActorType type =>
    if form.submitting then (form, []) else ({ form with actorType := type }, [])
  | .setActorId id => if form.submitting then (form, []) else ({ form with actorId := id }, [])
  | .setRationale rationale =>
    if form.submitting then (form, []) else ({ form with rationale }, [])
  | .setEvidence evidence => if form.submitting then (form, []) else ({ form with evidence }, [])

end DecisionForm

/-- The form after some events, and what it has sent and heard. -/
inductive FormRun (stringify : Doc → Text) (randomUUID : ℕ → Text) :
    DecisionForm → List Entry → Prop
  | initial : FormRun stringify randomUUID .initial []
  | event {form : DecisionForm} {log : List Entry} (h : FormRun stringify randomUUID form log)
      (e : FormEvent) : FormRun stringify randomUUID (form.apply stringify randomUUID e).1
        (log ++ (form.apply stringify randomUUID e).2)

/-! ## What the form remembers -/

variable {stringify : Doc → Text} {randomUUID : ℕ → Text} {form form' : DecisionForm}
  {log before between after : List Entry} {x y : Sent}

/-- What an event means for the key. -/
inductive KeyStep (stringify : Doc → Text) (randomUUID : ℕ → Text) (form form' : DecisionForm) :
    List Entry → Prop
  | kept (hkey : form'.key = form.key) (hkeyFor : form'.keyFor = form.keyFor)
      (hdrawn : form'.drawn = form.drawn) : KeyStep stringify randomUUID form form' []
  | forgotten (hkey : form'.key = none) (hkeyFor : form'.keyFor = none)
      (hdrawn : form'.drawn = form.drawn) : KeyStep stringify randomUUID form form' [.landed]
  | again (body : Doc) (key : Text) (hremembered : form.key = some key)
      (hcontent : form.keyFor = some (stringify body)) (hkey : form'.key = some key)
      (hkeyFor : form'.keyFor = some (stringify body)) (hdrawn : form'.drawn = form.drawn) :
      KeyStep stringify randomUUID form form' [.sent ⟨body, key⟩]
  | minted (body : Doc) (hother : form.key ≠ none → form.keyFor ≠ some (stringify body))
      (hkey : form'.key = some (randomUUID form.drawn))
      (hkeyFor : form'.keyFor = some (stringify body)) (hdrawn : form'.drawn = form.drawn + 1) :
      KeyStep stringify randomUUID form form' [.sent ⟨body, randomUUID form.drawn⟩]

namespace DecisionForm

theorem keyStep_submit (form : DecisionForm) : KeyStep stringify randomUUID form
    (form.submit stringify randomUUID).1 (form.submit stringify randomUUID).2 := by
  unfold submit
  split_ifs
  · exact .kept rfl rfl rfl
  · rcases form.edgeId with _ | _ | ⟨u, edgeId⟩
    · exact .kept rfl rfl rfl
    · exact .kept rfl rfl rfl
    · dsimp only
      cases serializeEvidence form.evidence with
      | error errors => exact .kept rfl rfl rfl
      | ok evidence =>
        dsimp only [idempotencyKeyFor]
        cases hkey : form.key with
        | none => exact .minted _ (fun hne => absurd hkey hne) rfl rfl rfl
        | some key =>
          dsimp only
          split_ifs with hcontent
          · exact .again _ _ hkey hcontent rfl hcontent rfl
          · exact .minted _ (fun _ => hcontent) rfl rfl rfl

theorem keyStep_chooseEdge (form : DecisionForm) (edgeId : Text) (suggestion : Option Suggestion)
    (counter : ℕ) :
    KeyStep stringify randomUUID form (form.chooseEdge edgeId suggestion counter) [] := by
  unfold chooseEdge
  cases suggestion with
  | none => exact .kept rfl rfl rfl
  | some s =>
    dsimp only
    split_ifs
    · exact .kept rfl rfl rfl
    · exact .kept rfl rfl rfl

theorem keyStep_apply (form : DecisionForm) (e : FormEvent) : KeyStep stringify randomUUID form
    (form.apply stringify randomUUID e).1 (form.apply stringify randomUUID e).2 := by
  cases e with
  | submit => exact form.keyStep_submit
  | failed => exact .kept rfl rfl rfl
  | landed =>
    unfold apply
    split_ifs
    · exact .forgotten rfl rfl rfl
    · exact .kept rfl rfl rfl
  | chooseEdge edgeId suggestion counter =>
    unfold apply
    split_ifs
    · exact .kept rfl rfl rfl
    · exact form.keyStep_chooseEdge edgeId suggestion counter
  | _ =>
    unfold apply
    split_ifs
    · exact .kept rfl rfl rfl
    · exact .kept rfl rfl rfl

end DecisionForm

/-- The key and the content that are remembered after an entry. -/
def remembered (stringify : Doc → Text) : Option Entry → Option Text × Option Text
  | some (.sent x) => (some x.key, some (stringify x.body))
  | some .landed | none => (none, none)

/-- Only the last attempt is remembered, and keys are drawn one after the other. -/
structure Remembers (stringify : Doc → Text) (randomUUID : ℕ → Text) (form : DecisionForm)
    (log : List Entry) : Prop where
  last : (form.key, form.keyFor) = remembered stringify log.getLast?
  drawn : ∀ x, Entry.sent x ∈ log → ∃ n < form.drawn, x.key = randomUUID n

theorem Remembers.step {entries : List Entry} (h : Remembers stringify randomUUID form log)
    (hstep : KeyStep stringify randomUUID form form' entries) :
    Remembers stringify randomUUID form' (log ++ entries) := by
  have hearlier : form.drawn ≤ form'.drawn → ∀ x, Entry.sent x ∈ log →
      ∃ n < form'.drawn, x.key = randomUUID n := by
    intro hle x hx
    obtain ⟨n, hn, hkey⟩ := h.drawn x hx
    exact ⟨n, by omega, hkey⟩
  cases hstep with
  | kept hkey hkeyFor hdrawn =>
    rw [List.append_nil]
    exact ⟨by rw [hkey, hkeyFor, h.last], hearlier hdrawn.ge⟩
  | forgotten hkey hkeyFor hdrawn =>
    refine ⟨?_, ?_⟩
    · rw [List.getLast?_concat, hkey, hkeyFor]
      rfl
    · intro x hx
      rcases List.mem_append.mp hx with hx | hx
      · exact hearlier hdrawn.ge x hx
      · cases List.mem_singleton.mp hx
  | again body key hremembered hcontent hkey hkeyFor hdrawn =>
    have hlast := h.last
    refine ⟨?_, ?_⟩
    · rw [List.getLast?_concat, hkey, hkeyFor]
      rfl
    · intro x hx
      rcases List.mem_append.mp hx with hx | hx
      · exact hearlier hdrawn.ge x hx
      · -- the key is that of the last attempt
        obtain rfl := Entry.sent.inj (List.mem_singleton.mp hx)
        rw [hremembered, hcontent] at hlast
        rcases hentry : log.getLast? with _ | ⟨z⟩ | _
        · rw [hentry] at hlast
          cases hlast
        · rw [hentry] at hlast
          obtain ⟨n, hn, hz⟩ := hearlier hdrawn.ge z (List.mem_of_getLast? hentry)
          exact ⟨n, hn, (Option.some.inj (Prod.mk.inj hlast).1).trans hz⟩
        · rw [hentry] at hlast
          cases hlast
  | minted body hother hkey hkeyFor hdrawn =>
    refine ⟨?_, ?_⟩
    · rw [List.getLast?_concat, hkey, hkeyFor]
      rfl
    · intro x hx
      rcases List.mem_append.mp hx with hx | hx
      · exact hearlier (by omega) x hx
      · obtain rfl := Entry.sent.inj (List.mem_singleton.mp hx)
        exact ⟨form.drawn, by omega, rfl⟩

theorem FormRun.remembers (h : FormRun stringify randomUUID form log) :
    Remembers stringify randomUUID form log := by
  induction h with
  | initial => exact ⟨rfl, fun x hx => absurd hx List.not_mem_nil⟩
  | event _ e ih => exact ih.step (DecisionForm.keyStep_apply _ e)

theorem KeyStep.drawn_le {entries : List Entry}
    (h : KeyStep stringify randomUUID form form' entries) : form.drawn ≤ form'.drawn := by
  cases h <;> omega

/-- The calls of `crypto.randomUUID` have given different values so far. -/
def Distinct (randomUUID : ℕ → Text) (drawn : ℕ) : Prop :=
  ∀ m n, m < drawn → n < drawn → randomUUID m = randomUUID n → m = n

theorem Distinct.of_le {m n : ℕ} (h : Distinct randomUUID n) (hle : m ≤ n) :
    Distinct randomUUID m :=
  fun a b ha hb => h a b (ha.trans_le hle) (hb.trans_le hle)

/-- Equal texts were written of equal contents. -/
def Faithful (stringify : Doc → Text) (log : List Entry) : Prop :=
  ∀ x y, Entry.sent x ∈ log → Entry.sent y ∈ log → stringify x.body = stringify y.body →
    x.body = y.body

theorem Faithful.of_subset {log' : List Entry} (h : Faithful stringify log') (hsub : log ⊆ log') :
    Faithful stringify log :=
  fun x y hx hy => h x y (hsub hx) (hsub hy)

/-- The entries are attempts with this content. -/
def Repeats (body : Doc) (entries : List Entry) : Prop :=
  ∀ entry ∈ entries, ∃ z, entry = .sent z ∧ z.body = body

/-! ## Which attempts carry one key -/

@[simp] theorem repeats_append {body : Doc} {entries entries' : List Entry} :
    Repeats body (entries ++ entries') ↔ Repeats body entries ∧ Repeats body entries' :=
  List.forall_mem_append

@[simp] theorem repeats_sent {body : Doc} : Repeats body [.sent y] ↔ y.body = body := by
  simp [Repeats]

/-- The attempt before the last one, or `x` when there is none. -/
theorem getLast?_attempts (hlast : log.getLast? = some (.sent y))
    (hlog : log = before ++ .sent x :: between) :
    (between = [] ∧ y = x) ∨ ∃ earlier, between = earlier ++ [.sent y] := by
  rcases List.eq_nil_or_concat between with rfl | ⟨earlier, entry, rfl⟩
  · rw [hlog, List.getLast?_concat] at hlast
    exact .inl ⟨rfl, (Entry.sent.inj (Option.some.inj hlast)).symm⟩
  · rw [hlog, List.concat_eq_append, ← List.cons_append, ← List.append_assoc,
      List.getLast?_concat] at hlast
    exact .inr ⟨earlier, by rw [List.concat_eq_append, Option.some.inj hlast]⟩

/-- An attempt whose key was remembered has the content of the attempt before it. -/
theorem Remembers.again {body : Doc} {key : Text} (h : Remembers stringify randomUUID form log)
    (hkey : form.key = some key) (hcontent : form.keyFor = some (stringify body)) :
    ∃ z, log.getLast? = some (.sent z) ∧ z.key = key ∧ stringify z.body = stringify body := by
  have hlast := h.last
  rw [hkey, hcontent] at hlast
  rcases hentry : log.getLast? with _ | ⟨z⟩ | _
  · rw [hentry] at hlast
    cases hlast
  · rw [hentry] at hlast
    obtain ⟨hzkey, hzcontent⟩ := Prod.mk.inj hlast
    exact ⟨z, rfl, (Option.some.inj hzkey).symm, (Option.some.inj hzcontent).symm⟩
  · rw [hentry] at hlast
    cases hlast

/-- A key is minted for a content that the attempt before does not have. -/
theorem Remembers.minted {body : Doc} {z : Sent} (h : Remembers stringify randomUUID form log)
    (hother : form.key ≠ none → form.keyFor ≠ some (stringify body))
    (hlast : log.getLast? = some (.sent z)) : z.body ≠ body := by
  obtain ⟨hkey, hcontent⟩ := Prod.mk.inj (hlast ▸ h.last)
  rintro rfl
  exact hother (by simp [hkey]) hcontent

/-- The second attempt is the last one, or both were made before. -/
theorem attempts_concat {entry : Entry}
    (hlog : log ++ [entry] = before ++ .sent x :: between ++ .sent y :: after) :
    (log = before ++ .sent x :: between ∧ entry = .sent y) ∨
      ∃ later, log = before ++ .sent x :: between ++ .sent y :: later := by
  rcases List.eq_nil_or_concat after with rfl | ⟨later, entry', rfl⟩
  · obtain ⟨hlog, hentry⟩ := List.append_inj' hlog rfl
    exact .inl ⟨hlog, List.singleton_inj.mp hentry⟩
  · rw [List.concat_eq_append, ← List.cons_append, ← List.append_assoc] at hlog
    exact .inr ⟨later, (List.append_inj' hlog rfl).1⟩

/-- The attempt `y` that a step makes carries the key of `x` if and only if all attempts since
have the content of `x`. -/
theorem Remembers.same_key (h : Remembers stringify randomUUID form log)
    (hstep : KeyStep stringify randomUUID form form' [.sent y])
    (hdistinct : Distinct randomUUID form'.drawn)
    (hfaithful : Faithful stringify (log ++ [.sent y]))
    (hlog : log = before ++ .sent x :: between)
    (hearlier : ∀ earlier z, between = earlier ++ [.sent z] →
      (x.key = z.key ↔ Repeats x.body (earlier ++ [.sent z]))) :
    x.key = y.key ↔ Repeats x.body (between ++ [.sent y]) := by
  have hx : Entry.sent x ∈ log := by simp [hlog]
  rw [repeats_append, repeats_sent]
  cases hstep with
  | again body key hkey hcontent =>
    obtain ⟨z, hlast, rfl, hz⟩ := h.again hkey hcontent
    have hbody : z.body = body :=
      hfaithful z ⟨body, z.key⟩ (by simp [List.mem_of_getLast? hlast]) (by simp) hz
    subst hbody
    rcases getLast?_attempts hlast hlog with ⟨rfl, rfl⟩ | ⟨earlier, rfl⟩
    · simp [Repeats]
    · rw [hearlier earlier z rfl]
      simp
  | minted body hother _ _ hdrawn =>
    obtain ⟨n, hn, hkey⟩ := h.drawn x hx
    constructor
    · intro hsame
      have := hdistinct n form.drawn (by omega) (by omega) (hkey.symm.trans hsame)
      omega
    · -- the attempt before would have the same content
      rintro ⟨hbetween, rfl⟩
      rcases List.eq_nil_or_concat between with rfl | ⟨earlier, entry, rfl⟩
      · exact absurd rfl (h.minted hother (by rw [hlog, List.getLast?_concat]))
      · rw [List.concat_eq_append] at hlog hbetween
        obtain ⟨z, rfl, hz⟩ := hbetween entry (by simp)
        refine absurd hz (h.minted hother ?_)
        rw [hlog, ← List.cons_append, ← List.append_assoc, List.getLast?_concat]

/-- Two attempts carry the same key if and only if all attempts from the one to the other have the
same content, and none of them has landed. -/
theorem FormRun.same_key_iff (h : FormRun stringify randomUUID form log)
    (hdistinct : Distinct randomUUID form.drawn) (hfaithful : Faithful stringify log)
    (hlog : log = before ++ .sent x :: between ++ .sent y :: after) :
    x.key = y.key ↔ Repeats x.body (between ++ [.sent y]) := by
  induction h generalizing between y after with
  | initial => simp at hlog
  | @event form log h e ih =>
    have hstep : KeyStep stringify randomUUID form _ _ := form.keyStep_apply e
    have hearlier := hdistinct.of_le hstep.drawn_le
    have hwritten := hfaithful.of_subset (List.subset_append_left ..)
    rcases hentries : (form.apply stringify randomUUID e).2 with _ | ⟨entry, _ | _⟩
    · rw [hentries, List.append_nil] at hlog
      exact ih hearlier hwritten hlog
    · rw [hentries] at hlog hstep hfaithful
      rcases attempts_concat hlog with ⟨hbefore, rfl⟩ | ⟨later, hbefore⟩
      · refine h.remembers.same_key hstep hdistinct hfaithful hbefore fun earlier z hz => ?_
        have hsplit : log = before ++ .sent x :: earlier ++ .sent z :: [] := by
          rw [hbefore, hz, ← List.cons_append, ← List.append_assoc]
        exact ih hearlier hwritten hsplit
      · exact ih hearlier hwritten hbefore
    · -- an event makes one entry at most
      rw [hentries] at hstep
      cases hstep

end Interbellum.Frontend
