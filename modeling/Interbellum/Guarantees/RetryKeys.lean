import Interbellum.Frontend.DecisionForm
import Interbellum.Guarantees.Replays

/-!
# The keys of the decision form

The form sends its attempts to the server, and the answer of some of them is lost. An attempt
that carries the key of an earlier one is recognised there.

* `idempotencyKeyFrom_uuid`: a key of the form arrives as it is.
* `resubmission_recognised`: which attempts carry the same key, and what the second one is told.
-/

namespace Interbellum

open InvestigationRepository
open Utf16 (Text)
open JsonText (Doc)
open Http (SubmitDecisionRequest)
open Frontend (DecisionForm FormEvent FormRun Entry Sent Repeats Distinct Faithful)

/-! ## The key in its header -/

/-- A text as `crypto.randomUUID` makes it. -/
structure IsUUID (t : Text) : Prop where
  length : t.length = 36
  digits : ∀ u ∈ t, u ∈ Text.ofString "0123456789abcdef-"

theorem utf8ByteSize_ofList_le (cs : List Char) :
    (String.ofList cs).utf8ByteSize ≤ 4 * cs.length := by
  induction cs with
  | nil => exact Nat.zero_le _
  | cons c rest ih =>
    have hcons : String.ofList (c :: rest) = String.singleton c ++ String.ofList rest := by
      rw [← String.toList_inj]
      simp
    have hsize := c.utf8Size_le_four
    rw [hcons, String.utf8ByteSize_append, String.utf8ByteSize_singleton, List.length_cons]
    omega

theorem trimSpace_eq_self {cs : List Char} (h : ∀ c ∈ cs, isSpace c = false) :
    Http.trimSpace cs = cs := by
  have hdrop : ∀ l : List Char, (∀ c ∈ l, isSpace c = false) → l.dropWhile isSpace = l := by
    intro l hl
    cases l with
    | nil => rfl
    | cons c rest => rw [List.dropWhile_cons, hl c List.mem_cons_self, if_neg Bool.false_ne_true]
  rw [Http.trimSpace, hdrop cs h, hdrop _ (by simpa using h), List.reverse_reverse]

theorem idempotencyKeyFrom_uuid {t : Text} (h : IsUUID t) :
    Http.idempotencyKeyFrom t.toUnicode = .ok (some t.toUnicode) := by
  have hall : (Text.ofString "0123456789abcdef-").all
      (fun u => Utf16.isHigh u = false ∧ isSpace (Utf16.loneChar u) = false) = true := by
    decide
  have hdigits : ∀ u ∈ Text.ofString "0123456789abcdef-",
      Utf16.isHigh u = false ∧ isSpace (Utf16.loneChar u) = false :=
    fun u hu => of_decide_eq_true (List.all_eq_true.mp hall u hu)
  have hchars : t.chars = t.map Utf16.loneChar :=
    Text.chars_eq_map fun u hu => (hdigits u (h.digits u hu)).1
  have htrim : Http.trimSpace t.toUnicode.toList = t.chars := by
    rw [Text.toUnicode, String.toList_ofList, trimSpace_eq_self]
    rw [hchars, List.forall_mem_map]
    exact fun u hu => (hdigits u (h.digits u hu)).2
  have hsize : t.toUnicode.utf8ByteSize ≤ 144 := by
    refine (utf8ByteSize_ofList_le _).trans ?_
    rw [hchars, List.length_map, h.length]
  have hne : t.toUnicode ≠ "" := by
    rw [ne_eq, Text.toUnicode_eq_empty]
    rintro rfl
    cases h.length
  unfold Http.idempotencyKeyFrom
  rw [htrim]
  have hlength : ¬ Http.maxIdempotencyKeyLength < t.toUnicode.utf8ByteSize := by
    rw [Http.maxIdempotencyKeyLength]
    omega
  exact (if_neg hne).trans (if_neg hlength)

/-! ## The attempt at the server -/

/-- What the handler makes of a request depends on the request only. -/
theorem submitDecision_cases (parse : String → Option UUID) (raw header contentType : String)
    (body : Text) :
    (∃ e, ∀ stepID now txNow,
      Http.submitDecision parse stepID now txNow raw header contentType body = .ret (.error e)) ∨
    ∃ id, ∃ request : SubmitDecisionRequest, ∃ key,
      Http.idempotencyKeyFrom header = .ok key ∧ ∀ stepID now txNow,
      Http.submitDecision parse stepID now txNow raw header contentType body =
        (Operation.submit ⟨stepID, now, txNow, id, request.toDecisionInput key⟩).call := by
  unfold Http.submitDecision
  cases Http.pathUUID parse "investigationId" raw with
  | error e => exact .inl ⟨e, fun _ _ _ => rfl⟩
  | ok id =>
    cases hkey : Http.idempotencyKeyFrom header with
    | error e => exact .inl ⟨e, fun _ _ _ => rfl⟩
    | ok key =>
      cases Http.decodeJSON (Http.submitDecisionRequest parse) contentType body with
      | error e => exact .inl ⟨e.app, fun _ _ _ => rfl⟩
      | ok request => exact .inr ⟨id, request, key, rfl, fun _ _ _ => rfl⟩

variable {s t : Store} {a : Attempt}

/-- A call with a key is accepted only when its request can be stored. -/
theorem storable_of_accepted {d : DecisionResult} {key : String}
    (h : a.call.run.run s = (.ok d, t)) (hkey : a.input.idempotencyKey = some key) :
    storableInput a.input = true := by
  rw [a.run_call] at h
  rcases hbody : a.body.run.run s [] with ⟨e | d', ws⟩
  · rw [hbody] at h
    cases (Prod.mk.inj h).1
  · obtain ⟨_, _, -, hrest⟩ := Txn.Body.ok_of_run_bind hbody
    obtain ⟨_, _, hfound, -⟩ := Txn.Body.ok_of_run_bind hrest
    rw [findRecorded, hkey] at hfound
    obtain ⟨hresult, -⟩ := ok_of_sql hfound
    obtain ⟨hchecks, -⟩ := Answer.guarded_ok hresult
    simpa using hchecks

section

variable {ι : Type} [DecidableEq ι] {ops : ι → Operation} {trace later : List (ι × Txn.Event)}
  {sys sys' before after : Server ι} {j k : ι} {event : Txn.Event} {op : Operation}

/-- A client is the call that it makes. -/
theorem clients_update (h : (ops k).call = op.call) :
    clients s (Function.update ops k op) = clients s ops := by
  unfold clients
  congr 1
  funext i
  by_cases hi : i = k
  · subst hi
    rw [Function.update_self, h]
  · rw [Function.update_of_ne hi]

/-- A request that is answered at once changes nothing. -/
theorem unchanged_of_ret {r : Except AppError Reply} (h : Reachable s)
    (hcall : (ops j).call = .ret r)
    (haround : Txn.Around j event (clients s ops) trace sys before after) :
    after.store = before.store := by
  obtain ⟨t, t', rfl, hbefore, hstep, -⟩ := haround
  have hkeeps : (ops j).call.Keeps rules (fun t u => u = t) (fun _ _ => True) s := by
    rw [hcall]
    exact fun _ _ _ => trivial
  exact (tracked_clients h.valid ops).silent hkeeps hbefore hstep

/-- A submission that has been recorded under a key is recognised when it comes again, at any later
time and whatever the others do. -/
theorem told_of_recorded {b : Attempt} {request : SubmitDecisionRequest} {key : String}
    (h : Reachable s) (hrun : Txn.Run (clients s ops) trace sys)
    (hj : (ops j).call = (Operation.submit a).call)
    (hinput : a.input = request.toDecisionInput (some key))
    (haround : Txn.Around j event (clients s ops) trace sys before after)
    (hrecorded : after.store.steps ≠ before.store.steps)
    (hk : (ops k).call = (Operation.submit b).call) (hsame : b.input = a.input)
    (hid : b.investigationID = a.investigationID)
    (hsent : sys.session k = .idle (ops k).call) :
    ∃ row, after.store.steps = before.store.steps ++ [row] ∧
      Replayed row ((ops k).call.run sys.store).1 ∧
      ∀ later sys', Txn.Run sys later sys' →
        (∀ event before after, Txn.Around k event sys later sys' before after →
          after.store = before.store) ∧
        ∀ r, sys'.session k = .idle (.ret r) → Replayed row r := by
  have hvalid : InvestigationService.validateDecision b.input = .ok () := by
    rw [hsame]
    cases hcheck : InvestigationService.validateDecision a.input with
    | ok => rfl
    | error e =>
      rw [submit_call, hcheck] at hj
      exact absurd (congrArg Store.steps (unchanged_of_ret h hj haround)) hrecorded
  obtain ⟨t, t', rfl, hbefore, hstep, hafter⟩ := haround
  have hclients := clients_update (s := s) hj
  have hop : Function.update ops j (.submit a) j = .submit a := Function.update_self ..
  rw [← hclients] at hbefore
  obtain ⟨row, hrow, hsteps, hholds, hrowkey⟩ :=
    recorded_request h (.inr hop) hbefore hstep hrecorded hinput
  obtain ⟨-, ⟨_, _, _, _, -, -, -, -, haccepted, -⟩, -⟩ := decision_step h (.inr hop) hbefore hstep
    fun hunchanged => hrecorded (congrArg Store.steps hunchanged)
  have hstorable : storableInput b.input = true := by
    rw [hsame]
    exact storable_of_accepted haccepted (by rw [hinput]; rfl)
  have hequivalent : equivalent row b.input = true := by
    rw [hsame, hinput]
    exact (equivalent_iff hholds).mpr (.refl request)
  have hb : b.Recorded sys.store row := by
    rw [← hid] at hrow
    exact recorded_later h hbefore hstep hafter hrow hrowkey (by rw [hsame, hinput]; rfl)
  obtain ⟨calls, htracked⟩ := h.tracked hrun
  have hkeeps := keeps_again (.inr rfl) htracked.inv hvalid hb
  obtain ⟨-, -, hrun'⟩ := hkeeps.run htracked.inv
  refine ⟨row, hsteps, ?_, fun later sys' hlater => ?_⟩
  · rw [hk]
    exact hrun'.replayed hstorable hequivalent
  · rw [← clients_update hk] at hrun
    rw [hk] at hsent
    have hop' : Function.update ops k (.submit b) k = .submit b := Function.update_self ..
    obtain ⟨hunchanged, hanswers⟩ :=
      told_again h hrun (.inr hop') hb hvalid (by rw [hop', hsent]) hlater
    exact ⟨hunchanged, fun r hr => (hanswers r hr).replayed hstorable hequivalent⟩

end

/-! ## Attempts of one form -/

/-- The operation is what the server makes of the attempt: `api.submitDecision` posts the body as
JSON, with the key in a header. The ids and the times are those of the server. -/
def Delivers (parse : String → Option UUID) (stringify : Doc → Text) (investigationID : String)
    (x : Sent) (op : Operation) : Prop :=
  ∃ stepID now txNow, op.call = Http.submitDecision parse stepID now txNow investigationID
    x.key.toUnicode "application/json" (stringify x.body)

theorem delivers_cases (parse : String → Option UUID) (stringify : Doc → Text)
    (investigationID : String) {x : Sent} (hkey : IsUUID x.key) :
    (∃ e, ∀ op, Delivers parse stringify investigationID x op → op.call = .ret (.error e)) ∨
    ∃ id, ∃ request : SubmitDecisionRequest, ∀ op, Delivers parse stringify investigationID x op →
      ∃ a : Attempt, op.call = (Operation.submit a).call ∧ a.investigationID = id ∧
        a.input = request.toDecisionInput (some x.key.toUnicode) := by
  rcases submitDecision_cases parse investigationID x.key.toUnicode "application/json"
    (stringify x.body) with ⟨e, hcall⟩ | ⟨id, request, key, hread, hcall⟩
  · refine .inl ⟨e, ?_⟩
    rintro op ⟨stepID, now, txNow, hop⟩
    exact hop.trans (hcall stepID now txNow)
  · rw [idempotencyKeyFrom_uuid hkey] at hread
    obtain rfl := Except.ok.inj hread
    refine .inr ⟨id, request, ?_⟩
    rintro op ⟨stepID, now, txNow, hop⟩
    exact ⟨_, hop.trans (hcall stepID now txNow), rfl, rfl⟩

/-- Two attempts of a form carry the same key if and only if all attempts from the one to the
other have the same body, and none of them has landed. If so, and the first one has been recorded,
then the second one changes nothing and is answered with the recorded step. -/
theorem resubmission_recognised {stringify : Doc → Text} {randomUUID : ℕ → Text}
    {form : DecisionForm} {log earlier between rest : List Entry} {x y : Sent}
    (hform : FormRun stringify randomUUID form log) (hdistinct : Distinct randomUUID form.drawn)
    (huuid : ∀ n < form.drawn, IsUUID (randomUUID n)) (hwritten : Faithful stringify log)
    (hlog : log = earlier ++ .sent x :: between ++ .sent y :: rest) :
    (x.key = y.key ↔ Repeats x.body (between ++ [.sent y])) ∧
    (Repeats x.body (between ++ [.sent y]) → ∀ (ι : Type) [DecidableEq ι]
      (parse : String → Option UUID) (investigationID : String) (s : Store) (ops : ι → Operation)
      (trace : List (ι × Txn.Event)) (sys before after : Server ι) (j k : ι) (event : Txn.Event),
      Reachable s → Txn.Run (clients s ops) trace sys →
      Delivers parse stringify investigationID x (ops j) →
      Txn.Around j event (clients s ops) trace sys before after →
      after.store.steps ≠ before.store.steps →
      Delivers parse stringify investigationID y (ops k) →
      sys.session k = .idle (ops k).call →
      ∃ row, after.store.steps = before.store.steps ++ [row] ∧
        Replayed row ((ops k).call.run sys.store).1 ∧
        ∀ later sys', Txn.Run sys later sys' →
          (∀ event before after, Txn.Around k event sys later sys' before after →
            after.store = before.store) ∧
          ∀ r, sys'.session k = .idle (.ret r) → Replayed row r) := by
  have hsame := hform.same_key_iff hdistinct hwritten hlog
  refine ⟨hsame, ?_⟩
  intro hrepeats ι _ parse investigationID s ops trace sys before after j k event h hrun hx haround
    hrecorded hy hsent
  have hxy : y = x := by
    obtain ⟨z, hz, hbody⟩ := hrepeats _ (List.mem_append_right _ (List.mem_singleton_self _))
    obtain rfl := Entry.sent.inj hz
    obtain ⟨body, key⟩ := x
    obtain rfl : y.key = key := (hsame.mpr hrepeats).symm
    obtain rfl : y.body = body := hbody
    rfl
  subst hxy
  have hkey : IsUUID y.key := by
    obtain ⟨n, hn, hdrawn⟩ := hform.remembers.drawn y (by simp [hlog])
    rw [hdrawn]
    exact huuid n hn
  rcases delivers_cases parse stringify investigationID hkey with
    ⟨e, hcall⟩ | ⟨id, request, hcall⟩
  · exact absurd (congrArg Store.steps (unchanged_of_ret h (hcall _ hx) haround)) hrecorded
  · obtain ⟨a, ha, haid, hainput⟩ := hcall _ hx
    obtain ⟨b, hb, hbid, hbinput⟩ := hcall _ hy
    exact told_of_recorded h hrun ha hainput haround hrecorded hb (hbinput.trans hainput.symm)
      (hbid.trans haid.symm) hsent

/-! ## An analyst who tries again -/

namespace Triage

def quoted (t : Text) : Text := .ofString "\"" ++ t ++ .ofString "\""

mutual

/-- `JSON.stringify` where no string has a character to escape and numbers are integers. -/
def jsonText : Doc → Text
  | .null => .ofString "null"
  | .bool b => .ofString (if b then "true" else "false")
  | .num value _ => Ecma.integerText value.num
  | .str t => quoted t
  | .arr items => .ofString "[" ++ itemsText items ++ .ofString "]"
  | .obj members => .ofString "\x7b" ++ membersText members ++ .ofString "\x7d"

def itemsText : List Doc → Text
  | [] => []
  | [item] => jsonText item
  | item :: rest => jsonText item ++ .ofString "," ++ itemsText rest

def membersText : List (Text × Doc) → Text
  | [] => []
  | [(name, value)] => quoted name ++ .ofString ":" ++ jsonText value
  | (name, value) :: rest =>
    quoted name ++ .ofString ":" ++ jsonText value ++ .ofString "," ++ membersText rest

end

/-- What `crypto.randomUUID` returns one time after the other. -/
def randomUUID (n : ℕ) : Text :=
  .ofString "00000000-0000-4000-8000-00000000000" ++ Ecma.natText n

def edgeText : Text := .ofString "00000000-0000-0000-0000-000000000014"

/-- The ids that the investigation and its first edge are written with. -/
def ids (s : String) : Option UUID :=
  if s = "00000000-0000-0000-0000-000000000004" then some 4
  else if s = "00000000-0000-0000-0000-000000000014" then some 20
  else none

/-- The form after some events, and what it has sent and heard. -/
def played (events : List FormEvent) : DecisionForm × List Entry :=
  events.foldl (fun r e => ((r.1.apply jsonText randomUUID e).1,
    r.2 ++ (r.1.apply jsonText randomUUID e).2)) (.initial, [])

theorem formRun_played (events : List FormEvent) :
    FormRun jsonText randomUUID (played events).1 (played events).2 := by
  induction events using List.reverseRecOn with
  | nil => exact .initial
  | append_singleton events e ih =>
    rw [played, List.foldl_append]
    exact .event ih e

/-- The body of an attempt that selects the first edge. -/
def content (rationale : Option Text) : Doc :=
  .obj [(.ofString "edge_id", .str edgeText),
    (.ofString "actor", .obj [(.ofString "type", .str (.ofString "human")),
      (.ofString "id", .str (.ofString "analyst"))]),
    (.ofString "rationale", (rationale.map Doc.str).getD .null), (.ofString "evidence", .arr [])]

/-- What the server makes of the first attempt. -/
def resubmission (stepID : UUID) : Attempt :=
  ⟨stepID, 11, 11, 4, ⟨20, ⟨.human, some "analyst"⟩, none, [], some (randomUUID 0).toUnicode⟩⟩

theorem isUUID_randomUUID {n : ℕ} (h : n < 3) : IsUUID (randomUUID n) := by
  have hall : ∀ n < 3, (randomUUID n).length = 36 ∧
      (randomUUID n).all (fun u => u ∈ Text.ofString "0123456789abcdef-") = true := by
    decide +kernel
  obtain ⟨hlength, hdigits⟩ := hall n h
  exact ⟨hlength, fun u hu => of_decide_eq_true (List.all_eq_true.mp hdigits u hu)⟩

theorem distinct_randomUUID : Distinct randomUUID 3 := by
  have hall : ∀ m < 3, ∀ n < 3, randomUUID m = randomUUID n → m = n := by
    decide +kernel
  exact fun m n hm hn => hall m hm n hn

theorem delivers_resubmission (stepID : UUID) : Delivers ids jsonText
    "00000000-0000-0000-0000-000000000004" ⟨content none, randomUUID 0⟩
    (.submit (resubmission stepID)) := by
  have hread : (Http.decodeJSON (Http.submitDecisionRequest ids) "application/json"
      (jsonText (content none))).toOption.map (fun r => r.toDecisionInput none) =
      some ⟨20, ⟨.human, some "analyst"⟩, none, [], none⟩ := by
    decide +kernel
  refine ⟨stepID, 11, 11, ?_⟩
  unfold Http.submitDecision
  rw [idempotencyKeyFrom_uuid (isUUID_randomUUID (by decide))]
  cases hdecoded : Http.decodeJSON (Http.submitDecisionRequest ids) "application/json"
    (jsonText (content none)) with
  | error e =>
    rw [hdecoded] at hread
    cases hread
  | ok request =>
    rw [hdecoded] at hread
    have hinput : request.toDecisionInput (some (randomUUID 0).toUnicode) =
        (resubmission stepID).input :=
      congrArg (fun input => { input with idempotencyKey := some (randomUUID 0).toUnicode })
        (Option.some.inj hread)
    show _ = (Operation.submit ⟨stepID, 11, 11, 4, request.toDecisionInput _⟩).call
    rw [hinput]
    rfl

end Triage

/-- An attempt whose answer was lost, made again. -/
theorem resubmission_recognised_triage : ∃ row, Replayed row
    ((Operation.submit (Triage.resubmission 6)).call.run
      (after [.submit (Triage.resubmission 5)] Triage.started)).1 := by
  obtain ⟨trace, sys, hrun, hstore, -, hwaiting⟩ := run_in_turn Triage.started
    (fun second : Bool => .submit (Triage.resubmission (if second then 6 else 5)))
    (by decide : [false].Nodup)
  have hsteps : sys.store.steps ≠ [] := by
    rw [hstore]
    decide +kernel
  obtain ⟨j, event, before, after, haround, hbefore, hafter⟩ :=
    hrun.becomes (P := fun t : Store => t.steps ≠ []) (by decide +kernel) hsteps
  have hform := Triage.formRun_played
    [.chooseEdge Triage.edgeText none 0, .submit, .failed, .submit]
  have hlog : (Triage.played [.chooseEdge Triage.edgeText none 0, .submit, .failed, .submit]).2 =
      [] ++ .sent ⟨Triage.content none, Triage.randomUUID 0⟩ :: [] ++
        .sent ⟨Triage.content none, Triage.randomUUID 0⟩ :: [] := rfl
  have hwritten : Faithful Triage.jsonText
      (Triage.played [.chooseEdge Triage.edgeText none 0, .submit, .failed, .submit]).2 := by
    intro x y hx hy _
    rw [hlog] at hx hy
    simp only [List.nil_append, List.cons_append, List.mem_cons, Entry.sent.injEq,
      List.not_mem_nil, or_false, or_self] at hx hy
    rw [hx, hy]
  obtain ⟨-, hrecognised⟩ := resubmission_recognised hform
    (Triage.distinct_randomUUID.of_le (by decide))
    (fun n hn => Triage.isUUID_randomUUID (hn.trans (by decide))) hwritten hlog
  obtain ⟨row, -, hreplayed, -⟩ := hrecognised (by simp) Bool Triage.ids
    "00000000-0000-0000-0000-000000000004" _ _ _ _ _ _ j true event Triage.reachable_started hrun
    (Triage.delivers_resubmission _) haround (fun hsame => hbefore (hsame ▸ hafter))
    (Triage.delivers_resubmission _) (hwaiting true (by decide))
  rw [hstore] at hreplayed
  exact ⟨row, hreplayed⟩

/-- The analyst edits the rationale, tries that, and takes the edit back. -/
theorem edited_and_back : ¬ ∀ (stringify : Doc → Text) (randomUUID : ℕ → Text)
    (form : DecisionForm) (log : List Entry) (x y : Sent), FormRun stringify randomUUID form log →
    Distinct randomUUID form.drawn → (∀ n < form.drawn, IsUUID (randomUUID n)) →
    Faithful stringify log → Entry.landed ∉ log → .sent x ∈ log → .sent y ∈ log →
    (x.key = y.key ↔ x.body = y.body) := by
  intro hclaim
  have hform := Triage.formRun_played [.chooseEdge Triage.edgeText none 0, .submit, .failed,
    .setRationale (.ofString "x"), .submit, .failed, .setRationale [], .submit]
  have hlog : (Triage.played [.chooseEdge Triage.edgeText none 0, .submit, .failed,
      .setRationale (.ofString "x"), .submit, .failed, .setRationale [], .submit]).2 =
      [.sent ⟨Triage.content none, Triage.randomUUID 0⟩,
       .sent ⟨Triage.content (some (.ofString "x")), Triage.randomUUID 1⟩,
       .sent ⟨Triage.content none, Triage.randomUUID 2⟩] := rfl
  have hdiffer : Triage.jsonText (Triage.content none) ≠
      Triage.jsonText (Triage.content (some (.ofString "x"))) := by
    decide +kernel
  have hwritten : Faithful Triage.jsonText
      [.sent ⟨Triage.content none, Triage.randomUUID 0⟩,
       .sent ⟨Triage.content (some (.ofString "x")), Triage.randomUUID 1⟩,
       .sent ⟨Triage.content none, Triage.randomUUID 2⟩] := by
    intro x y hx hy hsame
    simp only [List.mem_cons, Entry.sent.injEq, List.not_mem_nil, or_false] at hx hy
    rcases hx with rfl | rfl | rfl <;> rcases hy with rfl | rfl | rfl <;>
      first | rfl | exact absurd hsame hdiffer | exact absurd hsame.symm hdiffer
  rw [hlog] at hform
  have hkeys := hclaim _ _ _ _ ⟨Triage.content none, Triage.randomUUID 0⟩
    ⟨Triage.content none, Triage.randomUUID 2⟩ hform Triage.distinct_randomUUID
    (fun n hn => Triage.isUUID_randomUUID hn) hwritten (by simp) (by simp) (by simp)
  exact absurd (hkeys.mpr rfl) (by decide)

end Interbellum
