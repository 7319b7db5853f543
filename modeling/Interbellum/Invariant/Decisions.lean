import Interbellum.Invariant.Reading

/-!
# One decision

`ApplyDecision` from its lock to its commit. `Accepts` says what an accepted call answers
and writes, and `Rejects` why a call may be rejected; both refer to the one state the
transaction works on, since what it reads after the lock cannot change before it commits.

* `keeps_applyDecisionBody`: the statements keep the discipline, with these outcomes.
-/

namespace Interbellum

open InvestigationRepository
open Txn (applyAll)

/-- A call of `ApplyDecision`, with the id and the times that are drawn for it. -/
structure Attempt where
  stepID : UUID
  now : Time
  txNow : Time
  investigationID : UUID
  input : DecisionInput
  deriving DecidableEq

namespace Attempt

def body (a : Attempt) : Db DecisionResult :=
  applyDecisionBody a.stepID a.now a.txNow a.investigationID a.input

def call (a : Attempt) : Svc DecisionResult :=
  applyDecision a.stepID a.now a.txNow a.investigationID a.input

/-- No step is recorded under the key of the request. -/
def KeyUnused (s : Store) (a : Attempt) : Prop :=
  ∀ key, a.input.idempotencyKey = some key →
    ∀ r ∈ s.stepsOf a.investigationID, r.idempotencyKey ≠ some key

/-- The step recorded under the key of the request. -/
def Recorded (s : Store) (a : Attempt) (r : StepRow) : Prop :=
  ∃ key, a.input.idempotencyKey = some key ∧ r ∈ s.stepsOf a.investigationID ∧
    r.idempotencyKey = some key

/-- The step the call records when it selects `edge` at `i`. -/
def row (a : Attempt) (s : Store) (i : Investigation) (edge : Edge) : StepRow :=
  newStep a.stepID a.txNow i a.input edge ((s.stepsOf i.id).length + 1)

end Attempt

/-- The answer and the writes of an accepted call. -/
inductive Accepts (s : Store) (a : Attempt) : DecisionResult → List Write → Prop
  | replay {i : Investigation} {r : StepRow} {step : Step} (hi : i ∈ s.investigations)
      (hid : i.id = a.investigationID) (hrecorded : a.Recorded s r)
      (hstorable : storableInput a.input = true)
      (hequivalent : equivalent r a.input = true) (hscan : scanStep r = .ok step) :
      Accepts s a ⟨i, step, true⟩ []
  | advance {i next : Investigation} {edge : Edge} {step : Step} (hid : i.id = a.investigationID)
      (hadvances : Advances s i (a.row s i edge) next) (hedge : edge.id = a.input.edgeID)
      (hscan : scanStep (a.row s i edge) = .ok step) :
      Accepts s a ⟨next, step, false⟩ [.insertStep (a.row s i edge),
        .setState next.id next.currentNodeID next.status next.completedAt next.finalResolution]

/-- The reasons for which a call is rejected, with the error of each. -/
inductive Rejects (s : Store) (a : Attempt) : Err → Prop
  | missing (h : ∀ i ∈ s.investigations, i.id ≠ a.investigationID) :
      Rejects s a (.app (.notFound "investigation"))
  | reused {key : String} {r : StepRow} (hkey : a.input.idempotencyKey = some key)
      (hrecorded : a.Recorded s r) (hstorable : storableInput a.input = true)
      (hequivalent : equivalent r a.input = false) :
      Rejects s a (.app (.new .idempotencyKeyReused
        "idempotency key %q was already used on this investigation with a different request"
        [.str key]))
  | completed {i : Investigation} (hi : i ∈ s.investigations) (hid : i.id = a.investigationID)
      (hunused : a.KeyUnused s) (hcompleted : i.status = .completed) :
      Rejects s a (.app (.new .investigationCompleted
        "investigation %s is already completed and cannot be advanced" [.uuid a.investigationID]))
  | unknown {i : Investigation} (hi : i ∈ s.investigations) (hid : i.id = a.investigationID)
      (hunused : a.KeyUnused s) (hactive : i.status = .inProgress)
      (hedge : ∀ e ∈ s.edgesOf i.playbookVersionID, e.id ≠ a.input.edgeID) :
      Rejects s a (.app (.new .invalidTransition
        "edge %s is not part of this investigation's playbook version" [.uuid a.input.edgeID]))
  | elsewhere {i : Investigation} {e : Edge} (hi : i ∈ s.investigations)
      (hid : i.id = a.investigationID) (hunused : a.KeyUnused s) (hactive : i.status = .inProgress)
      (he : e ∈ s.edgesOf i.playbookVersionID) (hedge : e.id = a.input.edgeID)
      (hfrom : e.fromNodeID ≠ i.currentNodeID) :
      Rejects s a (.app (.new .invalidTransition
        "edge %s originates at node %s, but the investigation is at node %s"
        [.uuid e.id, .uuid e.fromNodeID, .uuid i.currentNodeID]))
  | unstorable (h : storableInput a.input = false ∨
      a.KeyUnused s ∧ int4 ((s.stepsOf a.investigationID).length + 1 : Nat) = false) :
      Rejects s a (.app .internal)
  | taken {r : StepRow} (hunused : a.KeyUnused s) (hr : r ∈ s.steps) (hid : r.id = a.stepID) :
      Rejects s a (.app (.new .conflict "conflicting record already exists" []))

variable {s : Store} {a : Attempt}

/-! ## The statements -/

theorem keeps_lockInvestigation :
    (lockInvestigation a.investigationID).run.Keeps rules s (fun i ws ls => ws = [] ∧
      ls = [(.investigation a.investigationID, .update)] ∧ i ∈ s.investigations ∧
        i.id = a.investigationID) (Rejects s a) [] [] := by
  refine keeps_sql ?_ ?_
  · intro e he
    cases hrow : (s.investigationRows a.investigationID).head? with
    | some i => simp [Answer.lockRow, hrow] at he
    | none =>
      obtain rfl : Err.noRows = e := by simpa [Answer.lockRow, Answer.fail, hrow] using he
      refine .missing ?_
      intro i hi hid
      rw [List.head?_eq_none_iff] at hrow
      have hmem : i ∈ s.investigationRows a.investigationID :=
        List.mem_filter.mpr ⟨hi, decide_eq_true hid⟩
      simp [hrow] at hmem
  · intro i hi
    cases hrow : (s.investigationRows a.investigationID).head? with
    | none => simp [Answer.lockRow, Answer.fail, hrow] at hi
    | some j =>
      obtain rfl : j = i := by simpa [Answer.lockRow, hrow] using hi
      constructor
      · intro s' hrely
        have hsame := same_of_rely (.investigation a.investigationID) .update hrely
          (by simp [Answer.lockRow, hrow]) []
        simp only [Txn.applyAll_nil] at hsame ⊢
        rw [← hsame.1]
      · obtain ⟨hmem, hid⟩ := List.mem_filter.mp (List.mem_of_mem_head? hrow)
        exact ⟨by simp [Answer.lockRow, hrow], by simp [Answer.lockRow, hrow], hmem,
          of_decide_eq_true hid⟩

variable {ls : Locks}

/-- What the lookup of the key finds. -/
def Found (s : Store) (a : Attempt) : Option Step → Prop
  | none => a.KeyUnused s
  | some step => storableInput a.input = true ∧ ∃ r, a.Recorded s r ∧
      equivalent r a.input = true ∧ scanStep r = .ok step

theorem keeps_findRecorded (hs : Valid s)
    (hl : (.investigation a.investigationID, .update) ∈ ls) :
    (findRecorded a.investigationID a.input).run.Keeps rules s
      (fun found ws ls' => ws = [] ∧ ls' = ls ∧ Found s a found) (Rejects s a) [] ls := by
  unfold findRecorded
  cases hkey : a.input.idempotencyKey with
  | none =>
    refine .pure ⟨rfl, rfl, ?_⟩
    intro key he
    rw [hkey] at he
    cases he
  | some key =>
    have hrecorded : ∀ {r}, (s.stepsOf a.investigationID).find?
        (fun r => r.idempotencyKey = some key) = some r → a.Recorded s r := by
      intro r hr
      exact ⟨key, hkey, List.mem_of_find?_eq_some hr, by simpa using List.find?_some hr⟩
    refine keeps_checked ?_ ?_ ?_
    · intro v hv htrue
      rw [List.mem_singleton.mp hv] at htrue ⊢
      exact .unstorable (.inl (by simpa using htrue))
    · intro e hchecks he
      rw [Txn.applyAll_nil] at he
      have hstorable : storableInput a.input = true := by simpa using hchecks
      cases hfind : (s.stepsOf a.investigationID).find?
          (fun r => r.idempotencyKey = some key) with
      | none => simp [hfind, Answer.read] at he
      | some r =>
        obtain ⟨key', -, hr, -⟩ := hrecorded hfind
        obtain ⟨step, hscan⟩ := (hs.readable hr).scan
        cases hequivalent : equivalent r a.input with
        | true => simp [hfind, hequivalent, hscan, Except.map] at he
        | false =>
          obtain rfl : _ = e := by simpa [hfind, hequivalent, Answer.fail] using he
          exact .reused hkey (hrecorded hfind) hstorable hequivalent
    · intro found hchecks hfound
      rw [Txn.applyAll_nil] at hfound ⊢
      constructor
      · intro s' hrely
        have hsame := same_of_rely (.investigation a.investigationID) .update hrely
          (List.mem_append_left _ hl) []
        simp only [Txn.applyAll_nil] at hsame ⊢
        rw [← hsame.2]
        exact ⟨trivial, rfl⟩
      · cases hfind : (s.stepsOf a.investigationID).find?
            (fun r => r.idempotencyKey = some key) with
        | none =>
          obtain rfl : none = found := by simpa [hfind, Answer.read] using hfound
          refine ⟨by simp [Answer.read], by simp [Answer.read], ?_⟩
          intro key' hkey' r hr
          obtain rfl : key = key' := Option.some.inj (hkey.symm.trans hkey')
          simpa using List.find?_eq_none.mp hfind r hr
        | some r =>
          cases hequivalent : equivalent r a.input with
          | false => simp [hfind, hequivalent, Answer.fail] at hfound
          | true =>
            obtain ⟨key', -, hr, -⟩ := hrecorded hfind
            obtain ⟨step, hscan⟩ := (hs.readable hr).scan
            obtain rfl : some step = found := by
              simpa [hfind, hequivalent, hscan, Except.map] using hfound
            exact ⟨by simp [hequivalent], by simp [hequivalent], by simpa using hchecks, r,
              hrecorded hfind, hequivalent, hscan⟩

/-- The graph of a published version cannot change under the transaction. -/
theorem Bound.steady {i : Investigation} {v : Version} (h : Bound s i v) {s' : Store} {ls : Locks}
    (hrely : rules.Rely ls s s') : s'.nodesOf i.playbookVersionID = s.nodesOf i.playbookVersionID ∧
      s'.edgesOf i.playbookVersionID = s.edgesOf i.playbookVersionID := by
  rw [← h.2.1]
  exact h.rows hrely.evolves

theorem keeps_loadEdge (hs : Valid s) {i : Investigation} {v : Version} (hbound : Bound s i v)
    (hi : i ∈ s.investigations) (hid : i.id = a.investigationID) (hunused : a.KeyUnused s)
    (hactive : i.status = .inProgress) :
    (loadEdgeWithDestination i.playbookVersionID a.input.edgeID).run.Keeps rules s
      (fun r ws ls' => ws = [] ∧ ls' = ls ∧ r.1 ∈ s.edgesOf i.playbookVersionID ∧
        r.1.id = a.input.edgeID ∧ r.2 ∈ s.nodesOf i.playbookVersionID ∧ r.2.id = r.1.toNodeID)
      (Rejects s a) [] ls := by
  refine keeps_sql ?_ ?_
  · intro e he
    rw [Txn.applyAll_nil] at he
    cases hedge : (s.edgesOf i.playbookVersionID).find? (fun e => e.id = a.input.edgeID) with
    | none =>
      obtain rfl : Err.noRows = e := by simpa [hedge, Answer.fail] using he
      exact .unknown hi hid hunused hactive (by simpa using hedge)
    | some edge =>
      -- both ends of an edge are nodes of its version
      obtain ⟨r, hr, hrv, rfl⟩ := mem_edgesOf.mp (List.mem_of_find?_eq_some hedge)
      obtain ⟨-, n, hn, hnid⟩ := hs.edge_nodes r hr
      rw [hrv] at hn
      cases hnode : (s.nodesOf i.playbookVersionID).find? (fun n => n.id = r.edge.toNodeID) with
      | none =>
        have hnone := List.find?_eq_none.mp hnode n hn
        simp [hnid] at hnone
      | some n' => simp [hedge, hnode, Answer.row, Answer.read] at he
  · intro found hfound
    rw [Txn.applyAll_nil] at hfound ⊢
    constructor
    · intro s' hrely
      rw [Txn.applyAll_nil, (hbound.steady hrely).1, (hbound.steady hrely).2]
    · cases hedge : (s.edgesOf i.playbookVersionID).find? (fun e => e.id = a.input.edgeID) with
      | none => simp [hedge, Answer.fail] at hfound
      | some edge =>
        cases hnode : (s.nodesOf i.playbookVersionID).find? (fun n => n.id = edge.toNodeID) with
        | none => simp [hedge, hnode, Answer.row, Answer.fail] at hfound
        | some n =>
          obtain rfl : (edge, n) = found := by
            simpa [hedge, hnode, Answer.row, Answer.read] using hfound
          refine ⟨by simp [hnode, Answer.row, Answer.read],
            by simp [hnode, Answer.row, Answer.read], List.mem_of_find?_eq_some hedge, ?_,
            List.mem_of_find?_eq_some hnode, ?_⟩
          · simpa using List.find?_some hedge
          · simpa using List.find?_some hnode

/-- The transition rule at an investigation that is in progress. -/
theorem decide_of_active {i : Investigation} {e : Edge} {n : Node} (now : Time)
    (hactive : i.status = .inProgress) (hat : i.completedAt = none)
    (hresolution : i.finalResolution = none) (hto : e.toNodeID = n.id) :
    e.fromNodeID ≠ i.currentNodeID ∧ i.decide e n now = .error (.new .invalidTransition
        "edge %s originates at node %s, but the investigation is at node %s"
        [.uuid e.id, .uuid e.fromNodeID, .uuid i.currentNodeID]) ∨
      e.fromNodeID = i.currentNodeID ∧ ∃ next, i.decide e n now = .ok next ∧
        next = i.withState n.id next.status next.completedAt next.finalResolution ∧
        next.currentNodeID = n.id ∧ Outcome n next := by
  have hcompleted : i.isCompleted = false := by simp [Investigation.isCompleted, hactive]
  by_cases hfrom : e.fromNodeID = i.currentNodeID
  · refine .inr ⟨hfrom, ?_⟩
    by_cases hk : n.kind = .terminal
    · refine ⟨i.withState n.id .completed (some now) n.terminalResolution, ?_, rfl, rfl,
        .inl ⟨hk, rfl, rfl, rfl⟩⟩
      simp [Investigation.decide, hcompleted, hfrom, hto, hk, Investigation.withState]
    · refine ⟨{ i with currentNodeID := n.id }, ?_, rfl, rfl, .inr ⟨hk, hactive, hat, hresolution⟩⟩
      simp [Investigation.decide, hcompleted, hfrom, hto, hk]
  · exact .inl ⟨hfrom, by simp [Investigation.decide, hcompleted, hfrom]⟩

/-- The next step of an investigation gets the number after the last one given. -/
theorem Consistent.next_number {i : Investigation} (h : Consistent s i) :
    ((s.stepsOf i.id).map StepRow.sequenceNumber).foldl max 0 + 1 =
      (s.stepsOf i.id).length + 1 := by
  have hlength : ((s.stepsOf i.id).map StepRow.sequenceNumber).length =
      (s.stepsOf i.id).length := List.length_map _
  rw [foldl_max_of_numbered (h.numbers.trans (by rw [hlength])), hlength]

theorem Consistent.number_free {i : Investigation} (h : Consistent s i) :
    (s.stepsOf i.id).any (fun r => r.sequenceNumber = (s.stepsOf i.id).length + 1) = false := by
  rw [List.any_eq_false]
  intro r hr he
  have hmem : r.sequenceNumber ∈ (s.stepsOf i.id).map StepRow.sequenceNumber :=
    List.mem_map_of_mem hr
  rw [h.numbers, List.mem_range'_1] at hmem
  have he := of_decide_eq_true he
  omega

theorem Attempt.KeyUnused.key_free {i : Investigation} (h : a.KeyUnused s)
    (hid : i.id = a.investigationID) : (a.input.idempotencyKey.any fun key =>
      (s.stepsOf i.id).any fun r => r.idempotencyKey = some key) = false := by
  cases hk : a.input.idempotencyKey with
  | none => rfl
  | some key =>
    have hnone := h key hk
    rw [← hid] at hnone
    simpa using hnone

theorem Bound.version_found {i : Investigation} {v : Version} (h : Bound s i v) :
    (s.versionRows i.playbookVersionID).isEmpty = false := by
  rw [List.isEmpty_eq_false_iff_exists_mem]
  exact ⟨v, mem_versionRows.mpr ⟨h.1, h.2.1⟩⟩

theorem keeps_insertStep (hs : Valid s) {i : Investigation} {v : Version} (hbound : Bound s i v)
    (hi : i ∈ s.investigations) (hid : i.id = a.investigationID) (hunused : a.KeyUnused s)
    {edge : Edge} (hedge : edge ∈ s.edgesOf i.playbookVersionID)
    (hl : (.investigation i.id, .update) ∈ ls) :
    (insertStep a.stepID a.txNow i a.input edge).run.Keeps rules s
      (fun step ws ls' => ws = [.insertStep (a.row s i edge)] ∧ (∀ l ∈ ls, l ∈ ls') ∧
        (.step a.stepID, .update) ∈ ls' ∧ (∀ r ∈ s.steps, r.id ≠ a.stepID) ∧
        scanStep (a.row s i edge) = .ok step) (Rejects s a) [] ls := by
  have hnumber := (hs.consistent i hi).next_number
  have hreadable : (a.row s i edge).Readable := ⟨a.input.evidence, rfl⟩
  obtain ⟨step, hscan⟩ := hreadable.scan
  -- what the constraints ask of the row holds already
  have hsequence := (hs.consistent i hi).number_free
  have hkey := hunused.key_free hid
  have hversion := hbound.version_found
  have hrow : (s.investigationRows i.id).any
      (fun j => j.playbookVersionID = i.playbookVersionID) = true :=
    List.any_eq_true.mpr ⟨i, List.mem_filter.mpr ⟨hi, by simp⟩, by simp⟩
  have hnode : (s.nodesOf i.playbookVersionID).any (fun n => n.id = i.currentNodeID) = true := by
    obtain ⟨n, hn, hnid, -⟩ := (hs.consistent i hi).stands hs.toDesign
    exact List.any_eq_true.mpr ⟨n, hn, decide_eq_true hnid⟩
  have hedge' : (s.edgesOf i.playbookVersionID).any (fun e => e.id = edge.id) = true :=
    List.any_eq_true.mpr ⟨edge, hedge, by simp⟩
  refine keeps_checked ?_ ?_ ?_
  · simp only [Txn.applyAll_nil, List.forall_mem_cons, hnumber, hsequence, hkey, hversion, hrow,
      hnode, hedge']
    refine ⟨?_, ?_, by simp⟩
    · intro h
      rw [Bool.or_eq_true, Bool.not_eq_true', Bool.not_eq_true', hid] at h
      exact .unstorable (h.imp_right fun hnumber => ⟨hunused, hnumber⟩)
    · intro h
      obtain ⟨r, hr, hrid⟩ := List.any_eq_true.mp h
      exact .taken hunused hr (of_decide_eq_true hrid)
  · intro e _ he
    simp only [Txn.applyAll_nil, hnumber] at he
    exact absurd (hscan.symm.trans he) (by simp)
  · intro b hchecks hb
    simp only [Txn.applyAll_nil, hnumber, List.forall_mem_cons] at hchecks hb ⊢
    obtain ⟨-, hfresh, -⟩ := hchecks
    constructor
    · intro s' hrely
      have hinv := same_of_rely (.investigation i.id) .update hrely (List.mem_append_left _ hl) []
      have hstep := same_of_rely (.step a.stepID) .update hrely (by simp) []
      obtain ⟨hnodes, hedges⟩ := hbound.steady hrely
      have hversion' := (hbound.evolves hrely.evolves).version_found
      simp only [Txn.applyAll_nil] at hinv hstep
      simp only [any_of_filter_eq hstep, ← hinv.2, ← hinv.1, hversion, hversion', hnodes, hedges,
        hnumber, and_self]
    · refine ⟨rfl, ?_, ?_, ?_, hb⟩
      · exact fun l hl => List.mem_append_left _ hl
      · simp
      · simpa using hfresh

/-- The columns of the outcome go together. -/
theorem Outcome.checks {i : Investigation} {n : Node} {id : UUID} (h : Outcome n i) (hs : Design s)
    (hn : n ∈ s.nodesOf id) : storableOption i.finalResolution = true ∧
      completionCheck i.status i.completedAt i.finalResolution = true := by
  obtain ⟨r, hr, -, rfl⟩ := mem_nodesOf.mp hn
  rcases h with ⟨hk, hstatus, hat, hresolution⟩ | ⟨-, hstatus, hat, hresolution⟩
  · rcases hs.node_check r hr with ⟨-, hsome⟩ | ⟨hdecision, -⟩
    · rw [hresolution, hstatus]
      exact ⟨hs.node_text r hr, by simp [completionCheck, hat, hsome]⟩
    · rw [hk] at hdecision
      cases hdecision
  · rw [hresolution, hstatus, hat]
    exact ⟨rfl, rfl⟩

/-- The state of the investigation is written after the step. -/
theorem keeps_updateState (hs : Valid s) {i next : Investigation} {v : Version}
    (hbound : Bound s i v) (hi : i ∈ s.investigations) {row : StepRow} {n : Node}
    (hnext : next = i.withState n.id next.status next.completedAt next.finalResolution)
    (hn : n ∈ s.nodesOf i.playbookVersionID) (houtcome : Outcome n next)
    (hl : (.investigation i.id, .update) ∈ ls) :
    (updateInvestigationState next).run.Keeps rules s
      (fun updated ws ls' => updated = next ∧ ws = [.insertStep row, .setState next.id
        next.currentNodeID next.status next.completedAt next.finalResolution] ∧ ∀ l ∈ ls, l ∈ ls')
      (Rejects s a) [.insertStep row] ls := by
  have hnextid : next.id = i.id := by
    rw [hnext]
    rfl
  have hcurrent : next.currentNodeID = n.id := by
    rw [hnext]
    rfl
  have hrow : (s.investigationRows i.id).head? = some i := by
    rw [Store.investigationRows, List.head?_filter]
    exact find?_of_mem hs.investigation_ids hi
  have hchecks := houtcome.checks hs.toDesign hn
  -- every check passes, on any state the transaction may find itself on
  have hanswer : ∀ t : Store, (t.investigationRows i.id).head? = some i →
      t.nodesOf i.playbookVersionID = s.nodesOf i.playbookVersionID →
      updatedState next t =
      ⟨.ok next, [(.investigation next.id, .noKeyUpdate), (.node next.currentNodeID, .keyShare)],
        [.setState next.id next.currentNodeID next.status next.completedAt
          next.finalResolution]⟩ := by
    intro t ht hnodes
    have hnode : (s.nodesOf i.playbookVersionID).any
        (fun n => n.id = next.currentNodeID) = true :=
      List.any_eq_true.mpr ⟨n, hn, decide_eq_true hcurrent.symm⟩
    rw [updatedState, hnextid, ht]
    refine (Answer.guarded_of_valid _ ?_).trans ?_
    · simp [hchecks, hnodes, hnode]
    · rw [hcurrent, ← hnext]
  have hafter : ((applyAll [Write.insertStep row] s).investigationRows i.id).head? = some i := hrow
  refine keeps_sql ?_ ?_
  · intro e he
    rw [hanswer _ hafter rfl] at he
    cases he
  · intro updated hupdated
    rw [hanswer _ hafter rfl] at hupdated ⊢
    constructor
    · intro s' hrely
      have hsame := same_of_rely (.investigation i.id) .update hrely
        (List.mem_append_left _ hl) []
      refine hanswer (applyAll [Write.insertStep row] s') ?_ (hbound.steady hrely).1
      rw [← hrow]
      exact congrArg List.head? hsame.1.symm
    · exact ⟨(Except.ok.inj hupdated).symm, rfl, fun l hl => List.mem_append_left _ hl⟩

/-! ## The transaction -/

/-- What holds at the commit of an accepted call. -/
structure Ends (s : Store) (a : Attempt) (d : DecisionResult) (ws : List Write) (ls : Locks) :
    Prop where
  accepts : Accepts s a d ws
  covered : ∀ w ∈ ws, Covered ls w

theorem keeps_advance (hs : Valid s) {i : Investigation} (hi : i ∈ s.investigations)
    (hid : i.id = a.investigationID) (hunused : a.KeyUnused s) (hactive : i.status = .inProgress)
    (hl : (.investigation a.investigationID, .update) ∈ ls) :
    (advance a.stepID a.now a.txNow i a.input).run.Keeps rules s (Ends s a) (Rejects s a)
      [] ls := by
  have hconsistent := hs.consistent i hi
  obtain ⟨v, root, hbound, -, -⟩ := hconsistent.walk
  obtain ⟨m, -, -, hstands⟩ := hconsistent.stands hs.toDesign
  obtain ⟨hat, hresolution⟩ : i.completedAt = none ∧ i.finalResolution = none := by
    rcases hstands with ⟨-, hstatus, -⟩ | ⟨-, -, hat, hresolution⟩
    · rw [hactive] at hstatus
      cases hstatus
    · exact ⟨hat, hresolution⟩
  rw [← hid] at hl
  refine .bind ((keeps_loadEdge hs hbound hi hid hunused hactive).mono ?_ fun _ h => h)
  rintro ⟨edge, n⟩ _ _ ⟨rfl, rfl, hedge, hedgeid, hn, hnid⟩
  rcases decide_of_active a.now hactive hat hresolution hnid.symm with
    ⟨hfrom, hdecide⟩ | ⟨hfrom, next, hdecide, hnext, hcurrent, houtcome⟩
  · simp only [hdecide]
    exact .throw (.elsewhere hi hid hunused hactive hedge hedgeid hfrom)
  · simp only [hdecide]
    refine .bind ((keeps_insertStep hs hbound hi hid hunused hedge hl).mono ?_ fun _ h => h)
    rintro step _ ls' ⟨rfl, hsub, hlstep, hfresh, hscan⟩
    refine .bind ((keeps_updateState hs hbound hi hnext hn houtcome (hsub _ hl)).mono ?_
      fun _ h => h)
    rintro updated _ ls'' ⟨rfl, rfl, hsub'⟩
    refine .pure ⟨.advance hid ?_ hedgeid hscan, ?_⟩
    · exact {
        stands := hi
        active := hactive
        fresh := hfresh
        owner := rfl
        version := rfl
        number := rfl
        node := rfl
        edge := ⟨edge, hedge, rfl, hfrom, hnid.symm.trans hcurrent.symm⟩
        destination := ⟨n, hn, hcurrent.symm, houtcome⟩
        key := by
          intro key hkey
          rw [hid]
          exact hunused key hkey
        evidence := ⟨a.input.evidence, rfl⟩
        kept := by
          rw [hcurrent]
          exact hnext }
    · intro w hw
      rcases List.mem_cons.mp hw with rfl | hw
      · intro key hkey
        simp only [Write.keys, List.mem_cons, List.not_mem_nil, or_false] at hkey
        rcases hkey with rfl | rfl
        · exact hsub' _ hlstep
        · exact hsub' _ (hsub _ hl)
      · rw [List.mem_singleton.mp hw]
        intro key hkey
        rw [List.mem_singleton.mp hkey, hnext]
        exact hsub' _ (hsub _ hl)

/-- `ApplyDecision` keeps the discipline, and ends as `Accepts` and `Rejects` say. -/
theorem keeps_applyDecisionBody (hs : Valid s) :
    a.body.run.Keeps rules s (Ends s a) (Rejects s a) [] [] := by
  refine .bind (keeps_lockInvestigation.mono ?_ fun _ h => h)
  rintro i _ _ ⟨rfl, rfl, hi, hid⟩
  have hl : (.investigation a.investigationID, .update) ∈
      [(LockKey.investigation a.investigationID, Txn.LockMode.update)] := List.mem_singleton_self _
  refine .bind ((keeps_findRecorded hs hl).mono ?_ fun _ h => h)
  rintro found _ _ ⟨rfl, rfl, hfound⟩
  cases found with
  | some step =>
    obtain ⟨hstorable, r, hrecorded, hequivalent, hscan⟩ := hfound
    exact .pure ⟨.replay hi hid hrecorded hstorable hequivalent hscan, by simp⟩
  | none =>
    cases hstatus : i.status with
    | completed =>
      simp only [Investigation.isCompleted, hstatus, decide_true, if_true]
      exact .throw (.completed hi hid hfound hstatus)
    | inProgress =>
      have hcompleted : i.isCompleted = false := by simp [Investigation.isCompleted, hstatus]
      simp only [hcompleted, Bool.false_eq_true, if_false]
      exact keeps_advance hs hi hid hfound hstatus hl

/-- What an accepted call commits keeps the discipline. -/
theorem Ends.commits {d : DecisionResult} {ws : List Write} {ls : Locks}
    {G : Store → Store → Prop} (h : Ends s a d ws ls) (hs : Valid s)
    (hG : G s (applyAll ws s)) : rules.Commits G s ws ls := by
  have hothers : ∀ ls', Txn.Compatible ls ls' → ∀ l ∈ ls', Same l.1 s (applyAll ws s) :=
    fun _ hcompatible _ hl => same_of_compatible h.covered hcompatible hl s
  cases h.accepts with
  | replay => exact ⟨hs, Evolves.refl s, hG, hothers⟩
  | advance _ hadvances =>
    exact ⟨hadvances.valid hs, hadvances.evolves hs, hG, hothers⟩

/-- The rule for a decision call: it takes effect in one state, as `Accepts` or `Rejects`
say. -/
theorem keeps_attempt {G : Store → Store → Prop} {Q : Except AppError DecisionResult → Store → Prop}
    (hG : ∀ t d ws, Valid t → Evolves s t → Accepts t a d ws → G t (applyAll ws t))
    (hok : ∀ t d ws, Valid t → Evolves s t → Accepts t a d ws →
      ∀ u, Valid u → Evolves (applyAll ws t) u → Q (.ok d) u)
    (herror : ∀ t e, Valid t → Evolves s t → Rejects t a e →
      ∀ u, Valid u → Evolves t u → Q (.error (translate e)) u) :
    a.call.run.Keeps rules G Q s := by
  refine keeps_inTx ?_
  intro t ht het
  refine (keeps_applyDecisionBody ht).mono ?_ ?_
  · intro d ws ls hends
    exact ⟨hends.commits ht (hG t d ws ht het hends.accepts), hok t d ws ht het hends.accepts⟩
  · exact fun e he => herror t e ht het he

/-! ## Running alone -/

theorem Attempt.run_call (a : Attempt) (s : Store) :
    a.call.run.run s = match a.body.run.run s [] with
      | (.ok d, ws) => (.ok d, applyAll ws s)
      | (.error e, _) => (.error (translate e), s) := by
  refine (run_inTx a.body s).trans ?_
  rcases a.body.run.run s [] with ⟨e | d, ws⟩ <;> rfl

/-- What a decision call does when it runs alone. -/
theorem Attempt.run_cases (hs : Valid s) (a : Attempt) :
    (∃ d ws, Accepts s a d ws ∧ a.call.run.run s = (.ok d, applyAll ws s)) ∨
      ∃ e, Rejects s a e ∧ a.call.run.run s = (.error (translate e), s) := by
  have hbody := (keeps_applyDecisionBody (a := a) hs).run
  rw [a.run_call]
  cases hr : a.body.run.run s [] with
  | mk r ws =>
    rw [hr] at hbody
    cases r with
    | error e => exact .inr ⟨e, hbody, rfl⟩
    | ok d =>
      obtain ⟨ls, hends⟩ := hbody
      exact .inl ⟨d, ws, hends.accepts, rfl⟩

end Interbellum
