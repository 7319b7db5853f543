import Interbellum.Server.Operations

/-!
# Reading a version while it is replaced

`GetVersion` sends three statements, for the row of the version, its nodes and its edges, and
each sees what is committed when it runs. A replacement that commits in between makes it
answer a definition that never was: the root of one graph with the nodes of another. Cloning
takes a share lock against this, and the reads of an investigation a snapshot.

* `torn_read`: a run in which the root is not among the nodes of the answer.
* `whole_read`: unless the nodes or edges are replaced while it reads, the answer is what the
  version was when the read began.
-/

namespace Interbellum

open PlaybookRepository
open Txn (Run Step Event System)

/-- In this state `d` is the definition of version `id`. -/
structure Store.Defines (s : Store) (id : UUID) (d : Definition) : Prop where
  version : d.version ∈ s.versions
  version_id : d.version.id = id
  graph : d.graph = s.graphOf d.version

variable {s : Store} {id : UUID} {d : Definition}

theorem Store.Defines.closed (h : s.Defines id d) (hs : Design s) : d.graph.Closed := by
  rw [h.graph]
  exact hs.closed h.version

/-- `GetVersion` after it has read the row of the version. -/
def readGraph (id : UUID) (v : Version) : Client :=
  .auto (fun _ => ⟨[], []⟩) fun t => .auto (fun _ => ⟨[], []⟩) fun u =>
    .ret (.ok (.definition
      ⟨v, v.rootNodeID, sortNodes (t.nodesOf id), sortEdgeRows (u.edgesOf id)⟩))

/-- The statements of `GetVersion`. -/
theorem getVersion_call (id : UUID) : ∃ row, (∀ s, row s = ⟨[], []⟩) ∧
    (Operation.getVersion id).call = .auto row fun s => match (s.versionRows id).head? with
      | none => .ret (.error (.notFound "playbook version"))
      | some v => readGraph id v := by
  refine ⟨fun s => ⟨(Answer.row (s.versionRows id).head?).locks,
    (Answer.row (s.versionRows id).head?).writes⟩, ?_, ?_⟩
  · intro s
    cases hrow : (s.versionRows id).head? <;> simp only [hrow] <;> rfl
  show Txn.Call.auto _ _ = _
  congr 1
  ext s
  cases hrow : (s.versionRows id).head? with
  | none =>
    simp only [hrow]
    rfl
  | some v =>
    simp only [hrow]
    rfl

/-- A client that reads version `id`, and another one. -/
def readerAnd (id : UUID) (op : Operation) (k : Bool) : Operation :=
  if k then .getVersion id else op

/-- An operation may run to its end between the first and the second statement of a read. -/
theorem interrupted_read {v : Version} (op : Operation) (hrow : (s.versionRows id).head? = some v) :
    ∃ trace sys, Run (clients s (readerAnd id op)) trace sys ∧
      sys.session true = .idle (.ret (.ok (.definition ⟨v, v.rootNodeID,
        sortNodes ((op.call.run s).2.nodesOf id), sortEdgeRows ((op.call.run s).2.edgesOf id)⟩))) := by
  obtain ⟨row, heffect, hcall⟩ := getVersion_call id
  have hsent : (clients s (readerAnd id op)).session true = .idle (Operation.getVersion id).call :=
    rfl
  rw [hcall] at hsent
  have hfirst := Run.reads hsent (heffect _)
  have hstore : (clients s (readerAnd id op)).store = s := rfl
  rw [hstore, hrow] at hfirst
  have halone : ((clients s (readerAnd id op)).set true (.idle (readGraph id v))).Alone false := by
    intro k hk
    rw [Bool.eq_true_of_not_eq_false hk, System.set_self]
    rfl
  have hother : ((clients s (readerAnd id op)).set true (.idle (readGraph id v))).session false =
      .idle op.call := System.set_of_ne _ _ Bool.false_ne_true
  obtain ⟨trace, hop⟩ := Txn.run_alone op.call halone hother
  rw [System.set_store, hstore] at hop
  have hreader : (((clients s (readerAnd id op)).set true (.idle (readGraph id v))).put false
      (.idle (.ret (op.call.run s).1)) (op.call.run s).2).session true = .idle (readGraph id v) :=
    (System.put_of_ne _ _ _ Bool.false_ne_true.symm).trans (System.set_self ..)
  have hnodes := (hfirst.append hop).append (Run.reads hreader rfl)
  exact ⟨_, _, hnodes.append (Run.reads (System.set_self ..) rfl), System.set_self ..⟩

/-- The draft is read while its graph is replaced: the answer has the old root and only the
new node, and the version was never like this. -/
theorem torn_read : ¬ ∀ (s : Store) (ops : Bool → Operation) (trace : List (Bool × Event))
    (sys : Server Bool) (k : Bool) (id : UUID) (d : Definition), Reachable s →
      Run (clients s ops) trace sys → ops k = .getVersion id →
        sys.session k = .idle (.ret (.ok (.definition d))) → ∃ t t' now, trace = t ++ t' ∧
          Run (clients s ops) t now ∧ Run now t' sys ∧ now.store.Defines id d := by
  intro hclaim
  have hrow : (Triage.drafted.versionRows 2).head? = some ⟨2, 1, 1, .draft, some 10, 7, none⟩ := by
    decide +kernel
  have hnodes : ∀ n ∈ sortNodes (((Operation.replaceGraph 2 Triage.replacement).call.run
      Triage.drafted).2.nodesOf 2), n.id ≠ 10 := by
    decide +kernel
  obtain ⟨trace, sys, hrun, hanswer⟩ :=
    interrupted_read (.replaceGraph 2 Triage.replacement) hrow
  obtain ⟨t, t', now, rfl, hbefore, -, hdefines⟩ :=
    hclaim _ _ _ sys true 2 _ Triage.reachable_drafted hrun rfl hanswer
  obtain ⟨calls, htracked⟩ := Triage.reachable_drafted.tracked hbefore
  obtain ⟨n, hn, hid⟩ := (hdefines.closed htracked.inv.toDesign).root 10 rfl
  exact hnodes n hn hid

/-! ## Undisturbed reads -/

section

variable {ι : Type} [DecidableEq ι] {ops : ι → Operation} {trace : List (ι × Event)}
  {sys sys' : Server ι} {k : ι}

/-- Steps that replace the graph of version `id` leave its nodes and edges as they are. -/
def Undisturbed (ops : ι → Operation) (id : UUID) (sys : Server ι) (trace : List (ι × Event))
    (sys' : Server ι) : Prop :=
  ∀ j event before after, Txn.Around j event sys trace sys' before after →
    (ops j).replaces = some id → after.store.nodeRows id = before.store.nodeRows id ∧
      after.store.edgeRows id = before.store.edgeRows id

/-- Other operations than replacements leave the graphs that exist as they are. -/
theorem Undisturbed.rows {calls : ι → Client} (h : Undisturbed ops id sys trace sys')
    (htracked : Tracked s ops sys calls) (hrun : Run sys trace sys')
    (hv : ∃ v ∈ sys.store.versions, v.id = id) :
    sys'.store.nodeRows id = sys.store.nodeRows id ∧
      sys'.store.edgeRows id = sys.store.edgeRows id := by
  induction hrun with
  | nil => exact ⟨rfl, rfl⟩
  | @snoc mid sys'' t j event hrun hstep ih =>
    obtain ⟨hnodes, hedges⟩ := ih fun j event before after haround =>
      h j event before after (haround.snoc hstep)
    obtain ⟨⟨calls', htracked'⟩, hevolves⟩ := htracked.run hrun
    obtain ⟨calls'', -, -, hmoves⟩ := htracked'.step hstep
    suffices hsame : sys''.store.nodeRows id = mid.store.nodeRows id ∧
        sys''.store.edgeRows id = mid.store.edgeRows id from
      ⟨hsame.1.trans hnodes, hsame.2.trans hedges⟩
    by_cases hreplaces : (ops j).replaces = some id
    · exact h j event mid sys'' ⟨t, [], rfl, hrun, hstep, .nil _⟩ hreplaces
    · obtain ⟨v, hv, rfl⟩ := hv
      obtain ⟨v', hv', hid, -⟩ := Evolves.versions hevolves v hv
      rcases hmoves with ⟨hsame, -⟩ | ⟨c, -, -, hsame | hfootprint⟩
      · rw [hsame]
        exact ⟨rfl, rfl⟩
      · rw [hsame]
        exact ⟨rfl, rfl⟩
      · rw [← hid] at hreplaces ⊢
        exact hfootprint.graphs v' hv' hreplaces

/-- A session that reads a version leaves the committed state as it is. -/
theorem read_step {before after : Server ι} {event : Event} (h : Reachable s)
    (hop : ops k = .getVersion id) (hrun : Run (clients s ops) trace before)
    (hstep : Txn.Step k event before after) : after.store = before.store := by
  have hkeeps : (ops k).call.Keeps rules (fun t u => u = t) (fun _ _ => True) s := by
    rw [hop]
    exact keeps_reply (keeps_getVersion (G := fun t u => u = t) h.valid (fun _ => rfl) id)
      fun _ _ _ => trivial
  exact (tracked_clients h.valid ops).silent hkeeps hrun hstep

/-- If no replacement changes the nodes or edges of the version between two of the statements
of a read, its answer is the definition of the version at the first of them. -/
theorem whole_read (h : Reachable s) (hrun : Run (clients s ops) trace sys)
    (hop : ops k = .getVersion id) (hanswer : sys.session k = .idle (.ret (.ok (.definition d))))
    (hclean : ∀ t t₁ t₂ sys₁ sys₂, trace = t ++ (k, Event.auto) :: (t₁ ++ (k, Event.auto) :: t₂) →
      Run (clients s ops) (t ++ [(k, Event.auto)]) sys₁ → Run sys₁ t₁ sys₂ →
        Run sys₂ ((k, Event.auto) :: t₂) sys → Undisturbed ops id sys₁ t₁ sys₂) :
    ∃ before after, Txn.Around k .auto (clients s ops) trace sys before after ∧
      before.store.Defines id d ∧ d.graph.Closed := by
  obtain ⟨row, -, hcall⟩ := getVersion_call id
  have hsent : (clients s ops).session k = .idle (ops k).call := rfl
  rw [hop, hcall] at hsent
  obtain ⟨t₁, t₁', before₁, after₁, rfl, hbefore₁, hat₁, hafter₁, hnext₁⟩ :=
    hrun.sends_of_answer hsent hanswer
  cases hrow : (before₁.store.versionRows id).head? with
  | none =>
    rw [hrow] at hnext₁
    rcases hafter₁.ended (.inr ⟨_, hnext₁⟩) with hsame | hdead
    · rw [hanswer, hnext₁] at hsame
      cases hsame
    · exact nomatch hanswer.symm.trans hdead
  | some v =>
    rw [hrow] at hnext₁
    obtain ⟨hv, hvid⟩ := mem_versionRows.mp (List.mem_of_mem_head? hrow)
    obtain ⟨t₂, t₂', before₂, after₂, rfl, hbefore₂, hat₂, hafter₂, hnext₂⟩ :=
      hafter₁.sends_of_answer hnext₁ hanswer
    obtain ⟨t₃, t₃', before₃, after₃, rfl, hbefore₃, hat₃, hafter₃, hnext₃⟩ :=
      hafter₂.sends_of_answer hnext₂ hanswer
    have hrun₁ := hbefore₁.snoc hat₁
    have hrun₂ := (hrun₁.append hbefore₂).snoc hat₂
    have hstore₁ := read_step h hop hbefore₁ hat₁
    have hstore₂ := read_step h hop (hrun₁.append hbefore₂) hat₂
    obtain ⟨calls, htracked⟩ := h.tracked hbefore₁
    obtain ⟨calls₁, htracked₁⟩ := h.tracked hrun₁
    obtain ⟨calls₂, htracked₂⟩ := h.tracked hrun₂
    have hevolves : Evolves before₁.store after₂.store :=
      (htracked.run (((Run.single hat₁).append hbefore₂).snoc hat₂)).2
    obtain ⟨w, hw, hwid, -⟩ := hevolves.versions v hv
    -- what is there when the nodes are read, and when the edges are
    have hrows₂ := Undisturbed.rows (hclean t₁ t₂ _ _ _ rfl hrun₁ hbefore₂
      ((Run.single hat₂).append hafter₂)) htracked₁ hbefore₂ ⟨v, hstore₁ ▸ hv, hvid⟩
    have hrows₃ := Undisturbed.rows (hclean _ t₃ _ _ _ (by simp) hrun₂ hbefore₃
      ((Run.single hat₃).append hafter₃)) htracked₂ hbefore₃ ⟨w, hw, hwid.trans hvid⟩
    rw [hstore₁] at hrows₂
    rw [hstore₂] at hrows₃
    have hd : d = ⟨v, v.rootNodeID, sortNodes (before₂.store.nodesOf id),
        sortEdgeRows (before₃.store.edgesOf id)⟩ := by
      rcases hafter₃.ended (.inr ⟨_, hnext₃⟩) with hsame | hdead
      · rw [hanswer, hnext₃] at hsame
        cases hsame
        rfl
      · exact nomatch hanswer.symm.trans hdead
    have hdefines : before₁.store.Defines id d := by
      rw [hd]
      refine ⟨hv, hvid, ?_⟩
      rw [Store.graphOf, hvid]
      simp only [Store.nodesOf, Store.edgesOf, hrows₂, hrows₃]
    exact ⟨before₁, after₁, ⟨t₁, _, rfl, hbefore₁, hat₁, hafter₁⟩, hdefines,
      hdefines.closed htracked.inv.toDesign⟩

end

/-- The draft is published between the row and the nodes: the answer is the draft, as a whole. -/
theorem whole_read_triage : ∃ (sys : Server Bool) (d : Definition) (before : Server Bool),
    sys.session true = .idle (.ret (.ok (.definition d))) ∧ d.version.status = .draft ∧
      (∃ v ∈ sys.store.versions, v.id = 2 ∧ v.status = .published) ∧
      before.store.Defines 2 d ∧ d.graph.Closed := by
  let d : Definition := ⟨⟨2, 1, 1, .draft, some 10, 7, none⟩,
    Triage.drafted.graphOf ⟨2, 1, 1, .draft, some 10, 7, none⟩⟩
  obtain ⟨trace, sys, hrun, hanswer, hpublished⟩ : ∃ trace sys,
      Run (clients Triage.drafted (readerAnd 2 (.publish 2 8))) trace sys ∧
      (sys.session true).answer? = some (.ok (.definition d)) ∧
      ∃ v ∈ sys.store.versions, v.id = 2 ∧ v.status = .published :=
    ⟨_, _, Txn.run_follow ([true] ++ List.replicate 12 false ++ [true, true]) _,
      by decide +kernel, by decide +kernel⟩
  have hanswer := Txn.Session.eq_of_answer? hanswer
  obtain ⟨before, -, -, hdefines, hclosed⟩ :=
    whole_read Triage.reachable_drafted hrun rfl hanswer
      fun _ _ _ _ _ _ _ _ _ j _ _ _ _ hreplaces => by cases j <;> cases hreplaces
  exact ⟨sys, d, before, hanswer, rfl, hpublished, hdefines, hclosed⟩

end Interbellum
