import Interbellum.Engine.Desk
import Interbellum.Guarantees.Walks
import Interbellum.Server.Writes

/-!
# The tables as a desk

What the tables say of alerts, published versions and investigations. Drafts are not on the
desk, nor is anything that follows from where an investigation stands.

* `Valid.coherent`: the desk of a valid state is coherent.
* `Valid.ended`: an investigation is completed where its procedure ends, as it ends there.
-/

namespace Interbellum

abbrev Procedure := Engine.Procedure String UUID UUID String

abbrev Desk := Engine.Desk UUID String UUID UUID UUID UUID String

abbrev Action := Engine.Action UUID String UUID UUID UUID UUID String

namespace Store

variable (s : Store)

def procedure (v : Version) : Procedure where
  root := v.rootNodeID.getD UUID.nil
  handles := ((s.playbooks.find? fun p => p.id = v.playbookID).map Playbook.alertType).getD ""
  Leads := Joins (s.edgesOf v.id)
  resolution a := ((s.nodesOf v.id).find? fun n => n.id = a).bind Node.terminalResolution

def case (i : Investigation) : Engine.Case UUID UUID UUID UUID :=
  ⟨i.alertID, i.playbookVersionID, (s.stepsOf i.id).map StepRow.taken, i.currentNodeID⟩

def publishedVersions : List Version := s.versions.filter fun v => v.status = .published

def desk : Desk where
  subjects id := (s.alerts.find? fun a => a.id = id).map Alert.alertType
  procedures id := (s.publishedVersions.find? fun v => v.id = id).map s.procedure
  cases id := (s.investigations.find? fun i => i.id = id).map s.case

end Store

variable {s s' : Store} {v : Version} {i : Investigation}

/-! ## Looking things up -/

theorem find?_map_eq_some {α β γ : Type*} [DecidableEq β] {f : α → β} {g : α → γ} {l : List α}
    (hnodup : (l.map f).Nodup) {b : β} {c : γ} :
    (l.find? fun a => f a = b).map g = some c ↔ ∃ a ∈ l, f a = b ∧ g a = c := by
  rw [Option.map_eq_some_iff]
  constructor
  · rintro ⟨a, ha, rfl⟩
    exact ⟨a, List.mem_of_find?_eq_some ha, by simpa using List.find?_some ha, rfl⟩
  · rintro ⟨a, ha, rfl, rfl⟩
    cases hfind : l.find? (fun x => f x = f a) with
    | none => simpa using List.find?_eq_none.mp hfind a ha
    | some x =>
      have hx : f x = f a := by simpa using List.find?_some hfind
      exact ⟨x, rfl, congrArg g
        (List.inj_on_of_nodup_map hnodup (List.mem_of_find?_eq_some hfind) ha hx)⟩

theorem find?_map_eq_none {α β γ : Type*} [DecidableEq β] {f : α → β} {g : α → γ} {l : List α}
    {b : β} : (l.find? fun a => f a = b).map g = none ↔ ∀ a ∈ l, f a ≠ b := by
  simp

@[simp] theorem mem_publishedVersions :
    v ∈ s.publishedVersions ↔ v ∈ s.versions ∧ v.status = .published := by
  simp [Store.publishedVersions]

theorem Design.published_ids (hs : Design s) : (s.publishedVersions.map Version.id).Nodup :=
  hs.version_ids.sublist (List.filter_sublist.map _)

theorem Valid.subject_iff (hs : Valid s) {id : UUID} {t : String} :
    s.desk.subjects id = some t ↔ ∃ a ∈ s.alerts, a.id = id ∧ a.alertType = t :=
  find?_map_eq_some hs.alert_ids

theorem Design.procedure_iff (hs : Design s) {id : UUID} {p : Procedure} :
    s.desk.procedures id = some p ↔
      ∃ v ∈ s.versions, v.status = .published ∧ v.id = id ∧ s.procedure v = p := by
  refine (find?_map_eq_some hs.published_ids).trans ?_
  simp only [mem_publishedVersions, and_assoc]

theorem Valid.case_iff (hs : Valid s) {id : UUID} {c : Engine.Case UUID UUID UUID UUID} :
    s.desk.cases id = some c ↔ ∃ i ∈ s.investigations, i.id = id ∧ s.case i = c :=
  find?_map_eq_some hs.investigation_ids

theorem Valid.case_of_mem (hs : Valid s) (hi : i ∈ s.investigations) :
    s.desk.cases i.id = some (s.case i) := hs.case_iff.mpr ⟨i, hi, rfl, rfl⟩

theorem procedure_handles (hs : Design s) {p : Playbook} (hp : p ∈ s.playbooks)
    (hid : p.id = v.playbookID) : (s.procedure v).handles = p.alertType := by
  have hfind : (s.playbooks.find? fun q => q.id = v.playbookID).map Playbook.alertType =
      some p.alertType := (find?_map_eq_some hs.playbook_ids).mpr ⟨p, hp, hid, rfl⟩
  rw [Store.procedure, hfind]
  rfl

theorem procedure_root {root : UUID} (hroot : v.rootNodeID = some root) :
    (s.procedure v).root = root := by
  simp [Store.procedure, hroot]

theorem resolution_of_mem (hs : Design s) {n : Node} (hn : n ∈ s.nodesOf v.id) :
    (s.procedure v).resolution n.id = n.terminalResolution := by
  show ((s.nodesOf v.id).find? fun m => m.id = n.id).bind _ = _
  rw [find?_of_mem (hs.nodesOf_nodup v.id) hn]
  rfl

/-! ## Published versions -/

/-- The nodes that can be reached are nodes of the version. -/
theorem Design.reached (hs : Design s) (hv : v ∈ s.versions) (hp : v.status = .published)
    {steps : List (UUID × UUID)} {a : UUID}
    (h : Walk (s.edgesOf v.id) (s.procedure v).root steps a) : ∃ n ∈ s.nodesOf v.id, n.id = a := by
  rcases h.end_cases with rfl | ⟨e, x, hjoins⟩
  · obtain ⟨root, hroot, -⟩ := (hs.publishable hv hp).root
    rw [procedure_root hroot]
    exact hs.root_node v hv root hroot
  · exact List.mem_map.mp (hjoins.nodes hs).2

/-- A node offers choices exactly when it is not terminal. -/
theorem Design.ends_iff (hs : Design s) (hv : v ∈ s.versions) (hp : v.status = .published)
    {n : Node} (hn : n ∈ s.nodesOf v.id) :
    n.terminalResolution.isSome ↔ ∀ e b, ¬ Joins (s.edgesOf v.id) e n.id b := by
  have hpublishable := hs.publishable hv hp
  have hmem : n ∈ (s.graphOf v).nodes := mem_graphOf_nodes.mpr hn
  obtain ⟨r, hr, -, rfl⟩ := mem_nodesOf.mp hn
  rcases hs.node_check r hr with ⟨hk, hsome⟩ | ⟨hk, hnone⟩
  · refine iff_of_true hsome ?_
    rintro id b ⟨e, he, -, hfrom, -⟩
    exact (hpublishable.terminal _ hmem hk).1 e (mem_graphOf_edges.mpr he) hfrom
  · refine iff_of_false (by simp [hnone]) ?_
    obtain ⟨⟨e, he, hfrom⟩, -⟩ := hpublishable.decision _ hmem hk
    exact fun h => h e.id e.toNodeID ⟨e, mem_graphOf_edges.mp he, rfl, hfrom, rfl⟩

theorem Design.sound (hs : Design s) (hv : v ∈ s.versions) (hp : v.status = .published) :
    (s.procedure v).Sound where
  names _ _ _ _ _ h h' := hs.joins_unique h h'
  ends := by
    intro steps a h
    obtain ⟨n, hn, rfl⟩ := hs.reached hv hp h
    rw [resolution_of_mem hs hn]
    exact hs.ends_iff hv hp hn
  bounded := by
    refine ⟨(s.nodesOf v.id).length, ?_⟩
    intro steps a h
    have hsubset : Digraph.visited steps a ⊆ (s.nodesOf v.id).map Node.id := by
      intro id hid
      rcases List.mem_append.mp hid with hid | hid
      · obtain ⟨x, hx, rfl⟩ := List.mem_map.mp hid
        obtain ⟨c, hjoins⟩ := h.leaves x hx
        exact (hjoins.nodes hs).1
      · rw [List.mem_singleton.mp hid]
        exact List.mem_map.mpr (hs.reached hv hp h)
    have hle := (List.subperm_of_subset (h.nodup (hs.acyclic hv hp)) hsubset).length_le
    simp only [Digraph.visited, List.length_append, List.length_map, List.length_singleton] at hle
    omega

/-! ## Investigations -/

theorem Bound.desk (h : Bound s i v) (hs : Valid s) :
    s.desk.procedures i.playbookVersionID = some (s.procedure v) ∧
      s.desk.subjects i.alertID = some (s.procedure v).handles := by
  obtain ⟨hv, hid, hp, p, hpm, hpid, a, ha, haid, htype⟩ := h
  rw [procedure_handles hs.toDesign hpm hpid]
  exact ⟨hs.procedure_iff.mpr ⟨v, hv, hp, hid, rfl⟩, hs.subject_iff.mpr ⟨a, ha, haid, htype.symm⟩⟩

theorem Valid.coherent (hs : Valid s) : s.desk.Coherent where
  procedures := by
    intro k p hk
    obtain ⟨v, hv, hp, -, rfl⟩ := hs.procedure_iff.mp hk
    exact hs.sound hv hp
  cases := by
    intro id c hc
    obtain ⟨i, hi, rfl, rfl⟩ := hs.case_iff.mp hc
    obtain ⟨v, root, hbound, hroot, hwalk⟩ := (hs.consistent i hi).walk
    obtain ⟨hprocedure, hsubject⟩ := hbound.desk hs
    refine ⟨s.procedure v, hprocedure, hsubject, ?_⟩
    rw [procedure_root hroot]
    exact hwalk

/-- An investigation has ended as its procedure ends where it stands. -/
theorem Valid.ended (hs : Valid s) (hi : i ∈ s.investigations) : ∃ p : Procedure,
    s.desk.procedures i.playbookVersionID = some p ∧
      i.finalResolution = p.resolution i.currentNodeID ∧
        (i.status = .completed ↔ (p.resolution i.currentNodeID).isSome) := by
  have hconsistent := hs.consistent i hi
  obtain ⟨v, root, hbound, -, -⟩ := hconsistent.walk
  obtain ⟨n, hn, hid, houtcome⟩ := hconsistent.stands hs.toDesign
  refine ⟨s.procedure v, (hbound.desk hs).1, ?_⟩
  obtain ⟨r, hr, -, hrn⟩ := mem_nodesOf.mp hn
  have hcheck := hs.node_check r hr
  rw [hrn] at hcheck
  rw [← hbound.2.1] at hn
  rw [← hid, resolution_of_mem hs.toDesign hn]
  rcases houtcome with ⟨hk, hstatus, -, hresolution⟩ | ⟨hk, hstatus, -, hresolution⟩
  · rcases hcheck with ⟨-, hsome⟩ | ⟨hdecision, -⟩
    · exact ⟨hresolution, iff_of_true hstatus hsome⟩
    · rw [hk] at hdecision
      cases hdecision
  · rcases hcheck with ⟨hterminal, -⟩ | ⟨-, hnone⟩
    · exact absurd hterminal hk
    · rw [hnone]
      exact ⟨hresolution, by simp [hstatus]⟩

/-! ## Playbooks -/

/-- What the transactions on playbooks leave alone, and what they publish. -/
structure Designed (publishes : UUID → Prop) (s s' : Store) : Prop where
  alerts : s'.alerts = s.alerts
  investigations : s'.investigations = s.investigations
  steps : s'.steps = s.steps
  published : ∀ v ∈ s'.versions, v.status = .published →
    publishes v.id ∨ ∃ w ∈ s.versions, w.id = v.id ∧ w.status = .published

theorem Designed.write {publishes : UUID → Prop} (h : Designed publishes s s') {w : Write}
    (hw : w.Designs publishes) : Designed publishes s (s'.write w) := by
  cases w with
  | insertAlert a => exact hw.elim
  | insertInvestigation i => exact hw.elim
  | setState id current status completedAt resolution => exact hw.elim
  | insertStep row => exact hw.elim
  | insertVersion v =>
    refine { h with published := fun u hu hp => ?_ }
    rcases List.mem_append.mp hu with hu | hu
    · exact h.published u hu hp
    · rw [List.mem_singleton.mp hu, show v.status = .draft from hw] at hp
      cases hp
  | setRoot id root =>
    refine { h with published := fun u hu hp => ?_ }
    rcases mem_updateWhere.mp hu with ⟨hu, -⟩ | ⟨x, hx, -, rfl⟩
    · exact h.published u hu hp
    · exact h.published x hx hp
  | setPublished id now =>
    refine { h with published := fun u hu hp => ?_ }
    rcases mem_updateWhere.mp hu with ⟨hu, -⟩ | ⟨x, -, hid, rfl⟩
    · exact h.published u hu hp
    · rw [← of_decide_eq_true hid] at hw
      exact .inl hw
  | _ => exact { h with }

theorem designed_applyAll {publishes : UUID → Prop} {ws : List Write}
    (hws : ∀ w ∈ ws, w.Designs publishes) (s : Store) :
    Designed publishes s (Txn.applyAll ws s) :=
  Txn.applyAll_preserves (I := Designed publishes s) (fun _ _ hw h => h.write hw) hws
    ⟨rfl, rfl, rfl, fun v hv hp => .inr ⟨v, hv, rfl, hp⟩⟩

theorem Evolves.procedure (h : Evolves s s') (hs : Design s) (hs' : Design s')
    (hv : v ∈ s.versions) (hp : v.status = .published) : s'.procedure v = s.procedure v := by
  obtain ⟨hnodes, hedges⟩ := h.frozen v hv hp
  obtain ⟨p, hpm, hpid⟩ := hs.version_playbook v hv
  have hhandles : (s'.procedure v).handles = (s.procedure v).handles := by
    rw [procedure_handles hs' (h.playbooks p hpm) hpid, procedure_handles hs hpm hpid]
  rw [Store.procedure, Store.procedure, Engine.Procedure.mk.injEq]
  refine ⟨rfl, hhandles, ?_, ?_⟩
  · rw [Store.edgesOf, Store.edgesOf, hedges]
  · simp only [Store.nodesOf, hnodes]

/-- What a step that leaves alerts, investigations and steps alone adds to the desk. -/
theorem Designed.desk_eq {publishes : UUID → Prop} (h : Designed publishes s s') (hs : Valid s)
    (hs' : Valid s') (hevolves : Evolves s s')
    (hold : ∀ v ∈ s'.versions, v.status = .published → v ∈ s.versions) : s'.desk = s.desk := by
  apply Engine.Desk.ext
  · simp only [Store.desk, h.alerts]
  · ext id p
    rw [hs'.procedure_iff, hs.procedure_iff]
    constructor
    · rintro ⟨v, hv, hp, hid, rfl⟩
      exact ⟨v, hold v hv hp, hp, hid,
        (hevolves.procedure hs.toDesign hs'.toDesign (hold v hv hp) hp).symm⟩
    · rintro ⟨v, hv, hp, hid, rfl⟩
      exact ⟨v, hevolves.published hv hp, hp, hid,
        hevolves.procedure hs.toDesign hs'.toDesign hv hp⟩
  · simp only [Store.desk, h.investigations]
    unfold Store.case Store.stepsOf
    rw [h.steps]

theorem Designed.old {publishes : UUID → Prop} (h : Designed publishes s s') (hs' : Design s')
    (hevolves : Evolves s s') (hv : v ∈ s'.versions) (hp : v.status = .published) :
    publishes v.id ∨ v ∈ s.versions := by
  refine (h.published v hv hp).imp_right ?_
  rintro ⟨w, hw, hid, hwp⟩
  rwa [← List.inj_on_of_nodup_map hs'.version_ids (hevolves.published hw hwp) hv hid]

theorem Designed.publish {id : UUID} (h : Designed (· = id) s s') (hs : Valid s)
    (hs' : Valid s') (hevolves : Evolves s s') :
    s'.desk = s.desk ∨ ∃ p, s.desk.Step (.publish id p) s'.desk := by
  by_cases hnew : ∃ v ∈ s'.versions, v.status = .published ∧ v ∉ s.versions
  · obtain ⟨v, hv, hp, hvs⟩ := hnew
    obtain rfl := (h.old hs'.toDesign hevolves hv hp).resolve_right hvs
    have hnone : s.desk.procedures v.id = none := by
      refine find?_map_eq_none.mpr ?_
      intro w hw hid
      obtain ⟨hw, hwp⟩ := mem_publishedVersions.mp hw
      rw [List.inj_on_of_nodup_map hs'.version_ids (hevolves.published hw hwp) hv hid] at hw
      exact hvs hw
    refine .inr ⟨s'.procedure v, ?_⟩
    have hdesk : s'.desk = { s.desk with
        procedures := Function.update s.desk.procedures v.id (some (s'.procedure v)) } := by
      apply Engine.Desk.ext
      · simp only [Store.desk, h.alerts]
      · ext id p
        rw [Engine.Desk.update_eq_some, hs'.procedure_iff, hs.procedure_iff]
        constructor
        · rintro ⟨w, hw, hwp, rfl, rfl⟩
          by_cases hid : w.id = v.id
          · obtain rfl := List.inj_on_of_nodup_map hs'.version_ids hw hv hid
            exact .inl ⟨rfl, rfl⟩
          · have hold := (h.old hs'.toDesign hevolves hw hwp).resolve_left hid
            exact .inr ⟨hid, w, hold, hwp, rfl,
              (hevolves.procedure hs.toDesign hs'.toDesign hold hwp).symm⟩
        · rintro (⟨rfl, rfl⟩ | ⟨-, w, hw, hwp, rfl, rfl⟩)
          · exact ⟨v, hv, hp, rfl, rfl⟩
          · exact ⟨w, hevolves.published hw hwp, hwp, rfl,
              hevolves.procedure hs.toDesign hs'.toDesign hw hwp⟩
      · simp only [Store.desk, h.investigations]
        unfold Store.case Store.stepsOf
        rw [h.steps]
    rw [hdesk]
    exact .publish hnone (hs'.sound hv hp)
  · push Not at hnew
    exact .inl (h.desk_eq hs hs' hevolves hnew)

/-! ## Alerts -/

theorem applyAll_insertAlert {a : Alert} {ws : List Write} (hws : ∀ w ∈ ws, w = .insertAlert a)
    (s : Store) : Txn.applyAll ws s =
      { s with alerts := s.alerts ++ List.replicate ws.length a } := by
  induction ws generalizing s with
  | nil => simp
  | cons w rest ih =>
    obtain ⟨rfl, hrest⟩ := List.forall_mem_cons.mp hws
    rw [Txn.applyAll_cons, ih hrest]
    simp [Store.write, List.replicate_succ]

theorem desk_insertAlert {a : Alert} (hs : Valid s) (hs' : Valid (s.write (.insertAlert a))) :
    s.desk.Step (.ingest a.id a.alertType) (s.write (.insertAlert a)).desk := by
  have hids := hs'.alert_ids
  rw [Store.write, List.map_append, List.nodup_append] at hids
  have hfresh : ∀ b ∈ s.alerts, b.id ≠ a.id :=
    fun b hb => hids.2.2 _ (List.mem_map_of_mem hb) _ (by simp)
  have hsubjects : (s.write (.insertAlert a)).desk.subjects =
      Function.update s.desk.subjects a.id (some a.alertType) := by
    ext id t
    rw [Engine.Desk.update_eq_some, hs'.subject_iff, hs.subject_iff]
    constructor
    · rintro ⟨b, hb, rfl, rfl⟩
      rcases List.mem_append.mp hb with hb | hb
      · exact .inr ⟨hfresh b hb, b, hb, rfl, rfl⟩
      · rw [List.mem_singleton.mp hb]
        exact .inl ⟨rfl, rfl⟩
    · rintro (⟨rfl, rfl⟩ | ⟨-, b, hb, rfl, rfl⟩)
      · exact ⟨a, List.mem_append_right _ (List.mem_singleton_self a), rfl, rfl⟩
      · exact ⟨b, List.mem_append_left _ hb, rfl, rfl⟩
  have hdesk : (s.write (.insertAlert a)).desk = { s.desk with
      subjects := Function.update s.desk.subjects a.id (some a.alertType) } :=
    Engine.Desk.ext hsubjects rfl rfl
  rw [hdesk]
  exact .ingest (find?_map_eq_none.mpr hfresh)

/-- The id of an alert is a key, so that it is inserted once at most. -/
theorem desk_insertAlerts {a : Alert} {ws : List Write} (hws : ∀ w ∈ ws, w = .insertAlert a)
    (hs : Valid s) (hs' : Valid (Txn.applyAll ws s)) : (Txn.applyAll ws s).desk = s.desk ∨
      s.desk.Step (.ingest a.id a.alertType) (Txn.applyAll ws s).desk := by
  have hids := hs'.alert_ids
  rw [applyAll_insertAlert hws] at hids hs' ⊢
  rw [List.map_append, List.map_replicate, List.nodup_append] at hids
  have hlength : ws.length ≤ 1 := List.nodup_replicate.mp hids.2.1
  rcases Nat.le_one_iff_eq_zero_or_eq_one.mp hlength with hzero | hone
  · left
    rw [hzero]
    simp
  · rw [hone] at hs' ⊢
    exact .inr (desk_insertAlert hs hs')

/-! ## Investigations that begin and go on -/

theorem desk_insertInvestigation (hs : Valid s) (hs' : Valid (s.write (.insertInvestigation i)))
    (hbound : Bound s i v) (hroot : v.rootNodeID = some i.currentNodeID) :
    s.desk.Step (.start i.id i.alertID i.playbookVersionID)
      (s.write (.insertInvestigation i)).desk := by
  have hids := hs'.investigation_ids
  rw [Store.write, List.map_append, List.nodup_append] at hids
  have hfresh : ∀ j ∈ s.investigations, j.id ≠ i.id :=
    fun j hj => hids.2.2 _ (List.mem_map_of_mem hj) _ (by simp)
  obtain ⟨hprocedure, hsubject⟩ := hbound.desk hs
  have hcases : (s.write (.insertInvestigation i)).desk.cases = Function.update s.desk.cases i.id
      (some ⟨i.alertID, i.playbookVersionID, [], (s.procedure v).root⟩) := by
    have hcase : s.case i = ⟨i.alertID, i.playbookVersionID, [], (s.procedure v).root⟩ := by
      rw [Store.case, hs.stepsOf_nil hfresh, procedure_root hroot]
      rfl
    rw [← hcase]
    ext id c
    rw [Engine.Desk.update_eq_some, hs'.case_iff, hs.case_iff]
    constructor
    · rintro ⟨j, hj, rfl, rfl⟩
      rcases List.mem_append.mp hj with hj | hj
      · exact .inr ⟨hfresh j hj, j, hj, rfl, rfl⟩
      · rw [List.mem_singleton.mp hj]
        exact .inl ⟨rfl, rfl⟩
    · rintro (⟨rfl, rfl⟩ | ⟨-, j, hj, rfl, rfl⟩)
      · exact ⟨i, List.mem_append_right _ (List.mem_singleton_self i), rfl, rfl⟩
      · exact ⟨j, List.mem_append_left _ hj, rfl, rfl⟩
  have hdesk : (s.write (.insertInvestigation i)).desk = { s.desk with
      cases := Function.update s.desk.cases i.id
        (some ⟨i.alertID, i.playbookVersionID, [], (s.procedure v).root⟩) } :=
    Engine.Desk.ext rfl rfl hcases
  rw [hdesk]
  exact .start (find?_map_eq_none.mpr hfresh) hprocedure hsubject

theorem Advances.desk {next : Investigation} {row : StepRow} (h : Advances s i row next)
    (hs : Valid s) : s.desk.Step (.choose i.id row.selectedEdgeID) (s.advanced row next).desk := by
  have hs' := h.valid hs
  obtain ⟨v, root, hbound, -, -⟩ := (hs.consistent i h.stands).walk
  obtain ⟨e, he, heid, hfrom, hto⟩ := h.edge
  rw [← hbound.2.1] at he
  have hcases : (s.advanced row next).desk.cases = Function.update s.desk.cases i.id
      (some ((s.case i).after row.selectedEdgeID next.currentNodeID)) := by
    have hnext : (s.advanced row next).case next =
        (s.case i).after row.selectedEdgeID next.currentNodeID := by
      rw [Store.case, h.next_id, h.stepsOf_self, h.kept, List.map_append, Store.case,
        Engine.Case.after, List.map_singleton, StepRow.taken, h.node]
      rfl
    rw [← hnext]
    ext id c
    rw [Engine.Desk.update_eq_some, hs'.case_iff, hs.case_iff]
    constructor
    · rintro ⟨j, hj, rfl, rfl⟩
      rcases (h.mem_investigations hs).mp hj with rfl | ⟨hj, hne⟩
      · exact .inl ⟨h.next_id, rfl⟩
      · refine .inr ⟨hne, j, hj, rfl, ?_⟩
        rw [Store.case, Store.case, h.stepsOf_of_ne hne]
    · rintro (⟨rfl, rfl⟩ | ⟨hne, j, hj, rfl, rfl⟩)
      · exact ⟨next, (h.mem_investigations hs).mpr (.inl rfl), h.next_id, rfl⟩
      · refine ⟨j, (h.mem_investigations hs).mpr (.inr ⟨hj, hne⟩), rfl, ?_⟩
        rw [Store.case, Store.case, h.stepsOf_of_ne hne]
  have hdesk : (s.advanced row next).desk = { s.desk with
      cases := Function.update s.desk.cases i.id
        (some ((s.case i).after row.selectedEdgeID next.currentNodeID)) } :=
    Engine.Desk.ext rfl rfl hcases
  rw [hdesk]
  exact .choose (hs.case_of_mem h.stands) (hbound.desk hs).1 ⟨e, he, heid, hfrom, hto⟩

end Interbellum
