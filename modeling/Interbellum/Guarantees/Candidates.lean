import Interbellum.Frontend.Candidates
import Interbellum.Guarantees.DeskActions
import Interbellum.Guarantees.Drafts
import Interbellum.Http.Encode
import Interbellum.Server.Writes
import Interbellum.Txn.Reading

/-!
# What the start screen offers can be started

The screen reads the list of playbooks and then each playbook by itself, while others create
playbooks, replace drafts and publish. What it puts together of these reads is not the state of the
server at any one moment. Published versions stay published, and so it lies between two states: all
that could be started when the screen was opened is offered, and all that is offered can be started
from then on.

* `Opens`: the requests of the screen beside a run of other clients.
* `offered_between`: the candidates.
-/

namespace Interbellum

open Frontend (Candidate candidates candidatesOf listQuery)
open Http.Response (PlaybookWithVersions PlaybookList toPlaybook toPlaybookList toSummary
  toPlaybookWithVersions readID idText readID_idText)
open PlaybookRepository (playbookOrder)
open Txn (Run)

section

variable {ι : Type} [DecidableEq ι]

/-- The screen is opened in the first state, and shows an error or the candidates in the last one.
Of the answers to the requests for the playbooks, which are under way at the same time, the first
error is shown. -/
inductive Opens (parse : String → Option UUID) (text : UUID → String) (alertType : String) :
    Server ι → Except AppError (List Candidate) → Server ι → Prop
  | unlisted {sys sys' : Server ι} {e : AppError}
      (hlist : (Http.listPlaybooks (listQuery alertType)).run.Reads sys (.error e) sys') :
      Opens parse text alertType sys (.error e) sys'
  | unread {sys now sys' : Server ι} {listed : PlaybookList} {p : Http.Response.Playbook}
      {e : AppError}
      (hlist : (Http.listPlaybooks (listQuery alertType)).run.Reads sys (.ok listed) now)
      (hp : p ∈ listed.items)
      (hget : (Http.getPlaybook parse (text p.id)).run.Reads now (.error e) sys') :
      Opens parse text alertType sys (.error e) sys'
  | shown {sys now sys' : Server ι} {listed : PlaybookList} {detailed : List PlaybookWithVersions}
      {trace : List (ι × Txn.Event)}
      (hlist : (Http.listPlaybooks (listQuery alertType)).run.Reads sys (.ok listed) now)
      (hrun : Run now trace sys')
      (hgets : List.Forall₂ (fun p r =>
        (Http.getPlaybook parse (text p.id)).run.Reads now (.ok r) sys') listed.items detailed) :
      Opens parse text alertType sys (.ok (candidates detailed)) sys'

end

/-! ## Alerts -/

/-- The types of the alerts can be looked for. -/
def Store.Typed (s : Store) : Prop :=
  ∀ a ∈ s.alerts, a.alertType ≠ "" ∧ storableText a.alertType = true

theorem Store.Typed.write {s : Store} {w : Write} {op : Operation} (h : s.Typed)
    (hw : w.Proper op.Starts op.Ingests) : (s.write w).Typed := by
  cases w with
  | insertAlert a =>
    intro b hb
    rcases List.mem_append.mp hb with hb | hb
    · exact h b hb
    · rw [List.mem_singleton.mp hb]
      cases op with
      | createAlert id now input =>
        obtain ⟨rfl, haccepted⟩ := hw
        have hstorable := haccepted.storable
        simp only [NewAlert.storable, Bool.and_eq_true] at hstorable
        exact ⟨haccepted.alertType, hstorable.1.1.1.2⟩
      | _ => exact hw.elim
  | _ => exact h

theorem Reachable.typed {s : Store} (h : Reachable s) : s.Typed := by
  induction h with
  | empty => exact fun a ha => (List.not_mem_nil ha).elim
  | @run ι _ s ops trace sys _ hrun ih =>
    have hproper := proper_clients s ops
    exact hrun.preserves (fun _ _ _ hw hs => hs.write hw) hproper ih

/-! ## The reads -/

/-- The playbooks of a type, as they are listed. -/
def Store.playbooksFor (s : Store) (alertType : String) : List Playbook :=
  (s.playbooks.filter fun p => p.alertType = alertType).insertionSort fun a b => playbookOrder a b

/-- The versions of a playbook, as they are listed. -/
def Store.versionsOf (s : Store) (playbookID : UUID) : List Version :=
  (s.versions.filter fun v => v.playbookID = playbookID).insertionSort
    fun a b => b.version ≤ a.version

variable {s t u : Store} {G : Store → Store → Prop} {alertType : String} {p : Playbook}
  {parse : String → Option UUID} {text : UUID → String}

/-- What is answered was so at some moment between sending and answering. -/
def Between {β : Type} (s : Store) (f : Store → β) (r : Except AppError β) (u : Store) : Prop :=
  ∃ t, Valid t ∧ Evolves s t ∧ Evolves t u ∧ r = .ok (f t)

theorem keeps_listPlaybooks (hG : ∀ t, G t t) (htype : alertType ≠ "")
    (hstorable : storableText alertType = true) :
    (Http.listPlaybooks (listQuery alertType)).run.Keeps rules G
      (Between s fun t => toPlaybookList (t.playbooksFor alertType)) s := by
  rw [Frontend.listPlaybooks_listQuery, ExceptT.run_map]
  refine Txn.Call.Keeps.map (keeps_onPool (keeps_pool_sql ?_))
  intro t ht hst
  simp only [hstorable, Bool.not_true, guarded_cons, Bool.false_eq_true, if_false, htype,
    decide_false, Bool.false_or]
  refine ⟨commits_nil ht (hG t), ?_⟩
  intro u _ htu
  exact ⟨t, ht, hst, htu, rfl⟩

theorem keeps_getPlaybook_of_mem (hs : Valid s) (hG : ∀ t, G t t)
    (hid : ∀ id, parse (text id) = some id) (hp : p ∈ s.playbooks) :
    (Http.getPlaybook parse (text p.id)).run.Keeps rules G
      (Between s fun t => toPlaybookWithVersions (p, t.versionsOf p.id)) s := by
  have hpath : Http.pathUUID parse "playbookId" (text p.id) = .ok p.id := by
    rw [Http.pathUUID, hid]
  rw [Http.getPlaybook, hpath]
  dsimp only
  rw [ExceptT.run_map]
  refine Txn.Call.Keeps.map (keeps_onPool (keeps_pool_bind_ok hs (b := p) ?_ ?_))
  · refine keeps_pool_row_of_mem hG ?_
    intro t ht hst
    exact playbookRow_of_mem ht (hst.playbooks p hp)
  · intro t _ hst w hw htw
    refine ⟨commits_nil hw (hG w), ?_⟩
    intro u _ hwu
    exact ⟨w, hw, hst.trans htw, hwu, rfl⟩

/-! ## The candidates -/

/-- The candidate for a version of a playbook. -/
def candidate (p : Playbook) (v : Version) : Candidate := ⟨p.id, p.name, p.description, toSummary v⟩

theorem text_published {status : VersionStatus} :
    status.text = "published" ↔ status = .published := by
  cases status <;> decide

theorem mem_candidatesOf {versions : List Version} {c : Candidate} :
    c ∈ candidatesOf (toPlaybookWithVersions (p, versions)) ↔
      ∃ v ∈ versions, v.status = .published ∧ c = candidate p v := by
  simp only [candidatesOf, toPlaybookWithVersions, List.mem_map, List.mem_insertionSort,
    List.mem_filter, decide_eq_true_eq]
  constructor
  · rintro ⟨_, ⟨⟨v, hv, rfl⟩, hstatus⟩, rfl⟩
    exact ⟨v, hv, text_published.mp hstatus, rfl⟩
  · rintro ⟨v, hv, hstatus, rfl⟩
    exact ⟨_, ⟨⟨v, hv, rfl⟩, text_published.mpr hstatus⟩, rfl⟩

theorem mem_versionsOf {v : Version} {id : UUID} :
    v ∈ s.versionsOf id ↔ v ∈ s.versions ∧ v.playbookID = id := by
  rw [Store.versionsOf, List.mem_insertionSort, List.mem_filter, decide_eq_true_eq]

theorem mem_playbooksFor : p ∈ s.playbooksFor alertType ↔
    p ∈ s.playbooks ∧ p.alertType = alertType := by
  rw [Store.playbooksFor, List.mem_insertionSort, List.mem_filter, decide_eq_true_eq]

/-! ### The order -/

def Playbook.sortKey (p : Playbook) : ℕᵒᵈ ×ₗ UUID := toLex (OrderDual.toDual p.createdAt, p.id)

theorem playbookOrder_iff (a b : Playbook) : playbookOrder a b = true ↔ a.sortKey ≤ b.sortKey := by
  simp [playbookOrder, Playbook.sortKey, Prod.Lex.toLex_le_toLex]

theorem pairwise_playbooksFor (hs : Design s) :
    (s.playbooksFor alertType).Pairwise fun p q =>
      q.createdAt < p.createdAt ∨ p.createdAt = q.createdAt ∧ p.id < q.id := by
  have hsorted : (s.playbooksFor alertType).Pairwise fun p q => p.sortKey ≤ q.sortKey :=
    pairwise_insertionSort_of playbookOrder_iff _
  have hids : ((s.playbooksFor alertType).map Playbook.id).Nodup := by
    refine ((List.perm_insertionSort _ _).map _).nodup_iff.mpr ?_
    exact (List.filter_sublist.map _).nodup hs.playbook_ids
  rw [List.Nodup, List.pairwise_map] at hids
  refine (hsorted.and hids).imp ?_
  rintro p q ⟨hle, hne⟩
  rw [Playbook.sortKey, Playbook.sortKey, Prod.Lex.toLex_le_toLex] at hle
  rcases hle with hlt | ⟨heq, hle⟩
  · exact .inl hlt
  · exact .inr ⟨heq, lt_of_le_of_ne hle hne⟩

theorem pairwise_candidatesOf (hs : Design s) :
    (candidatesOf (toPlaybookWithVersions (p, s.versionsOf p.id))).Pairwise
      fun c c' => c'.version.version < c.version.version := by
  have hnumbers : ((s.versionsOf p.id).map Version.version).Nodup := by
    refine ((List.perm_insertionSort _ _).map _).nodup_iff.mpr ?_
    show (s.versionNumbers p.id).Nodup
    rw [hs.numbered p.id]
    exact List.nodup_range'
  let summaries := ((s.versionsOf p.id).map toSummary).filter fun v => v.status = "published"
  have hdistinct : (summaries.map fun v => v.version).Nodup := by
    refine (List.filter_sublist.map _).nodup ?_
    rw [List.map_map]
    exact hnumbers
  have hperm := ((List.perm_insertionSort (fun a b => b.version ≤ a.version) summaries).map
    fun v => v.version).nodup_iff.mpr hdistinct
  rw [List.Nodup, List.pairwise_map] at hperm
  have hsorted := @pairwise_insertionSort_of _ _ _ (fun a b => decide (b.version ≤ a.version))
    (fun v : Http.Response.PlaybookVersionSummary => OrderDual.toDual v.version)
    (fun a b => decide_eq_true_iff) summaries
  simp only [decide_eq_true_eq] at hsorted
  rw [candidatesOf, List.pairwise_map]
  refine (hsorted.and hperm).imp ?_
  rintro a b ⟨hle, hne⟩
  exact lt_of_le_of_ne hle (Ne.symm hne)

/-- Newest playbook first, and of a playbook the newest version. -/
def Before (s : Store) (c c' : Candidate) : Prop :=
  ∃ p ∈ s.playbooks, ∃ q ∈ s.playbooks, p.id = c.playbookId ∧ q.id = c'.playbookId ∧
    (q.createdAt < p.createdAt ∨ p.createdAt = q.createdAt ∧
      (p.id < q.id ∨ p = q ∧ c'.version.version < c.version.version))

/-- A playbook of the type, and what a request for it returns. -/
def Fetched (s : Store) (alertType : String) (u : Store) (p : Playbook)
    (r : PlaybookWithVersions) : Prop :=
  p ∈ u.playbooks ∧ p.alertType = alertType ∧ ∃ w, Valid w ∧ Evolves s w ∧ Evolves w u ∧
    r = toPlaybookWithVersions (p, w.versionsOf p.id)

variable {r : PlaybookWithVersions} {c : Candidate}

/-- What is offered of a playbook is published in the end. -/
theorem Fetched.published (h : Fetched s alertType u p r) (hc : c ∈ candidatesOf r) :
    p ∈ u.playbooks ∧ p.alertType = alertType ∧ ∃ v ∈ u.versions, v.playbookID = p.id ∧
      v.status = .published ∧ c = candidate p v := by
  obtain ⟨hp, htype, w, -, -, hwu, rfl⟩ := h
  obtain ⟨v, hv, hstatus, rfl⟩ := mem_candidatesOf.mp hc
  obtain ⟨hv, howner⟩ := mem_versionsOf.mp hv
  exact ⟨hp, htype, v, hwu.published hv hstatus, howner, hstatus, rfl⟩

/-- What was published in the beginning is offered. -/
theorem Fetched.offers (h : Fetched s alertType u p r) {v : Version} (hv : v ∈ s.versions)
    (howner : v.playbookID = p.id) (hstatus : v.status = .published) :
    candidate p v ∈ candidatesOf r := by
  obtain ⟨-, -, w, -, hsw, -, rfl⟩ := h
  exact mem_candidatesOf.mpr ⟨v, mem_versionsOf.mpr ⟨hsw.published hv hstatus, howner⟩, hstatus, rfl⟩

theorem Fetched.sorted (h : Fetched s alertType u p r) : (candidatesOf r).Pairwise (Before u) := by
  have hown := fun c hc => h.published (c := c) hc
  obtain ⟨-, -, w, hw, -, -, rfl⟩ := h
  refine (pairwise_candidatesOf hw.toDesign).imp_of_mem ?_
  intro c c' hc hc' hlt
  obtain ⟨hpu, -, v, -, -, -, rfl⟩ := hown c hc
  obtain ⟨-, -, v', -, -, -, rfl⟩ := hown c' hc'
  exact ⟨p, hpu, p, hpu, rfl, rfl, .inr ⟨rfl, .inr ⟨rfl, hlt⟩⟩⟩

theorem Fetched.before {q : Playbook} {r' : PlaybookWithVersions} (h : Fetched s alertType u p r)
    (h' : Fetched s alertType u q r')
    (hlt : q.createdAt < p.createdAt ∨ p.createdAt = q.createdAt ∧ p.id < q.id) :
    ∀ c ∈ candidatesOf r, ∀ c' ∈ candidatesOf r', Before u c c' := by
  intro c hc c' hc'
  obtain ⟨hp, -, v, -, -, -, rfl⟩ := h.published hc
  obtain ⟨hq, -, v', -, -, -, rfl⟩ := h'.published hc'
  exact ⟨p, hp, q, hq, rfl, rfl, hlt.imp_right fun hlt => ⟨hlt.1, .inl hlt.2⟩⟩

theorem mem_of_forall₂ {α β : Type} {R : α → β → Prop} {as : List α} {bs : List β}
    (h : List.Forall₂ R as bs) {b : β} (hb : b ∈ bs) : ∃ a ∈ as, R a b := by
  induction h with
  | nil => exact (List.not_mem_nil hb).elim
  | @cons a b' as bs hab _ ih =>
    rcases List.mem_cons.mp hb with rfl | hb
    · exact ⟨a, List.mem_cons_self, hab⟩
    · obtain ⟨a', ha', hab'⟩ := ih hb
      exact ⟨a', List.mem_cons_of_mem _ ha', hab'⟩

theorem pairwise_of_forall₂ {α β : Type} {R : α → β → Prop} {P : α → α → Prop} {P' : β → β → Prop}
    (hP : ∀ {a b a' b'}, R a b → R a' b' → P a a' → P' b b') {as : List α} {bs : List β}
    (h : List.Forall₂ R as bs) (has : as.Pairwise P) : bs.Pairwise P' := by
  induction h with
  | nil => exact .nil
  | @cons a b as bs hab hrest ih =>
    obtain ⟨hfirst, hpairs⟩ := List.pairwise_cons.mp has
    refine .cons ?_ (ih hpairs)
    intro b' hb'
    obtain ⟨a', ha', hab'⟩ := mem_of_forall₂ hrest hb'
    exact hP hab hab' (hfirst a' ha')

theorem pairwise_candidates {playbooks : List Playbook} {detailed : List PlaybookWithVersions}
    (hfetched : List.Forall₂ (Fetched s alertType u) playbooks detailed)
    (hsorted : playbooks.Pairwise fun p q =>
      q.createdAt < p.createdAt ∨ p.createdAt = q.createdAt ∧ p.id < q.id) :
    (candidates detailed).Pairwise (Before u) := by
  rw [candidates, List.pairwise_flatMap]
  constructor
  · intro r hr
    obtain ⟨p, -, h⟩ := mem_of_forall₂ hfetched hr
    exact h.sorted
  · exact pairwise_of_forall₂ (fun h h' hlt => h.before h' hlt) hfetched hsorted

/-! ## The screen -/

section

variable {ι : Type} [DecidableEq ι] {ops : ι → Operation} {trace : List (ι × Txn.Event)}
  {sys sys' : Server ι} {a : Alert} {answer : Except AppError (List Candidate)}

/-- No request of the screen fails, and each listed playbook is fetched. -/
theorem opens_fetched (h : Reachable s) (hrun : Run (clients s ops) trace sys)
    (hid : ∀ id, parse (text id) = some id) (ha : a ∈ sys.store.alerts)
    (hopens : Opens parse text a.alertType sys answer sys') :
    (∃ later, Run sys later sys') ∧ ∃ playbooks detailed, answer = .ok (candidates detailed) ∧
      List.Forall₂ (Fetched sys.store a.alertType sys'.store) playbooks detailed ∧
      (∀ p ∈ sys.store.playbooks, p.alertType = a.alertType → p ∈ playbooks) ∧
      playbooks.Pairwise fun p q =>
        q.createdAt < p.createdAt ∨ p.createdAt = q.createdAt ∧ p.id < q.id := by
  obtain ⟨calls, htracked⟩ := h.tracked hrun
  have hreachable : Reachable sys.store := h.run hrun
  obtain ⟨hne, hstorable⟩ := hreachable.typed a ha
  have hlisting := keeps_listPlaybooks (s := sys.store) (G := fun _ _ => True) (fun _ => trivial)
    hne hstorable
  have hfetching : ∀ {t : Store} {p : Playbook}, Valid t → p ∈ t.playbooks →
      (Http.getPlaybook parse (text p.id)).run.Keeps rules (fun _ _ => True)
        (Between t fun w => toPlaybookWithVersions (p, w.versionsOf p.id)) t :=
    fun ht hp => keeps_getPlaybook_of_mem ht (fun _ => trivial) hid hp
  cases hopens with
  | unlisted hlist =>
    obtain ⟨-, -, t, -, -, -, hanswer⟩ := htracked.reads hlist hlisting
    cases hanswer
  | unread hlist hp hget =>
    obtain ⟨⟨calls', hlinked⟩, -, t, -, -, htnow, hanswer⟩ := htracked.reads hlist hlisting
    obtain rfl := Except.ok.inj hanswer
    obtain ⟨p, hmem, rfl⟩ := List.mem_map.mp hp
    have hpnow := htnow.playbooks p (mem_playbooksFor.mp hmem).1
    obtain ⟨-, -, w, -, -, -, herror⟩ := hlinked.reads hget (hfetching hlinked.inv hpnow)
    cases herror
  | shown hlist hrest hgets =>
    obtain ⟨⟨calls', hlinked⟩, hevolves, t, ht, hst, htnow, hanswer⟩ :=
      htracked.reads hlist hlisting
    obtain ⟨first, hfirst⟩ := hlist.run
    obtain ⟨-, hnow⟩ := hlinked.run hrest
    refine ⟨⟨_, hfirst.append hrest⟩, t.playbooksFor a.alertType, _, rfl, ?_, ?_, ?_⟩
    · obtain rfl := Except.ok.inj hanswer
      have hgets := List.forall₂_map_left_iff.mp hgets
      refine ((List.forall₂_and_left _ _).mpr ⟨fun p hp => hp, hgets⟩).imp ?_
      rintro p r ⟨hp, hget⟩
      obtain ⟨hp, htype⟩ := mem_playbooksFor.mp hp
      have hpnow := htnow.playbooks p hp
      obtain ⟨-, -, w, hw, hnw, hwu, hr⟩ := hlinked.reads hget (hfetching hlinked.inv hpnow)
      exact ⟨hnow.playbooks p hpnow, htype, w, hw, hevolves.trans hnw, hwu, Except.ok.inj hr⟩
    · intro p hp htype
      exact mem_playbooksFor.mpr ⟨hst.playbooks p hp, htype⟩
    · exact pairwise_playbooksFor ht.toDesign

/-- The version can be started for the alert: it is published and of a playbook of its type. -/
def Startable (s : Store) (a : Alert) (versionID : UUID) : Prop :=
  ∃ v ∈ s.versions, v.id = versionID ∧ v.status = .published ∧
    ∃ p ∈ s.playbooks, p.id = v.playbookID ∧ p.alertType = a.alertType

theorem call_start (s : Store) (id : UUID) (now : Time) (alertID versionID : UUID) :
    ((Operation.start id now alertID versionID).call.run s).1 =
      ((InvestigationService.start id now alertID versionID).run.run s).1.map .state :=
  congrArg Prod.fst (run_reply _ _ s)

theorem startable_of_start (hs : Valid s) (ha : a ∈ s.alerts) {id : UUID} {now : Time}
    {versionID : UUID} {state : InvestigationService.State}
    (hok : ((Operation.start id now a.id versionID).call.run s).1 = .ok (.state state)) :
    Startable s a versionID := by
  rw [call_start] at hok
  rcases run_start hs id now a.id versionID with
    ⟨-, i, v, r, -, halert, hversion, hbound, -, -, -⟩ | ⟨e, hrun, -⟩
  · obtain ⟨hv, hvid, hstatus, p, hp, howner, b, hb, hbid, htype⟩ := hbound
    obtain rfl := List.inj_on_of_nodup_map hs.alert_ids hb ha (hbid.trans halert)
    exact ⟨v, hv, hvid.trans hversion, hstatus, p, hp, howner, htype⟩
  · rw [hrun] at hok
    cases hok

theorem start_of_startable (hs : Valid s) (ha : a ∈ s.alerts) {versionID : UUID}
    (h : Startable s a versionID) {id : UUID} (now : Time)
    (hunused : ∀ i ∈ s.investigations, i.id ≠ id) :
    ∃ state, ((Operation.start id now a.id versionID).call.run s).1 = .ok (.state state) := by
  obtain ⟨v, hv, rfl, hstatus, p, hp, howner, htype⟩ := h
  have hfree : (s.investigations.any fun i => i.id = id) = false := by
    simpa using hunused
  have hverdict : startVerdict s id a.id v.id = none := by
    simp only [startVerdict, find?_of_mem hs.alert_ids ha, find?_of_mem hs.version_ids hv,
      procedure_handles hs.toDesign hp howner, htype, hstatus, hfree, ne_eq, not_true_eq_false,
      Bool.false_eq_true, if_false]
  rw [call_start]
  rcases run_start hs id now a.id v.id with ⟨-, _, _, r, -, -, -, -, -, -, hrun⟩ | ⟨e, -, hsome⟩
  · rw [hrun]
    exact ⟨r, rfl⟩
  · rw [hverdict] at hsome
    cases hsome

theorem Startable.later {b : Alert} {versionID : UUID} (h : Startable s a versionID)
    (hevolves : Evolves s t) (htype : b.alertType = a.alertType) : Startable t b versionID := by
  obtain ⟨v, hv, hid, hstatus, p, hp, howner, hhandles⟩ := h
  exact ⟨v, hevolves.published hv hstatus, hid, hstatus, p, hevolves.playbooks p hp, howner,
    hhandles.trans htype.symm⟩

/-- Two candidates, of which one stands before the other, are not the same version. -/
theorem Before.ne (hs : Design s) {c c' : Candidate} {p q : Playbook} {v w : Version}
    (h : Before s c c') (hv : v ∈ s.versions) (hw : w ∈ s.versions) (hp : v.playbookID = p.id)
    (hq : w.playbookID = q.id) (hc : c = candidate p v) (hc' : c' = candidate q w) :
    c.version.id ≠ c'.version.id := by
  subst hc hc'
  intro he
  obtain rfl := List.inj_on_of_nodup_map hs.version_ids hv hw he
  obtain ⟨p', hp', q', hq', hpid, hqid, hlt⟩ := h
  obtain rfl := List.inj_on_of_nodup_map hs.playbook_ids hp' hq'
    (hpid.trans ((hp.symm.trans hq).trans hqid.symm))
  rcases hlt with hlt | ⟨-, hlt | ⟨-, hlt⟩⟩
  · exact lt_irrefl _ hlt
  · exact lt_irrefl _ hlt
  · exact lt_irrefl _ hlt

/-- Whatever other clients do while the screen is opened, it shows candidates. They are in order,
without repetitions, and each is a version as it is stored. Every version that could be started for
the alert when the screen was opened is among them, and each of them can be started from then on for
every alert of the type. -/
theorem offered_between (h : Reachable s) (hrun : Run (clients s ops) trace sys)
    (hid : ∀ id, parse (text id) = some id) (ha : a ∈ sys.store.alerts)
    (hopens : Opens parse text a.alertType sys answer sys') :
    ∃ offered, answer = .ok offered ∧ offered.Pairwise (Before sys'.store) ∧
      (offered.map fun c => c.version.id).Nodup ∧
      (∀ c ∈ offered, ∃ p ∈ sys'.store.playbooks, ∃ v ∈ sys'.store.versions,
        v.playbookID = p.id ∧ v.status = .published ∧ c = candidate p v) ∧
      (∀ id now versionID state,
        ((Operation.start id now a.id versionID).call.run sys.store).1 = .ok (.state state) →
          ∃ c ∈ offered, c.version.id = versionID) ∧
      ∀ c ∈ offered, ∀ (later : List (ι × Txn.Event)) (sys'' : Server ι), Run sys' later sys'' →
        ∀ b ∈ sys''.store.alerts, b.alertType = a.alertType → ∀ id now,
          (∀ i ∈ sys''.store.investigations, i.id ≠ id) → ∃ state,
            ((Operation.start id now b.id c.version.id).call.run sys''.store).1 =
              .ok (.state state) := by
  obtain ⟨⟨meanwhile, hmeanwhile⟩, playbooks, detailed, rfl, hfetched, hall, hsorted⟩ :=
    opens_fetched h hrun hid ha hopens
  have hvalid : Valid sys.store := (h.run hrun).valid
  have hvalid' : Valid sys'.store := (h.run (hrun.append hmeanwhile)).valid
  have hpairwise := pairwise_candidates hfetched hsorted
  have hstored : ∀ c ∈ candidates detailed, ∃ p ∈ sys'.store.playbooks, p.alertType = a.alertType ∧
      ∃ v ∈ sys'.store.versions, v.playbookID = p.id ∧ v.status = .published ∧
        c = candidate p v := by
    intro c hc
    obtain ⟨r, hr, hc⟩ := List.mem_flatMap.mp hc
    obtain ⟨p, -, hfetch⟩ := mem_of_forall₂ hfetched hr
    obtain ⟨hp, htype, v, hv, howner, hstatus, rfl⟩ := hfetch.published hc
    exact ⟨p, hp, htype, v, hv, howner, hstatus, rfl⟩
  refine ⟨_, rfl, hpairwise, ?_, ?_, ?_, ?_⟩
  · rw [List.Nodup, List.pairwise_map]
    refine hpairwise.imp_of_mem ?_
    intro c c' hc hc' hbefore
    obtain ⟨p, -, -, v, hv, howner, -, hcand⟩ := hstored c hc
    obtain ⟨q, -, -, w, hw, howner', -, hcand'⟩ := hstored c' hc'
    exact hbefore.ne hvalid'.toDesign hv hw howner howner' hcand hcand'
  · intro c hc
    obtain ⟨p, hp, -, v, hv, howner, hstatus, hcand⟩ := hstored c hc
    exact ⟨p, hp, v, hv, howner, hstatus, hcand⟩
  · intro id now versionID state hok
    obtain ⟨v, hv, rfl, hstatus, p, hp, howner, htype⟩ := startable_of_start hvalid ha hok
    obtain ⟨r, hr, hfetch⟩ := mem_of_forall₂ hfetched.flip (hall p hp htype)
    have hfetch : Fetched sys.store a.alertType sys'.store p r := hfetch
    exact ⟨_, List.mem_flatMap.mpr ⟨r, hr, hfetch.offers hv howner.symm hstatus⟩, rfl⟩
  · intro c hc later sys'' hlater b hb htype id now hunused
    obtain ⟨p, hp, hhandles, v, hv, howner, hstatus, rfl⟩ := hstored c hc
    obtain ⟨calls, htracked⟩ := h.tracked (hrun.append hmeanwhile)
    have hstartable : Startable sys'.store a v.id :=
      ⟨v, hv, rfl, hstatus, p, hp, howner.symm, hhandles⟩
    exact start_of_startable (h.run ((hrun.append hmeanwhile).append hlater)).valid hb
      (hstartable.later (htracked.run hlater).2 htype) now hunused

/-- With no other step in between, the list is that of the state. -/
theorem reads_listPlaybooks (hne : alertType ≠ "") (hstorable : storableText alertType = true) :
    (Http.listPlaybooks (listQuery alertType)).run.Reads sys
      (.ok (toPlaybookList (sys.store.playbooksFor alertType))) sys := by
  have hanswer : ∀ s : Store, Answer.guarded [(!storableText alertType, .other)] (.read
      ((s.playbooks.filter fun p => alertType = "" || p.alertType = alertType).insertionSort
        fun a b => playbookOrder a b)) = .read (s.playbooksFor alertType) := by
    intro s
    simp only [hstorable, Bool.not_true, guarded_cons, Bool.false_eq_true, if_false, hne,
      decide_false, Bool.false_or]
    rfl
  rw [Frontend.listPlaybooks_listQuery, ExceptT.run_map, PlaybookRepository.list,
    PlaybookRepository.listBody]
  simp only [hanswer]
  exact .auto (.nil _) rfl (.ret (.nil _))

theorem reads_getPlaybook (hs : Valid sys'.store) (hid : ∀ id, parse (text id) = some id)
    (hrun : Run sys trace sys') (hp : p ∈ sys'.store.playbooks) :
    (Http.getPlaybook parse (text p.id)).run.Reads sys
      (.ok (toPlaybookWithVersions (p, sys'.store.versionsOf p.id))) sys' := by
  have hpath : Http.pathUUID parse "playbookId" (text p.id) = .ok p.id := by
    rw [Http.pathUUID, hid]
  rw [Http.getPlaybook, hpath]
  dsimp only
  rw [ExceptT.run_map]
  have hrow : (sys'.store.playbooks.filter (fun q => q.id = p.id)).head? = some p :=
    playbookRow_of_mem hs hp
  refine .auto hrun ?_ ?_
  · show (⟨(Answer.row _).locks, (Answer.row _).writes⟩ : Txn.Effect Write LockKey) = ⟨[], []⟩
    rw [hrow]
    rfl
  · simp only [hrow]
    exact .auto (.nil _) rfl (.ret (.nil _))

/-- What others do between the first answer and the further requests is a run. -/
theorem opens_meanwhile (hs : Valid sys'.store) (hid : ∀ id, parse (text id) = some id)
    (hne : alertType ≠ "") (hstorable : storableText alertType = true) (hrun : Run sys trace sys')
    (hkept : ∀ p ∈ sys.store.playbooksFor alertType, p ∈ sys'.store.playbooks) :
    Opens parse text alertType sys
      (.ok (candidates ((sys.store.playbooksFor alertType).map fun p =>
        toPlaybookWithVersions (p, sys'.store.versionsOf p.id)))) sys' := by
  refine .shown (reads_listPlaybooks hne hstorable) hrun ?_
  refine List.forall₂_map_left_iff.mpr (List.forall₂_map_right_iff.mpr ?_)
  refine List.forall₂_same.mpr ?_
  intro p hp
  exact reads_getPlaybook hs hid hrun (hkept p hp)

/-- Two playbooks for the alert, one of them with a draft beside its published version. -/
def Triage.shelf : Store :=
  after
    [.createPlaybook 51 52 9 ⟨"blackhole", "", "ddos", Triage.replacement⟩, .publish 52 10,
     .createVersion 1 (some 2) 60 (fun k => 70 + k) 11] Triage.started

/-- The draft is published after the playbooks have been listed, before each of them is read: the
screen offers three versions, and the one that is new can be started. -/
theorem offered_between_triage : ∃ (quiet sys : Server Unit) (offered : List Candidate),
    quiet.store.versions.map (fun v => (v.id, v.status)) =
      [(2, .published), (52, .published), (60, .draft)] ∧
    Opens readID idText "ddos" quiet (.ok offered) sys ∧
    (offered.map fun c => c.version.id) = [52, 60, 2] ∧ offered.Pairwise (Before sys.store) ∧
    (∃ c ∈ offered, c.version.id = 2) ∧
    ∀ c ∈ offered, ∃ state,
      ((Operation.start 50 12 3 c.version.id).call.run sys.store).1 = .ok (.state state) := by
  have hreachable : Reachable Triage.shelf := Triage.reachable_started.after _
  let quiet : Server Unit := clients Triage.shelf fun _ => .publish 60 12
  let a : Alert := ⟨3, none, "ddos", "flood", "", .obj [], 9, 9⟩
  obtain ⟨trace, sys, hrun, ha', hkept, hoffered, hunused⟩ : ∃ trace sys, Run quiet trace sys ∧
      a ∈ sys.store.alerts ∧
      (∀ p ∈ quiet.store.playbooksFor "ddos", p ∈ sys.store.playbooks) ∧
      ((candidates ((quiet.store.playbooksFor "ddos").map fun p =>
        toPlaybookWithVersions (p, sys.store.versionsOf p.id))).map fun c => c.version.id) =
          [52, 60, 2] ∧
      ∀ i ∈ sys.store.investigations, i.id ≠ 50 :=
    ⟨_, _, Txn.run_follow (List.replicate 12 ()) _, by decide +kernel, by decide +kernel,
      by decide +kernel, by decide +kernel⟩
  have ha : a ∈ quiet.store.alerts := by decide +kernel
  have hvalid : Valid sys.store := (hreachable.run hrun).valid
  have hopens := opens_meanwhile hvalid readID_idText (by decide) (by decide) hrun hkept
  obtain ⟨offered, he, hpairwise, -, -, hall, hlasting⟩ :=
    offered_between hreachable (.nil quiet) readID_idText ha hopens
  obtain rfl := Except.ok.inj he
  have hstartable : Startable quiet.store a 2 := by
    unfold Startable
    decide +kernel
  have hnone : ∀ i ∈ quiet.store.investigations, i.id ≠ 50 := by decide +kernel
  obtain ⟨state, hok⟩ := start_of_startable hreachable.valid ha hstartable 12 hnone
  exact ⟨quiet, sys, _, by decide +kernel, hopens, hoffered, hpairwise, hall 50 12 2 state hok,
    fun c hc => hlasting c hc [] sys (.nil sys) a ha' rfl 50 12 hunused⟩

end

end Interbellum
