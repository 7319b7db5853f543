import Interbellum.Invariant.Writing

/-!
# What copying a version comes to

A transaction that creates a version from another one and succeeds, when it runs alone.

* `ok_writeGraph`: a graph that was written was written as a whole.
* `ok_createVersionBody`: what such a transaction has found, and what it writes.
-/

namespace Interbellum

open PlaybookRepository
open Txn (applyAll applyAll_append)

variable {s : Store} {ws ws' : List Write}

theorem ok_execBatch {α : Type} {statement : α → Db Unit} {storable : α → Prop}
    {fits : α → Store → Prop} {w : α → Write}
    (h : ∀ a, Inserts (statement a) (storable a) (fits a) (w a)) {items : List α}
    (hrun : (execBatch (items.map statement)).run.run s ws = (.ok (), ws')) :
    ws' = ws ++ items.map w := by
  rcases run_execBatch h items s ws with ⟨-, hok⟩ | ⟨a, e, ws₁, -, herror, -⟩
  · rw [hok] at hrun
    exact (Prod.mk.inj hrun).2.symm
  · rw [herror] at hrun
    cases hrun

theorem ok_writeGraph {id : UUID} {g : Graph} (hpresent : (applyAll ws s).versionRows id ≠ [])
    (hrun : (writeGraph id g).run.run s ws = (.ok (), ws')) : ws' = ws ++ graphWrites id g := by
  obtain ⟨_, ws₁, hnodes, hrun⟩ := Txn.Body.ok_of_run_bind hrun
  obtain ⟨_, ws₂, hedges, hroot⟩ := Txn.Body.ok_of_run_bind hrun
  obtain rfl := ok_execBatch (inserts_insertNode id) hnodes
  have hsent : ws₂ = ws ++ g.nodes.map (nodeWrite id) ++ g.edges.map (edgeWrite id) := by
    unfold sendEdges at hedges
    split at hedges
    · exact ok_execBatch (inserts_insertEdge id) hedges
    · cases hedges
  subst hsent
  rw [graphWrites, ← List.append_assoc, ← List.append_assoc]
  cases hr : g.rootNodeID with
  | none =>
    rw [hr] at hroot
    have hsame := (Prod.mk.inj hroot).2
    simpa [rootWrites, hr] using hsame.symm
  | some root =>
    rw [hr] at hroot
    have hrows : (applyAll (ws ++ g.nodes.map (nodeWrite id) ++ g.edges.map (edgeWrite id))
        s).versionRows id ≠ [] := by
      rw [applyAll_append, applyAll_append, applyAll_edgeWrites, applyAll_nodeWrites]
      exact hpresent
    obtain ⟨hok, herror⟩ := run_setRoot hrows (some root)
    change (setRoot id (some root)).run.run s _ = _ at hroot
    by_cases hmem : ∀ r, some root = some r → ∃ n ∈ (applyAll (ws ++ g.nodes.map (nodeWrite id) ++
        g.edges.map (edgeWrite id)) s).nodesOf id, n.id = r
    · rw [hok hmem] at hroot
      rw [← (Prod.mk.inj hroot).2]
      simp [rootWrites, hr]
    · rw [herror hmem] at hroot
      cases hroot

/-- The row of a version that is created after those there are. -/
def nextRow (id p : UUID) (now : Time) (s : Store) : Version :=
  ⟨id, p, (s.versionNumbers p).length + 1, .draft, none, now, none⟩

theorem cleared_nextRow {id p : UUID} (hs : Design s) (hnew : ∀ w ∈ s.versions, w.id ≠ id)
    (howned : ∃ q ∈ s.playbooks, q.id = p) (now : Time) :
    Cleared id (nextRow id p now s) (applyAll [.insertVersion (nextRow id p now s)] s) :=
  @cleared_insertVersion _ hs (nextRow id p now s) hnew howned rfl rfl rfl rfl

theorem ok_lockRow {β : Type} {key : LockKey} {mode : Txn.LockMode} {f : Store → Option β}
    {onError : Err → Err} {row : β}
    (hrun : (sql (fun s => .lockRow key mode (f s)) onError).run.run s ws = (.ok row, ws')) :
    f (applyAll ws s) = some row ∧ ws' = ws := by
  obtain ⟨hresult, hws⟩ := ok_of_sql hrun
  cases hf : f (applyAll ws s) with
  | none => simp [Answer.lockRow, Answer.fail, hf] at hresult
  | some row' =>
    rw [hf] at hresult hws
    obtain rfl : row' = row := Except.ok.inj hresult
    exact ⟨rfl, by simpa [Answer.lockRow] using hws⟩

theorem ok_loadSource {src : UUID} {source : Option Definition}
    (hrun : (loadSource (some src)).run.run s [] = (.ok source, ws')) :
    ∃ row ∈ s.versions, row.id = src ∧ source = some ⟨row, s.graphOf row⟩ ∧ ws' = [] := by
  obtain ⟨row, ws₁, hlock, hrun⟩ := Txn.Body.ok_of_run_bind hrun
  obtain ⟨hrow, rfl⟩ := ok_lockRow hlock
  obtain ⟨loaded, ws₂, hload, hrun⟩ := Txn.Body.ok_of_run_bind hrun
  rw [run_loadDefinition hrow] at hload
  obtain ⟨hloaded, rfl⟩ := Prod.mk.inj hload
  obtain ⟨hsource, rfl⟩ := Prod.mk.inj hrun
  obtain ⟨hmem, hid⟩ := List.mem_filter.mp (List.mem_of_mem_head? hrow)
  have hid : row.id = src := of_decide_eq_true hid
  refine ⟨row, hmem, hid, ?_, rfl⟩
  rw [← Except.ok.inj hsource, ← Except.ok.inj hloaded]
  rfl

theorem ok_nextVersion {p : UUID} {next : Nat} (hs : Design (applyAll ws s))
    (hrun : (nextVersion p).run.run s ws = (.ok next, ws')) :
    next = ((applyAll ws s).versionNumbers p).length + 1 ∧ ws' = ws := by
  obtain ⟨-, hresult, hws⟩ := ok_of_guarded hrun
  rw [← Except.ok.inj hresult, foldl_max_of_numbered (hs.numbered p)]
  exact ⟨rfl, by simpa [Answer.read] using hws⟩

theorem ok_insertVersion {id p : UUID} {now : Time} {number : Nat} {v : Version}
    (hrun : (insertVersion id now p number).run.run s ws = (.ok v, ws')) :
    v = ⟨id, p, number, .draft, none, now, none⟩ ∧ ws' = ws ++ [.insertVersion v] ∧
      (∀ w ∈ (applyAll ws s).versions, w.id ≠ id) ∧
        ∃ q ∈ (applyAll ws s).playbooks, q.id = p := by
  obtain ⟨hchecks, hresult, hws⟩ := ok_of_guarded hrun
  simp only [List.forall_mem_cons] at hchecks
  obtain ⟨-, hnew, -, howned, -⟩ := hchecks
  obtain rfl := Except.ok.inj hresult
  exact ⟨rfl, hws, by simpa using hnew, by simpa using howned⟩

/-- A transaction that has copied a version has found its row, in the playbook it was told.
It writes the copy of the graph that it read to a version that was not there. -/
theorem ok_createVersionBody {p src id : UUID} {fresh : Nat → UUID} {now : Time} {d : Definition}
    (hs : Design s)
    (hrun : (createVersionBody p (some src) id fresh now).run.run s [] = (.ok d, ws')) :
    ∃ source ∈ s.versions, source.id = src ∧ source.playbookID = p ∧
      (∀ w ∈ s.versions, w.id ≠ id) ∧ (∃ q ∈ s.playbooks, q.id = p) ∧
        ws' = [.insertVersion (nextRow id p now s)] ++
          graphWrites id (cloneGraph fresh (s.graphOf source)) := by
  obtain ⟨loaded, ws₁, hsource, hrun⟩ := Txn.Body.ok_of_run_bind hrun
  obtain ⟨source, hmem, hid, rfl, rfl⟩ := ok_loadSource hsource
  obtain ⟨row, ws₂, hlock, hrun⟩ := Txn.Body.ok_of_run_bind hrun
  obtain ⟨-, rfl⟩ := ok_lockRow hlock
  obtain ⟨_, ws₃, howner, hrun⟩ := Txn.Body.ok_of_run_bind hrun
  obtain ⟨hplaybook, rfl⟩ : source.playbookID = p ∧ ws₃ = [] := by
    rw [checkOwner] at howner
    split_ifs at howner with hsame
    · cases howner
    · exact ⟨not_not.mp hsame, (Prod.mk.inj howner).2.symm⟩
  obtain ⟨next, ws₄, hnext, hrun⟩ := Txn.Body.ok_of_run_bind hrun
  have hempty : Design (applyAll ([] : List Write) s) := hs
  obtain ⟨rfl, rfl⟩ := ok_nextVersion hempty hnext
  obtain ⟨version, ws₅, hinsert, hrun⟩ := Txn.Body.ok_of_run_bind hrun
  obtain ⟨rfl, rfl, hnew, howned⟩ := ok_insertVersion hinsert
  obtain ⟨_, ws₆, hclone, hload⟩ := Txn.Body.ok_of_run_bind hrun
  have hcleared := cleared_nextRow hs hnew howned now
  obtain rfl := ok_writeGraph hcleared.present hclone
  have hrow := (hcleared.written (g := cloneGraph fresh (s.graphOf source))).1
  rw [run_loadDefinition (List.head?_eq_some_iff.mpr ⟨[], hrow⟩)] at hload
  exact ⟨source, hmem, hid, hplaybook, hnew, howned, (Prod.mk.inj hload).2.symm⟩

end Interbellum
