import Interbellum.Invariant.Slices
import Interbellum.Txn.Deadlock

/-!
# The order in which transactions lock rows

A transaction comes to its locks in the order of `LockKey.rank`: investigations before
versions, a version that is there before its playbook, and a version that is being created
after it. Nodes, edges and their labels are only locked under a lock on the version they
belong to.

* `orders_editing`: the rule for the statements of a transaction that has a version to itself.
* `orders_createBody`, `orders_createVersionBody`, `orders_replaceGraphBody`,
  `orders_publishBody`, `orders_applyDecisionBody`: the transactions keep to the order.
-/

namespace Interbellum

open PlaybookRepository InvestigationRepository
open Txn (applyAll applyAll_nil applyAll_append)

/-! ## The hierarchy -/

/-- The version that each graph id belongs to. -/
structure Owner where
  node : UUID → UUID
  edge : UUID → UUID

def LockKey.under (owner : Owner) : LockKey → Option LockKey
  | .node id => some (.version (owner.node id))
  | .edge id => some (.version (owner.edge id))
  | .edgeLabel fromNodeID _ => some (.version (owner.node fromNodeID))
  | .playbook _ | .version _ | .versionNumber _ _ | .alert _ | .externalID _ | .investigation _
  | .step _ | .stepSequence _ _ | .stepKey _ _ => none

/-- The keys of the last line are under another one, and need no rank. -/
def LockKey.rank (s : Store) : LockKey → Nat
  | .investigation _ => 0
  | .alert _ => 1
  | .externalID _ => 2
  | .step _ => 3
  | .stepSequence _ _ => 4
  | .version id => if s.versions.any (fun v => v.id = id) then 5 else 7
  | .playbook _ => 6
  | .versionNumber _ _ => 8
  | .stepKey _ _ => 9
  | .node _ | .edge _ | .edgeLabel _ _ => 10

def hierarchy (owner : Owner) (s : Store) : Txn.Hierarchy LockKey :=
  ⟨LockKey.rank s, LockKey.under owner⟩

/-- The nodes and edges belong to the versions they are rows of. -/
structure Store.OwnedBy (owner : Owner) (s : Store) : Prop where
  nodes : ∀ r ∈ s.nodes, owner.node r.node.id = r.versionID
  edges : ∀ r ∈ s.edges, owner.edge r.edge.id = r.versionID ∧
    owner.node r.edge.fromNodeID = r.versionID

/-- What the graph of version `id` is made of belongs to this version. -/
def Graph.OwnedBy (owner : Owner) (id : UUID) (g : Graph) : Prop :=
  (∀ n ∈ g.nodes, owner.node n.id = id) ∧ ∀ e ∈ g.edges, owner.edge e.id = id

variable {owner : Owner} {s t : Store} {id p : UUID} {ws : List Write} {ls ls' : Locks}

theorem Store.OwnedBy.nodesOf (h : t.OwnedBy owner) {n : Node} (hn : n ∈ t.nodesOf id) :
    owner.node n.id = id := by
  obtain ⟨r, hr, rfl, rfl⟩ := mem_nodesOf.mp hn
  exact h.nodes r hr

theorem Store.OwnedBy.edgesOf (h : t.OwnedBy owner) {e : Edge} (he : e ∈ t.edgesOf id) :
    owner.edge e.id = id ∧ owner.node e.fromNodeID = id := by
  obtain ⟨r, hr, rfl, rfl⟩ := mem_edgesOf.mp he
  exact h.edges r hr

theorem Store.OwnedBy.of_eq (h : s.OwnedBy owner) (hnodes : t.nodes = s.nodes)
    (hedges : t.edges = s.edges) : t.OwnedBy owner :=
  ⟨hnodes ▸ h.nodes, hedges ▸ h.edges⟩

theorem owned_of_any (h : t.OwnedBy owner) {nodeID : UUID}
    (hany : (t.nodesOf id).any (fun n => n.id = nodeID) = true) : owner.node nodeID = id := by
  obtain ⟨n, hn, rfl⟩ : ∃ n ∈ t.nodesOf id, n.id = nodeID := by simpa using hany
  exact h.nodesOf hn

theorem rank_of_mem {v : Version} (hv : v ∈ s.versions) :
    LockKey.rank s (.version v.id) = 5 := by
  have hany : s.versions.any (fun w => w.id = v.id) = true :=
    List.any_eq_true.mpr ⟨v, hv, decide_eq_true rfl⟩
  rw [LockKey.rank, if_pos hany]

theorem rank_version (s : Store) (id : UUID) :
    5 ≤ LockKey.rank s (.version id) ∧ LockKey.rank s (.version id) ≤ 7 := by
  rw [LockKey.rank]
  split <;> decide

/-! ## Rules for statements -/

section

variable {β : Type} {H : Txn.Hierarchy LockKey} {Q : β → List Write → Locks → Prop}
  {onError : Err → Err}

theorem orders_sql {f : Store → Answer β} (hlocks : H.InOrder ls (f (applyAll ws s)).locks)
    (hok : ∀ b, (f (applyAll ws s)).result = .ok b →
      Q b (ws ++ (f (applyAll ws s)).writes) (ls ++ (f (applyAll ws s)).locks)) :
    (sql f onError).run.Orders H s Q ws ls := by
  refine ⟨hlocks, ?_⟩
  cases hr : (f (applyAll ws s)).result with
  | error e =>
    simp only [hr]
    trivial
  | ok b =>
    simp only [hr]
    exact hok b hr

/-- A statement that fails a check has asked for nothing. -/
theorem orders_checked {violations : Store → List (Bool × Err)} {answer : Store → Answer β}
    (h : (∀ v ∈ violations (applyAll ws s), v.1 = false) →
      H.InOrder ls (answer (applyAll ws s)).locks ∧
        ∀ b, (answer (applyAll ws s)).result = .ok b →
          Q b (ws ++ (answer (applyAll ws s)).writes) (ls ++ (answer (applyAll ws s)).locks)) :
    (sql (fun s => .guarded (violations s) (answer s)) onError).run.Orders H s Q ws ls := by
  have hboth := Answer.of_guarded (P := fun a => H.InOrder ls a.locks ∧
    ∀ b, a.result = .ok b → Q b (ws ++ a.writes) (ls ++ a.locks))
    (fun e => ⟨trivial, fun b hb => nomatch hb⟩) h
  exact orders_sql hboth.1 hboth.2

/-- The answer neither locks nor writes. -/
def Answer.Quiet (a : Answer β) : Prop := a.locks = [] ∧ a.writes = []

theorem Answer.quiet_row (r : Option β) : (Answer.row r).Quiet := by
  cases r <;> exact ⟨rfl, rfl⟩

theorem orders_quiet {f : Store → Answer β} (hquiet : (f (applyAll ws s)).Quiet)
    (hQ : ∀ b, (f (applyAll ws s)).result = .ok b → Q b ws ls) :
    (sql f onError).run.Orders H s Q ws ls := by
  obtain ⟨hlocks, hwrites⟩ := hquiet
  refine orders_sql ?_ ?_
  · rw [hlocks]
    trivial
  · intro b hb
    rw [hlocks, hwrites, List.append_nil, List.append_nil]
    exact hQ b hb

theorem orders_lockRow {f : Store → Option β} {key : LockKey} {mode : Txn.LockMode}
    (h : ∀ b, f (applyAll ws s) = some b → H.Allows ls (key, mode) ∧
      Q b ws (ls ++ [(key, mode)])) :
    (sql (fun s => .lockRow key mode (f s)) onError).run.Orders H s Q ws ls := by
  cases hrow : f (applyAll ws s) with
  | none =>
    refine orders_quiet ?_ ?_ <;> simp only [hrow]
    · exact ⟨rfl, rfl⟩
    · exact fun b hb => nomatch hb
  | some b =>
    obtain ⟨hallows, hQ⟩ := h b hrow
    refine orders_sql ?_ ?_ <;> simp only [hrow, Answer.lockRow]
    · exact ⟨hallows, trivial⟩
    · intro b' hb
      obtain rfl : b = b' := Except.ok.inj hb
      rwa [List.append_nil]

end

/-! ## Inside of a version -/

/-- What a transaction knows that has version `id`, of playbook `p`, to itself. -/
structure InVersion (owner : Owner) (id p : UUID) (t : Store) : Prop where
  owned : t.OwnedBy owner
  playbook : ∀ v ∈ t.versions, v.id = id → v.playbookID = p

/-- The locks of such a transaction. It may have come to the playbook, or still be before it. -/
structure HasVersion (owner : Owner) (s : Store) (id p : UUID) (ls : Locks) : Prop where
  lock : (.version id, .update) ∈ ls
  playbook : (∃ m, (.playbook p, m) ∈ ls) ∨
    ∀ h ∈ ls, h.1.under owner = none → h.1.rank s < LockKey.rank s (.playbook p)

/-- The locks that such a transaction asks for. -/
def Within (owner : Owner) (id p : UUID) (l : LockKey × Txn.LockMode) : Prop :=
  l.1 = .version id ∨ l = (.playbook p, .keyShare) ∨ l.1.under owner = some (.version id)

theorem within_node {nodeID : UUID} (h : owner.node nodeID = id) (mode : Txn.LockMode) :
    Within owner id p (.node nodeID, mode) := .inr (.inr (by rw [LockKey.under, h]))

theorem within_edge {edgeID : UUID} (h : owner.edge edgeID = id) (mode : Txn.LockMode) :
    Within owner id p (.edge edgeID, mode) := .inr (.inr (by rw [LockKey.under, h]))

theorem within_edgeLabel {nodeID : UUID} (h : owner.node nodeID = id) (label : String)
    (mode : Txn.LockMode) : Within owner id p (.edgeLabel nodeID label, mode) :=
  .inr (.inr (by rw [LockKey.under, h]))

theorem HasVersion.locks (h : HasVersion owner s id p ls)
    (hls : ∀ l ∈ ls', Within owner id p l) :
    (hierarchy owner s).InOrder ls ls' ∧ HasVersion owner s id p (ls ++ ls') := by
  induction ls' generalizing ls with
  | nil =>
    rw [List.append_nil]
    exact ⟨trivial, h⟩
  | cons l rest ih =>
    have hlock : (.version id, .update) ∈ ls ++ [l] := List.mem_append_left _ h.lock
    have hone : (hierarchy owner s).Allows ls l ∧ HasVersion owner s id p (ls ++ [l]) := by
      rcases l with ⟨key, mode⟩
      rcases hls _ List.mem_cons_self with hkey | hkey | hkey
      · obtain rfl : key = .version id := hkey
        refine ⟨Txn.Hierarchy.allows_held rfl h.lock (Txn.LockMode.update_covers _), hlock, ?_⟩
        rcases h.playbook with ⟨m, hm⟩ | hbefore
        · exact .inl ⟨m, List.mem_append_left _ hm⟩
        · refine .inr ?_
          intro h' hh' hunder
          rcases List.mem_append.mp hh' with hh' | hh'
          · exact hbefore h' hh' hunder
          · rw [List.mem_singleton.mp hh']
            exact hbefore (.version id, .update) h.lock rfl
      · obtain ⟨rfl, rfl⟩ := Prod.mk.inj hkey
        refine ⟨?_, hlock, .inl ⟨_, List.mem_append_right _ (List.mem_singleton_self _)⟩⟩
        rcases h.playbook with ⟨m, hm⟩ | hbefore
        · exact Txn.Hierarchy.allows_held rfl hm (Txn.LockMode.covers_keyShare m)
        · exact Txn.Hierarchy.allows_above rfl hbefore
      · refine ⟨Txn.Hierarchy.allows_under hkey h.lock (.inr rfl), hlock, ?_⟩
        rcases h.playbook with ⟨m, hm⟩ | hbefore
        · exact .inl ⟨m, List.mem_append_left _ hm⟩
        · refine .inr ?_
          intro h' hh' hunder
          rcases List.mem_append.mp hh' with hh' | hh'
          · exact hbefore h' hh' hunder
          · rw [List.mem_singleton.mp hh', hkey] at hunder
            cases hunder
    obtain ⟨hrest, hall⟩ := ih hone.2 fun l' hl' => hls l' (List.mem_cons_of_mem _ hl')
    rw [List.append_assoc] at hall
    exact ⟨⟨hone.1, hrest⟩, hall⟩

/-- What holds before and after each statement of such a transaction. -/
def Inside (owner : Owner) (s : Store) (id p : UUID) (ws : List Write) (ls : Locks) : Prop :=
  InVersion owner id p (applyAll ws s) ∧ HasVersion owner s id p ls

namespace InVersion

variable {v : Version}

theorem of_head (h : InVersion owner id p t) (hrow : (t.versionRows id).head? = some v) :
    v.playbookID = p := by
  obtain ⟨hv, hid⟩ := List.mem_filter.mp (List.mem_of_mem_head? hrow)
  exact h.playbook v hv (of_decide_eq_true hid)

theorem updated (h : InVersion owner id p t) {q : Version → Bool} {f : Version → Version}
    (hid : ∀ v, (f v).id = v.id) (hplaybook : ∀ v, (f v).playbookID = v.playbookID) :
    InVersion owner id p { t with versions := updateWhere q f t.versions } := by
  refine ⟨h.owned.of_eq rfl rfl, ?_⟩
  intro v hv hvid
  rcases mem_updateWhere.mp hv with ⟨hv, -⟩ | ⟨w, hw, -, rfl⟩
  · exact h.playbook v hv hvid
  · rw [hplaybook]
    exact h.playbook w hw ((hid w).symm.trans hvid)

theorem insertNode (h : InVersion owner id p t) {row : NodeRow}
    (howner : owner.node row.node.id = row.versionID) :
    InVersion owner id p (t.write (.insertNode row)) := by
  refine ⟨⟨?_, h.owned.edges⟩, h.playbook⟩
  intro r hr
  rcases List.mem_append.mp hr with hr | hr
  · exact h.owned.nodes r hr
  · rw [List.mem_singleton.mp hr]
    exact howner

theorem insertEdge (h : InVersion owner id p t) {row : EdgeRow}
    (howner : owner.edge row.edge.id = row.versionID)
    (hfrom : owner.node row.edge.fromNodeID = row.versionID) :
    InVersion owner id p (t.write (.insertEdge row)) := by
  refine ⟨⟨h.owned.nodes, ?_⟩, h.playbook⟩
  intro r hr
  rcases List.mem_append.mp hr with hr | hr
  · exact h.owned.edges r hr
  · rw [List.mem_singleton.mp hr]
    exact ⟨howner, hfrom⟩

theorem deleteNodes (h : InVersion owner id p t) (nodes : List Node) :
    InVersion owner id p (t.write (.deleteNodes id nodes)) :=
  ⟨⟨fun r hr => h.owned.nodes r (List.mem_of_mem_filter hr), h.owned.edges⟩, h.playbook⟩

theorem deleteEdges (h : InVersion owner id p t) (edges : List Edge) :
    InVersion owner id p (t.write (.deleteEdges id edges)) :=
  ⟨⟨h.owned.nodes, fun r hr => h.owned.edges r (List.mem_of_mem_filter hr)⟩, h.playbook⟩

end InVersion

/-! ### The statements of such a transaction -/

/-- What is shown of the answer to a statement. -/
def Stays (owner : Owner) (id p : UUID) (t : Store) {β : Type} (a : Answer β) : Prop :=
  (∀ l ∈ a.locks, Within owner id p l) ∧ InVersion owner id p (applyAll a.writes t)

section

variable {β : Type} {onError : Err → Err}

theorem InVersion.stays (h : InVersion owner id p t) {a : Answer β} (hlocks : a.locks = [])
    (hwrites : a.writes = []) : Stays owner id p t a := by
  rw [Stays, hlocks, hwrites]
  exact ⟨fun l hl => (List.not_mem_nil hl).elim, h⟩

theorem orders_editing {f : Store → Answer β} (h : Inside owner s id p ws ls)
    (hf : ∀ t, InVersion owner id p t → Stays owner id p t (f t)) :
    (sql f onError).run.Orders (hierarchy owner s) s (fun _ => Inside owner s id p) ws ls := by
  obtain ⟨hwithin, hkept⟩ := hf _ h.1
  obtain ⟨horder, hlocks⟩ := h.2.locks hwithin
  refine orders_sql horder ?_
  intro b _
  refine ⟨?_, hlocks⟩
  rw [applyAll_append]
  exact hkept

theorem orders_editing_checked {violations : Store → List (Bool × Err)}
    {answer : Store → Answer β} (h : Inside owner s id p ws ls)
    (hf : ∀ t, InVersion owner id p t → (∀ v ∈ violations t, v.1 = false) →
      Stays owner id p t (answer t)) :
    (sql (fun s => .guarded (violations s) (answer s)) onError).run.Orders (hierarchy owner s) s
      (fun _ => Inside owner s id p) ws ls :=
  orders_editing h fun t ht => Answer.of_guarded (fun _ => ht.stays rfl rfl) (hf t ht)

theorem orders_setRoot (h : Inside owner s id p ws ls) (root : Option UUID) :
    (setRoot id root).run.Orders (hierarchy owner s) s (fun _ => Inside owner s id p) ws ls := by
  refine orders_editing h ?_
  intro t ht
  cases hrow : (t.versionRows id).head? with
  | none => exact ht.stays rfl rfl
  | some v =>
    refine Answer.of_guarded (fun _ => ht.stays rfl rfl) ?_
    intro hchecks
    refine ⟨?_, ht.updated (fun _ => rfl) fun _ => rfl⟩
    intro l hl
    rw [List.mem_cons, List.mem_cons, ht.of_head hrow] at hl
    rcases hl with rfl | rfl | hl
    · exact .inl rfl
    · exact .inr (.inl rfl)
    · obtain ⟨nodeID, hroot, rfl⟩ := List.mem_map.mp hl
      rw [Option.mem_toList] at hroot
      refine within_node (owned_of_any ht.owned ?_) _
      have hcheck := hchecks _ (List.mem_singleton_self _)
      rw [Option.mem_def.mp hroot] at hcheck
      simpa using hcheck

theorem orders_setPublished (h : Inside owner s id p ws ls) (now : Time) :
    (setPublished id now).run.Orders (hierarchy owner s) s (fun _ => Inside owner s id p)
      ws ls := by
  refine orders_editing h ?_
  intro t ht
  cases hrow : (t.versionRows id).head? with
  | none => exact ht.stays rfl rfl
  | some v =>
    refine ⟨?_, ht.updated (fun _ => rfl) fun _ => rfl⟩
    intro l hl
    rw [List.mem_cons, List.mem_singleton, ht.of_head hrow] at hl
    rcases hl with rfl | rfl
    · exact .inl rfl
    · exact .inr (.inl rfl)

theorem orders_deleteEdges (h : Inside owner s id p ws ls) :
    (deleteEdges id).run.Orders (hierarchy owner s) s (fun _ => Inside owner s id p) ws ls := by
  refine orders_editing_checked h ?_
  intro t ht _
  refine ⟨?_, ht.deleteEdges _⟩
  intro l hl
  obtain ⟨e, he, hl⟩ := List.mem_flatMap.mp hl
  obtain ⟨hedge, hfrom⟩ := ht.owned.edgesOf he
  rw [List.mem_cons, List.mem_singleton] at hl
  rcases hl with rfl | rfl
  · exact within_edge hedge _
  · exact within_edgeLabel hfrom _ _

theorem orders_deleteNodes (h : Inside owner s id p ws ls) :
    (deleteNodes id).run.Orders (hierarchy owner s) s (fun _ => Inside owner s id p) ws ls := by
  refine orders_editing_checked h ?_
  intro t ht _
  refine ⟨?_, ht.deleteNodes _⟩
  intro l hl
  obtain ⟨n, hn, rfl⟩ := List.mem_map.mp hl
  exact within_node (ht.owned.nodesOf hn) _

theorem orders_insertNode (h : Inside owner s id p ws ls) {n : Node}
    (howner : owner.node n.id = id) : (insertNode id n).run.Orders (hierarchy owner s) s
      (fun _ => Inside owner s id p) ws ls := by
  refine orders_editing_checked h ?_
  intro t ht _
  refine ⟨?_, ht.insertNode howner⟩
  intro l hl
  rw [List.mem_cons, List.mem_singleton] at hl
  rcases hl with rfl | rfl
  · exact within_node howner _
  · exact .inl rfl

theorem orders_insertEdge (h : Inside owner s id p ws ls) {e : Edge}
    (howner : owner.edge e.id = id) : (insertEdge id e).run.Orders (hierarchy owner s) s
      (fun _ => Inside owner s id p) ws ls := by
  refine orders_editing_checked h ?_
  intro t ht hchecks
  simp only [List.forall_mem_cons, Bool.not_eq_false'] at hchecks
  obtain ⟨-, -, -, -, hfrom, hto, -⟩ := hchecks
  refine ⟨?_, ht.insertEdge howner (owned_of_any ht.owned hfrom)⟩
  intro l hl
  simp only [List.mem_cons, List.not_mem_nil, or_false] at hl
  rcases hl with rfl | rfl | rfl | rfl | rfl
  · exact within_edge howner _
  · exact within_edgeLabel (owned_of_any ht.owned hfrom) _ _
  · exact .inl rfl
  · exact within_node (owned_of_any ht.owned hfrom) _
  · exact within_node (owned_of_any ht.owned hto) _

theorem orders_execBatch {α : Type} {statement : α → Db Unit} {items : List α}
    (hstatement : ∀ a ∈ items, ∀ ws ls, Inside owner s id p ws ls →
      (statement a).run.Orders (hierarchy owner s) s (fun _ => Inside owner s id p) ws ls)
    (h : Inside owner s id p ws ls) : (execBatch (items.map statement)).run.Orders
      (hierarchy owner s) s (fun _ => Inside owner s id p) ws ls := by
  induction items generalizing ws ls with
  | nil => exact h
  | cons a rest ih =>
    refine .bind ((hstatement a List.mem_cons_self ws ls h).mono ?_)
    exact fun _ _ _ => ih fun a' ha' => hstatement a' (List.mem_cons_of_mem _ ha')

theorem orders_clearGraph (h : Inside owner s id p ws ls) :
    (clearGraph id).run.Orders (hierarchy owner s) s (fun _ => Inside owner s id p) ws ls := by
  refine .bind ((orders_setRoot h none).mono fun _ _ _ h => ?_)
  refine .bind ((orders_deleteEdges h).mono fun _ _ _ h => ?_)
  exact orders_deleteNodes h

theorem orders_sendEdges (h : Inside owner s id p ws ls) {edges : List Edge}
    (hedges : ∀ e ∈ edges, owner.edge e.id = id) : (sendEdges id edges).run.Orders
      (hierarchy owner s) s (fun _ => Inside owner s id p) ws ls := by
  unfold sendEdges
  split
  · exact orders_execBatch (fun e he _ _ h => orders_insertEdge h (hedges e he)) h
  · trivial

theorem orders_writeGraph (h : Inside owner s id p ws ls) {g : Graph}
    (hgraph : g.OwnedBy owner id) :
    (writeGraph id g).run.Orders (hierarchy owner s) s (fun _ => Inside owner s id p) ws ls := by
  refine .bind ((orders_execBatch ?_ h).mono fun _ _ _ h => ?_)
  · exact fun n hn _ _ h => orders_insertNode h (hgraph.1 n hn)
  refine .bind ((orders_sendEdges h hgraph.2).mono fun _ _ _ h => ?_)
  cases g.rootNodeID with
  | none => exact h
  | some root => exact orders_setRoot h (some root)

end

/-! ## The transactions -/

section

variable {H : Txn.Hierarchy LockKey}

theorem orders_loadGraph {Q : Graph → List Write → Locks → Prop} {root : Option UUID}
    (hQ : ∀ g, Q g ws ls) : (loadGraph id root).run.Orders H s Q ws ls :=
  .bind (orders_quiet ⟨rfl, rfl⟩ fun _ _ => .bind (orders_quiet ⟨rfl, rfl⟩ fun _ _ => hQ _))

theorem orders_loadDefinition {Q : Definition → List Write → Locks → Prop}
    (hQ : ∀ d, Q d ws ls) : (loadDefinition id).run.Orders H s Q ws ls :=
  .bind (orders_quiet (Answer.quiet_row _) fun _ _ => .bind (orders_loadGraph fun _ => hQ _))

/-- What a transaction has left when it returns. -/
theorem Inside.owned (h : Inside owner s id p ws ls) : (applyAll ws s).OwnedBy owner := h.1.owned

/-- A row that is found can be locked first. -/
theorem orders_lockVersion {Q : Version → List Write → Locks → Prop} {mode : Txn.LockMode}
    (hQ : ∀ v ∈ s.versions, v.id = id → Q v [] [(.version id, mode)]) :
    (sql (fun s => .lockRow (.version id) mode (s.versionRows id).head?)
      (notFound "playbook version")).run.Orders (hierarchy owner s) s Q [] [] := by
  refine orders_lockRow ?_
  intro v hrow
  obtain ⟨hv, hid⟩ := List.mem_filter.mp (List.mem_of_mem_head? hrow)
  refine ⟨Txn.Hierarchy.allows_above rfl ?_, hQ v hv (of_decide_eq_true hid)⟩
  exact fun _ hl => (List.not_mem_nil hl).elim

/-- The version is locked before the playbook. -/
theorem inside_of_locked (hs : Valid s) (howned : s.OwnedBy owner) {v : Version}
    (hv : v ∈ s.versions) : Inside owner s v.id v.playbookID [] [(.version v.id, .update)] := by
  refine ⟨⟨howned, ?_⟩, List.mem_singleton_self _, .inr ?_⟩
  · intro w hw hid
    rw [List.inj_on_of_nodup_map hs.version_ids hw hv hid]
  · intro h hh _
    rw [List.mem_singleton.mp hh, rank_of_mem hv]
    exact Nat.lt_succ_self 5

theorem orders_replaceGraphBody (hs : Valid s) (howned : s.OwnedBy owner) {g : Graph}
    (hgraph : g.OwnedBy owner id) : (replaceGraphBody id g).run.Orders (hierarchy owner s) s
      (fun _ ws _ => (applyAll ws s).OwnedBy owner) [] [] := by
  refine .bind (orders_lockVersion ?_)
  rintro v hv rfl
  split
  · refine .bind ((orders_clearGraph (inside_of_locked hs howned hv)).mono fun _ _ _ h => ?_)
    refine .bind ((orders_writeGraph h hgraph).mono fun _ _ _ h => ?_)
    exact orders_loadDefinition fun _ => h.owned
  · trivial

theorem orders_publishBody (hs : Valid s) (howned : s.OwnedBy owner) (now : Time) :
    (publishBody id now).run.Orders (hierarchy owner s) s
      (fun _ ws _ => (applyAll ws s).OwnedBy owner) [] [] := by
  refine .bind (orders_lockVersion ?_)
  rintro v hv rfl
  split
  · refine .bind (orders_loadGraph fun g => ?_)
    split
    · refine .bind ((orders_setPublished (inside_of_locked hs howned hv) now).mono
        fun _ _ _ h => ?_)
      exact orders_loadDefinition fun _ => h.owned
    · trivial
  · trivial

/-- A version is inserted under a lock on its playbook, and whoever waits for it can hold
nothing that ranks higher. -/
theorem orders_insertVersion (howned : (applyAll ws s).OwnedBy owner)
    (hversions : (applyAll ws s).versions = s.versions) (now : Time) (number : Nat)
    (hplaybook : (.playbook p, .update) ∈ ls)
    (hbelow : ∀ h ∈ ls, h.1.under owner = none → h.1.rank s < 7) :
    (insertVersion id now p number).run.Orders (hierarchy owner s) s
      (fun v ws ls => v.id = id ∧ Inside owner s id p ws ls) ws ls := by
  refine orders_checked ?_
  intro hchecks
  simp only [List.forall_mem_cons, hversions] at hchecks
  obtain ⟨-, hnew, -⟩ := hchecks
  have hrank : LockKey.rank s (.version id) = 7 := by
    rw [LockKey.rank, hnew]
    rfl
  refine ⟨⟨Txn.Hierarchy.allows_above rfl ?_, Txn.Hierarchy.allows_above rfl ?_,
    Txn.Hierarchy.allows_held rfl ?_ (Txn.LockMode.covers_keyShare .update), trivial⟩, ?_⟩
  · intro l hl hunder
    show l.1.rank s < LockKey.rank s (.version id)
    rw [hrank]
    exact hbelow l hl hunder
  · intro l hl hunder
    show l.1.rank s < 8
    rcases List.mem_append.mp hl with hl | hl
    · exact Nat.lt_succ_of_lt (hbelow l hl hunder)
    · rw [List.mem_singleton.mp hl, hrank]
      exact Nat.lt_succ_self 7
  · simp [hplaybook]
  · intro v hv
    obtain rfl := Except.ok.inj hv
    refine ⟨rfl, ⟨?_, ?_⟩, by simp, .inl ⟨.update, by simp [hplaybook]⟩⟩
    · rw [applyAll_append]
      exact howned.of_eq rfl rfl
    · intro w hw hid
      rw [applyAll_append] at hw
      rcases List.mem_append.mp hw with hw | hw
      · rw [hversions] at hw
        exact absurd hid (by simpa using List.any_eq_false.mp hnew w hw)
      · rw [List.mem_singleton.mp hw]

theorem orders_insertPlaybook {Q : Playbook → List Write → Locks → Prop} (now : Time)
    (input : NewPlaybook) (hQ : ∀ pb, pb.id = p →
      Q pb [.insertPlaybook pb] [(.playbook p, .update)]) :
    (insertPlaybook p now input).run.Orders (hierarchy owner s) s Q [] [] := by
  refine orders_checked ?_
  intro _
  refine ⟨⟨Txn.Hierarchy.allows_above rfl fun _ hl => (List.not_mem_nil hl).elim, trivial⟩, ?_⟩
  intro pb hpb
  obtain rfl := Except.ok.inj hpb
  exact hQ _ rfl

theorem orders_createBody (howned : s.OwnedBy owner) (now : Time) {input : NewPlaybook}
    (hgraph : input.graph.OwnedBy owner id) :
    (createBody p id now input).run.Orders (hierarchy owner s) s
      (fun _ ws _ => (applyAll ws s).OwnedBy owner) [] [] := by
  refine .bind (orders_insertPlaybook now input ?_)
  rintro pb rfl
  refine .bind ((orders_insertVersion (howned.of_eq rfl rfl) rfl now 1
    (List.mem_singleton_self _) ?_).mono ?_)
  · intro h hh _
    rw [List.mem_singleton.mp hh]
    exact Nat.lt_succ_self 6
  · rintro v ws ls ⟨rfl, hinside⟩
    refine .bind ((orders_writeGraph hinside hgraph).mono fun _ _ _ h => ?_)
    exact .bind (orders_loadDefinition fun _ => h.owned)

/-- The locks of a transaction that is to create a version. -/
def BelowPlaybook (owner : Owner) (s : Store) (ls : Locks) : Prop :=
  ∀ h ∈ ls, h.1.under owner = none → h.1.rank s < 6

theorem orders_loadSource (cloneFrom : Option UUID) :
    (loadSource cloneFrom).run.Orders (hierarchy owner s) s
      (fun _ ws ls => ws = [] ∧ BelowPlaybook owner s ls) [] [] := by
  cases cloneFrom with
  | none => exact ⟨rfl, fun _ hl => (List.not_mem_nil hl).elim⟩
  | some source =>
    refine .bind (orders_lockVersion ?_)
    rintro v hv rfl
    refine .bind (orders_loadDefinition fun d => ⟨rfl, ?_⟩)
    intro h hh _
    rw [List.mem_singleton.mp hh, rank_of_mem hv]
    exact Nat.lt_succ_self 5

theorem orders_lockPlaybook {Q : Playbook → List Write → Locks → Prop}
    (hls : BelowPlaybook owner s ls) (hQ : ∀ pb, Q pb ws (ls ++ [(.playbook p, .update)])) :
    (lockPlaybook p).run.Orders (hierarchy owner s) s Q ws ls :=
  orders_lockRow fun pb _ => ⟨Txn.Hierarchy.allows_above rfl hls, hQ pb⟩

theorem orders_checkOwner {Q : Unit → List Write → Locks → Prop} {cloneFrom : Option UUID}
    {source : Option Definition} (hQ : Q () ws ls) :
    (checkOwner p cloneFrom source).run.Orders H s Q ws ls := by
  cases source with
  | none => exact hQ
  | some d =>
    rw [checkOwner]
    split
    · trivial
    · exact hQ

theorem orders_nextVersion {Q : Nat → List Write → Locks → Prop} (hQ : ∀ next, Q next ws ls) :
    (nextVersion p).run.Orders H s Q ws ls :=
  orders_quiet (Answer.of_guarded (fun _ => ⟨rfl, rfl⟩) fun _ => ⟨rfl, rfl⟩) fun _ _ => hQ _

theorem orders_writeClone (h : Inside owner s id p ws ls) {fresh : Nat → UUID}
    (hfresh : ∀ src, (cloneGraph fresh src).OwnedBy owner id)
    (source : Option Definition) : (writeClone id fresh source).run.Orders (hierarchy owner s) s
      (fun _ => Inside owner s id p) ws ls := by
  cases source with
  | none => exact h
  | some d => exact orders_writeGraph h (hfresh d.graph)

/-- The source of a copy is locked before the playbook, and the copy comes after both. -/
theorem orders_createVersionBody (howned : s.OwnedBy owner) (cloneFrom : Option UUID)
    {fresh : Nat → UUID} (now : Time)
    (hfresh : ∀ src, (cloneGraph fresh src).OwnedBy owner id) :
    (createVersionBody p cloneFrom id fresh now).run.Orders (hierarchy owner s) s
      (fun _ ws _ => (applyAll ws s).OwnedBy owner) [] [] := by
  refine .bind ((orders_loadSource cloneFrom).mono ?_)
  rintro source ws ls ⟨rfl, hbelow⟩
  refine .bind (orders_lockPlaybook hbelow fun pb => ?_)
  refine .bind (orders_checkOwner (.bind (orders_nextVersion fun next => ?_)))
  refine .bind ((orders_insertVersion howned rfl now next (by simp) ?_).mono ?_)
  · intro h hh hunder
    rcases List.mem_append.mp hh with hh | hh
    · exact Nat.lt_succ_of_lt (hbelow h hh hunder)
    · rw [List.mem_singleton.mp hh]
      exact Nat.lt_succ_self 6
  · rintro v ws ls ⟨rfl, hinside⟩
    refine .bind ((orders_writeClone hinside hfresh source).mono fun _ _ _ h => ?_)
    exact orders_loadDefinition fun _ => h.owned

theorem orders_lockInvestigation {Q : Investigation → List Write → Locks → Prop}
    (hQ : ∀ i ∈ s.investigations, i.id = id → Q i [] [(.investigation id, .update)]) :
    (lockInvestigation id).run.Orders (hierarchy owner s) s Q [] [] := by
  refine orders_lockRow ?_
  intro i hrow
  obtain ⟨hi, hid⟩ := List.mem_filter.mp (List.mem_of_mem_head? hrow)
  refine ⟨Txn.Hierarchy.allows_above rfl ?_, hQ i hi (of_decide_eq_true hid)⟩
  exact fun _ hl => (List.not_mem_nil hl).elim

theorem orders_findRecorded {Q : Option Step → List Write → Locks → Prop}
    {input : DecisionInput} (hQ : ∀ found, Q found ws ls) :
    (findRecorded id input).run.Orders H s Q ws ls := by
  unfold findRecorded
  cases input.idempotencyKey with
  | none => exact hQ none
  | some key =>
    refine orders_quiet (Answer.of_guarded (fun _ => ⟨rfl, rfl⟩) fun _ => ?_) fun _ _ => hQ _
    split
    · exact ⟨rfl, rfl⟩
    · split <;> exact ⟨rfl, rfl⟩

theorem orders_loadEdge {Q : Edge × Node → List Write → Locks → Prop} {edgeID : UUID}
    (hQ : ∀ found, Q found ws ls) :
    (loadEdgeWithDestination id edgeID).run.Orders H s Q ws ls := by
  refine orders_quiet ?_ fun _ _ => hQ _
  split
  · exact ⟨rfl, rfl⟩
  · exact Answer.quiet_row _

/-- The locks of a decision once it has inserted its step. -/
theorem orders_insertStep {Q : Step → List Write → Locks → Prop} {i : Investigation}
    {stepID : UUID} {now : Time} {input : DecisionInput} {edge : Edge} (howned : s.OwnedBy owner)
    (hQ : ∀ step row ls, (∀ l ∈ [(LockKey.investigation i.id, Txn.LockMode.update),
      (.version i.playbookVersionID, .keyShare)], l ∈ ls) → Q step [.insertStep row] ls) :
    (insertStep stepID now i input edge).run.Orders (hierarchy owner s) s Q []
      [(.investigation i.id, .update)] := by
  refine orders_checked ?_
  intro hchecks
  simp only [List.forall_mem_cons, Bool.not_eq_false', applyAll_nil] at hchecks
  obtain ⟨-, -, -, -, -, -, hnode, hedge, -⟩ := hchecks
  have hnode' : owner.node i.currentNodeID = i.playbookVersionID := owned_of_any howned hnode
  have hedge' : owner.edge edge.id = i.playbookVersionID := by
    obtain ⟨e, he, hid⟩ : ∃ e ∈ s.edgesOf i.playbookVersionID, e.id = edge.id := by
      simpa using hedge
    rw [← hid]
    exact (howned.edgesOf he).1
  have hversion := rank_version s i.playbookVersionID
  refine ⟨Txn.Hierarchy.inOrder_append.mpr ⟨⟨?_, ?_, ?_, ?_, ?_, ?_, trivial⟩, ?_⟩, ?_⟩
  · exact Txn.Hierarchy.allows_above rfl (by simp [hierarchy, LockKey.rank])
  · exact Txn.Hierarchy.allows_above rfl (by simp [hierarchy, LockKey.rank])
  · refine Txn.Hierarchy.allows_above rfl ?_
    intro h hh _
    refine Nat.lt_of_lt_of_le ?_ hversion.1
    simp only [List.cons_append, List.nil_append, List.mem_cons, List.not_mem_nil, or_false] at hh
    rcases hh with rfl | rfl | rfl <;> simp [hierarchy, LockKey.rank]
  · exact Txn.Hierarchy.allows_held rfl List.mem_cons_self (Txn.LockMode.update_covers _)
  · refine Txn.Hierarchy.allows_under (congrArg (some ∘ LockKey.version) hnode')
      (m := .keyShare) ?_ (.inl rfl)
    simp
  · refine Txn.Hierarchy.allows_under (congrArg (some ∘ LockKey.version) hedge')
      (m := .keyShare) ?_ (.inl rfl)
    simp
  · cases input.idempotencyKey with
    | none => trivial
    | some key =>
      refine ⟨Txn.Hierarchy.allows_above rfl ?_, trivial⟩
      intro h hh hunder
      show h.1.rank s < 9
      simp only [List.cons_append, List.nil_append, List.mem_cons, List.not_mem_nil, or_false] at hh
      rcases hh with rfl | rfl | rfl | rfl | rfl | rfl | rfl
      · simp [LockKey.rank]
      · simp [LockKey.rank]
      · simp [LockKey.rank]
      · exact Nat.lt_of_le_of_lt hversion.2 (by decide)
      · simp [LockKey.rank]
      · cases hunder
      · cases hunder
  · intro step _
    refine hQ step _ _ ?_
    simp

theorem orders_updateState (hs : Valid s) (howned : s.OwnedBy owner) {i next : Investigation}
    (hi : i ∈ s.investigations) (hid : next.id = i.id) {row : StepRow}
    (hls : ∀ l ∈ [(LockKey.investigation i.id, Txn.LockMode.update),
      (.version i.playbookVersionID, .keyShare)], l ∈ ls) :
    (updateInvestigationState next).run.Orders (hierarchy owner s) s
      (fun _ ws _ => (applyAll ws s).OwnedBy owner) [.insertStep row] ls := by
  have hrow : (s.investigationRows next.id).head? = some i := by
    rw [hid, Store.investigationRows, List.head?_filter]
    exact find?_of_mem hs.investigation_ids hi
  have hanswer : ∀ a, updatedState next (applyAll [.insertStep row] s) = a →
      (hierarchy owner s).InOrder ls a.locks ∧
        (applyAll a.writes (applyAll [.insertStep row] s)).OwnedBy owner := by
    rintro _ rfl
    have hrow' : ((applyAll [.insertStep row] s).investigationRows next.id).head? = some i := hrow
    rw [updatedState, hrow']
    refine Answer.of_guarded (P := fun a => (hierarchy owner s).InOrder ls a.locks ∧
      (applyAll a.writes (applyAll [.insertStep row] s)).OwnedBy owner)
      (fun _ => ⟨trivial, howned.of_eq rfl rfl⟩) ?_
    intro hchecks
    simp only [List.forall_mem_cons, Bool.not_eq_false'] at hchecks
    obtain ⟨-, -, hnode, -⟩ := hchecks
    have hnode' : owner.node next.currentNodeID = i.playbookVersionID :=
      owned_of_any (t := s) howned hnode
    refine ⟨⟨?_, ?_, trivial⟩, howned.of_eq rfl rfl⟩
    · refine Txn.Hierarchy.allows_held (m := .update) rfl ?_ (Txn.LockMode.update_covers _)
      rw [hid]
      exact hls _ List.mem_cons_self
    · refine Txn.Hierarchy.allows_under (congrArg (some ∘ LockKey.version) hnode')
        (m := .keyShare) ?_ (.inl rfl)
      exact List.mem_append_left _ (hls _ (List.mem_cons_of_mem _ (List.mem_singleton_self _)))
  refine orders_sql (hanswer _ rfl).1 ?_
  intro _ _
  rw [applyAll_append]
  exact (hanswer _ rfl).2

theorem orders_applyDecisionBody (hs : Valid s) (howned : s.OwnedBy owner) (stepID : UUID)
    (now txNow : Time) (input : DecisionInput) :
    (applyDecisionBody stepID now txNow id input).run.Orders (hierarchy owner s) s
      (fun _ ws _ => (applyAll ws s).OwnedBy owner) [] [] := by
  refine .bind (orders_lockInvestigation ?_)
  rintro i hi rfl
  refine .bind (orders_findRecorded fun recorded => ?_)
  cases recorded with
  | some existing => exact howned
  | none =>
    show Txn.Body.Orders _ _ _ (ExceptT.run (if _ then _ else _)) _ _
    split
    · trivial
    · refine .bind (orders_loadEdge fun found => ?_)
      cases hnext : i.decide found.1 found.2 now with
      | error e =>
        simp only [hnext]
        trivial
      | ok next =>
        simp only [hnext]
        refine .bind (orders_insertStep howned fun step row ls hls => ?_)
        exact .bind ((orders_updateState hs howned hi (decide_id hnext) hls).mono fun _ _ _ h => h)

end

end Interbellum
