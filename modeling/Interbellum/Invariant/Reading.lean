import Interbellum.Invariant.Records
import Interbellum.Service.InvestigationService

/-!
# Reads outside of a transaction

A statement on the pool answers from what is committed when it runs. What it returns of
alerts, playbooks and published versions stays true, so that several such reads fit
together although other clients commit between them.

* `keeps_getAlert`, `keeps_getVersion`, `keeps_getPlaybook`: what a read returns holds later.
* `keeps_getAlert_of_mem`, `keeps_getVersion_of_published`: what was there when the read was
  sent is what it returns.
-/

namespace Interbellum

open PlaybookRepository
open Txn (applyAll)

variable {s : Store} {G : Store → Store → Prop}

theorem commits_nil {ls : Locks} (hs : Valid s) (hG : G s s) :
    rules.Commits G s ([] : List Write) ls where
  inv := hs
  evolves := Evolves.refl s
  guarantee := hG
  others := fun _ _ l _ => Same.refl l.1 s

section

variable {β : Type} {f : Store → Answer β} {onError : Err → Err}

/-- The rule for a read on the pool. -/
theorem keeps_pool_read {Q : Except Err β → Store → Prop} (hG : ∀ t, G t t)
    (hwrites : ∀ t, (f t).writes = [])
    (h : ∀ t, Valid t → Evolves s t → ∀ u, Valid u → Evolves t u →
      Q ((f t).result.mapError onError) u) :
    (pool (sql f onError)).Keeps rules G Q s := by
  refine keeps_pool_sql ?_
  intro t ht het
  rw [hwrites t]
  exact ⟨commits_nil ht (hG t), h t ht het⟩

@[simp] theorem row_writes (r : Option β) : (Answer.row r).writes = [] := by
  cases r <;> rfl

theorem row_result {r : Option β} {b : β} (h : (Answer.row r).result = .ok b) : r = some b := by
  cases r with
  | none => cases h
  | some b' => exact congrArg some (Except.ok.inj h)

/-- A query of at most one row returns what its row satisfies, then and later, or has no row. -/
theorem keeps_pool_row {q : Store → Option β} {E : Err → Prop} {P : β → Store → Prop}
    (hG : ∀ t, G t t) (hE : E (onError .noRows))
    (h : ∀ t, Valid t → Evolves s t → ∀ b, q t = some b → ∀ u, Evolves t u → P b u) :
    (pool (sql (fun s => .row (q s)) onError)).Keeps rules G (Yields E P) s := by
  refine keeps_pool_read hG (fun _ => row_writes _) ?_
  intro t ht het u _ heu
  cases hq : q t with
  | none => exact hE
  | some b => exact h t ht het b hq u heu

/-- A query for a row that is there, and stays, returns it. -/
theorem keeps_pool_row_of_mem {q : Store → Option β} {b : β} (hG : ∀ t, G t t)
    (h : ∀ t, Valid t → Evolves s t → q t = some b) :
    (pool (sql (fun s => .row (q s)) onError)).Keeps rules G (fun r _ => r = .ok b) s := by
  refine keeps_pool_read hG (fun _ => row_writes _) ?_
  intro t ht het u _ _
  rw [h t ht het]
  rfl

end

/-! ## Alerts -/

/-- The error of a read that finds no row. -/
def NotFound (e : AppError) : Prop := e.code = .notFound

theorem keeps_getAlert (hG : ∀ t, G t t) (id : UUID) :
    (AlertRepository.get id).run.Keeps rules G (Yields NotFound fun a u => a ∈ u.alerts ∧
      a.id = id) s := by
  refine keeps_onPool_yields (keeps_pool_row hG rfl ?_)
  intro t _ _ a ha u heu
  exact ⟨heu.alerts a (List.mem_of_find?_eq_some ha), by simpa using List.find?_some ha⟩

theorem find?_of_mem {α β : Type} [DecidableEq β] {f : α → β} {l : List α} {a : α}
    (hnodup : (l.map f).Nodup) (ha : a ∈ l) : l.find? (fun b => f b = f a) = some a := by
  cases hfind : l.find? (fun b => f b = f a) with
  | none =>
    have hnone := List.find?_eq_none.mp hfind a ha
    simp at hnone
  | some b =>
    have hb : f b = f a := by simpa using List.find?_some hfind
    rw [List.inj_on_of_nodup_map hnodup (List.mem_of_find?_eq_some hfind) ha hb]

theorem keeps_getAlert_of_mem (hG : ∀ t, G t t) {a : Alert} (ha : a ∈ s.alerts) :
    (AlertRepository.get a.id).run.Keeps rules G (fun r _ => r = .ok a) s :=
  keeps_onPool_ok (keeps_pool_row_of_mem hG fun _ ht het =>
    find?_of_mem ht.alert_ids (het.alerts a ha))

/-! ## Versions -/

theorem mem_versionRows {id : UUID} {v : Version} :
    v ∈ s.versionRows id ↔ v ∈ s.versions ∧ v.id = id := by
  simp [Store.versionRows]

/-- The read of a version, of which only published ones keep their graph until the next
statement runs. -/
theorem keeps_getVersion (hs : Valid s) (hG : ∀ t, G t t) (id : UUID) :
    (getVersion id).run.Keeps rules G (Yields NotFound fun d u => d.version.id = id ∧
      (d.version.status = .published → d.version ∈ u.versions ∧ d.graph = u.graphOf d.version))
      s := by
  refine keeps_onPool_yields (keeps_pool_bind (P := fun v u => v.id = id ∧
    (v.status = .published → v ∈ u.versions)) hs (keeps_pool_row hG rfl ?_) ?_)
  · intro t _ _ v hv u heu
    obtain ⟨hmem, hid⟩ := mem_versionRows.mp (List.mem_of_mem_head? hv)
    exact ⟨hid, heu.published hmem⟩
  · rintro v t ht - ⟨rfl, hmem⟩
    refine keeps_pool_bind (P := fun g u => v.status = .published → g = u.graphOf v) ht ?_ ?_
    · refine keeps_pool_bind (P := fun nodes u => v.status = .published →
        nodes = sortNodes (u.nodesOf v.id)) ht (keeps_pool_read hG (fun _ => rfl) ?_) ?_
      · intro u hu heu w _ hew hp
        have hframe := hew.frozen v (heu.published (hmem hp) hp) hp
        simp only [Store.nodesOf, hframe.1]
      · intro nodes u hu heu hnodes
        refine keeps_pool_bind (P := fun edges u => v.status = .published →
          edges = sortEdgeRows (u.edgesOf v.id)) hu (keeps_pool_read hG (fun _ => rfl) ?_) ?_
        · intro w hw hew x _ hex hp
          have hframe := hex.frozen v (hew.published (heu.published (hmem hp) hp) hp) hp
          simp only [Store.edgesOf, hframe.2]
        · intro edges w hw hew hedges x _ hex hp
          have hmemw : v ∈ w.versions := hew.published (heu.published (hmem hp) hp) hp
          have hframe := hex.frozen v hmemw hp
          have hnodesw := hew.frozen v (heu.published (hmem hp) hp) hp
          rw [hnodes hp, hedges hp]
          simp only [Store.graphOf, Store.nodesOf, Store.edgesOf, hframe, hnodesw]
    · intro g u hu heu hg w _ hew
      refine ⟨rfl, fun hp => ?_⟩
      have hmemu : v ∈ u.versions := heu.published (hmem hp) hp
      have hframe := hew.frozen v hmemu hp
      refine ⟨hew.published hmemu hp, ?_⟩
      rw [hg hp]
      simp only [Store.graphOf, Store.nodesOf, Store.edgesOf, hframe]

theorem versionRows_of_mem (hs : Valid s) {v : Version} (hv : v ∈ s.versions) :
    (s.versionRows v.id).head? = some v := by
  rw [Store.versionRows, List.head?_filter]
  exact find?_of_mem hs.version_ids hv

/-- The read of a version that is published when the read is sent. -/
theorem keeps_getVersion_of_published (hs : Valid s) (hG : ∀ t, G t t) {v : Version}
    (hv : v ∈ s.versions) (hp : v.status = .published) :
    (getVersion v.id).run.Keeps rules G (fun r _ => r = .ok ⟨v, s.graphOf v⟩) s := by
  have hrows : ∀ t, Evolves s t → t.nodesOf v.id = s.nodesOf v.id ∧
      t.edgesOf v.id = s.edgesOf v.id := by
    intro t het
    have hframe := het.frozen v hv hp
    simp only [Store.nodesOf, Store.edgesOf, hframe, and_self]
  refine keeps_onPool_ok (keeps_pool_bind_ok (b := v) hs (keeps_pool_row_of_mem hG ?_) ?_)
  · exact fun t ht het => versionRows_of_mem ht (het.published hv hp)
  · intro t ht het
    refine keeps_pool_bind_ok (b := s.graphOf v) ht ?_ ?_
    · refine keeps_pool_bind_ok (b := sortNodes (s.nodesOf v.id)) ht
        (keeps_pool_read hG (fun _ => rfl) ?_) ?_
      · intro u _ heu _ _ _
        show Except.ok (sortNodes (u.nodesOf v.id)) = _
        rw [(hrows u (het.trans heu)).1]
      · intro u hu heu
        refine keeps_pool_bind_ok (b := sortEdgeRows (s.edgesOf v.id)) hu
          (keeps_pool_read hG (fun _ => rfl) ?_) ?_
        · intro w _ hew _ _ _
          show Except.ok (sortEdgeRows (w.edgesOf v.id)) = _
          rw [(hrows w ((het.trans heu).trans hew)).2]
        · exact fun _ _ _ _ _ _ => rfl
    · exact fun _ _ _ _ _ _ => rfl

/-! ## Playbooks -/

theorem keeps_getPlaybook (hs : Valid s) (hG : ∀ t, G t t) (id : UUID) :
    (PlaybookRepository.get id).run.Keeps rules G (Yields NotFound fun r u =>
      r.1 ∈ u.playbooks ∧ r.1.id = id) s := by
  refine keeps_onPool_yields (keeps_pool_bind (P := fun p u => p ∈ u.playbooks ∧ p.id = id) hs
    (keeps_pool_row hG rfl ?_) ?_)
  · intro t _ _ p hp u heu
    obtain ⟨hmem, hid⟩ := List.mem_filter.mp (List.mem_of_mem_head? hp)
    exact ⟨heu.playbooks p hmem, of_decide_eq_true hid⟩
  · rintro p t ht - ⟨hmem, hid⟩
    refine keeps_pool_bind (P := fun _ _ => True) ht (keeps_pool_read hG (fun _ => rfl) ?_) ?_
    · exact fun _ _ _ _ _ _ => trivial
    · exact fun _ u _ heu _ w _ hew => ⟨(heu.trans hew).playbooks p hmem, hid⟩

end Interbellum
