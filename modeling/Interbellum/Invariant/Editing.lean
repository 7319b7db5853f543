import Interbellum.Invariant.Design

/-!
# Transactions that edit one version

Create, CreateVersion, ReplaceGraph and Publish write the rows of one version, which was not
published when they began, under a lock on it. `Editing` is their invariant from statement to
statement: what was written so far is covered by the locks, belongs to that version, and keeps
`Design`. `Drafting` says in addition that the version is still a draft.

* `Editing.commits`: such a transaction may commit.
* `Editing.unreferenced`: nothing refers to its version, whatever state it finds itself on.
-/

namespace Interbellum

open PlaybookRepository
open Txn (applyAll)

/-- The writes a transaction that edits version `id` makes. -/
def Write.Edits (id : UUID) : Write → Prop
  | .insertPlaybook _ => True
  | .insertVersion _ => True
  | .setRoot versionID _ => versionID = id
  | .setPublished versionID _ => versionID = id
  | .insertNode row => row.versionID = id
  | .deleteNodes versionID _ => versionID = id
  | .insertEdge row => row.versionID = id
  | .deleteEdges versionID _ => versionID = id
  | .insertAlert _ | .insertInvestigation _ | .setState _ _ _ _ _ | .insertStep _ => False

/-- What such writes leave as it was. -/
structure Edited (id : UUID) (s t : Store) : Prop where
  playbooks : ∀ p ∈ s.playbooks, p ∈ t.playbooks
  alerts : t.alerts = s.alerts
  investigations : t.investigations = s.investigations
  steps : t.steps = s.steps
  others : ∀ v ∈ s.versions, v.id ≠ id → v ∈ t.versions
  rows : ∀ id', id' ≠ id → t.nodeRows id' = s.nodeRows id' ∧ t.edgeRows id' = s.edgeRows id'
  self : ∀ v ∈ s.versions, v.id = id →
    ∃ v' ∈ t.versions, v'.id = id ∧ v'.playbookID = v.playbookID ∧ v'.version = v.version

theorem Edited.refl (id : UUID) (s : Store) : Edited id s s where
  playbooks := fun _ hp => hp
  alerts := rfl
  investigations := rfl
  steps := rfl
  others := fun _ hv _ => hv
  rows := fun _ _ => ⟨rfl, rfl⟩
  self := fun _ hv he => ⟨_, hv, he, rfl, rfl⟩

theorem Edited.trans {id : UUID} {s t u : Store} (h : Edited id s t) (h' : Edited id t u) :
    Edited id s u where
  playbooks := fun p hp => h'.playbooks p (h.playbooks p hp)
  alerts := h'.alerts.trans h.alerts
  investigations := h'.investigations.trans h.investigations
  steps := h'.steps.trans h.steps
  others := fun v hv hne => h'.others v (h.others v hv hne) hne
  rows := fun id' hne => ⟨(h'.rows id' hne).1.trans (h.rows id' hne).1,
    (h'.rows id' hne).2.trans (h.rows id' hne).2⟩
  self := by
    intro v hv he
    obtain ⟨v', hv', he', hp, hn⟩ := h.self v hv he
    obtain ⟨v'', hv'', he'', hp', hn'⟩ := h'.self v' hv' he'
    exact ⟨v'', hv'', he'', hp'.trans hp, hn'.trans hn⟩

/-- An update of the rows of version `id` that keeps their keys. -/
theorem edited_updateVersion {id : UUID} {f : Version → Version} (hid : ∀ v, (f v).id = v.id)
    (hplaybook : ∀ v, (f v).playbookID = v.playbookID)
    (hnumber : ∀ v, (f v).version = v.version) (s : Store) :
    Edited id s { s with versions := updateWhere (fun v => v.id = id) f s.versions } :=
  { Edited.refl id s with
    others := fun _ hv hne => mem_updateWhere.mpr (.inl ⟨hv, decide_eq_false hne⟩)
    self := fun v hv he => ⟨f v, mem_updateWhere.mpr (.inr ⟨v, hv, decide_eq_true he, rfl⟩),
      (hid v).trans he, hplaybook v, hnumber v⟩ }

theorem edited_write {id : UUID} {w : Write} (h : w.Edits id) (s : Store) :
    Edited id s (s.write w) := by
  -- the rows of another version are protected by the lock on it, which `w` does not need
  have hrows : (∀ id', id' ≠ id → .version id' ∉ w.keys) → ∀ id', id' ≠ id →
      (s.write w).nodeRows id' = s.nodeRows id' ∧ (s.write w).edgeRows id' = s.edgeRows id' := by
    intro hkeys id' hne
    have hsame := same_of_not_mem_keys (hkeys id' hne) s
    exact ⟨hsame.2.1.symm, hsame.2.2.symm⟩
  cases w with
  | insertPlaybook p =>
    exact { Edited.refl id s with playbooks := fun q hq => List.mem_append_left _ hq }
  | insertVersion v =>
    exact { Edited.refl id s with
      others := fun w hw _ => List.mem_append_left _ hw
      self := fun w hw he => ⟨w, List.mem_append_left _ hw, he, rfl, rfl⟩ }
  | setRoot versionID root =>
    cases h
    exact edited_updateVersion (f := Version.withRoot root) (fun _ => rfl) (fun _ => rfl)
      (fun _ => rfl) s
  | setPublished versionID now =>
    cases h
    exact edited_updateVersion (f := Version.published now) (fun _ => rfl) (fun _ => rfl)
      (fun _ => rfl) s
  | insertNode row =>
    cases h
    exact { Edited.refl _ s with rows := hrows fun _ hne => by simp [Write.keys, hne] }
  | deleteNodes versionID nodes =>
    cases h
    exact { Edited.refl _ s with rows := hrows fun _ hne => by simp [Write.keys, hne] }
  | insertEdge row =>
    cases h
    exact { Edited.refl _ s with rows := hrows fun _ hne => by simp [Write.keys, hne] }
  | deleteEdges versionID edges =>
    cases h
    exact { Edited.refl _ s with rows := hrows fun _ hne => by simp [Write.keys, hne] }
  | insertAlert | insertInvestigation | setState | insertStep => exact h.elim

theorem edited_applyAll {id : UUID} {ws : List Write} (h : ∀ w ∈ ws, w.Edits id) (s : Store) :
    Edited id s (applyAll ws s) := by
  induction ws generalizing s with
  | nil => exact Edited.refl id s
  | cons w ws ih =>
    exact (edited_write (h w List.mem_cons_self) s).trans
      (ih (fun w' hw' => h w' (List.mem_cons_of_mem _ hw')) _)

theorem Edited.evolves {id : UUID} {s t : Store} (h : Edited id s t)
    (hunpublished : ∀ v ∈ s.versions, v.id = id → v.status ≠ .published) : Evolves s t where
  playbooks := h.playbooks
  alerts := fun a ha => by rwa [h.alerts]
  versions := by
    intro v hv
    by_cases he : v.id = id
    · obtain ⟨v', hv', he', hp, hn⟩ := h.self v hv he
      exact ⟨v', hv', he'.trans he.symm, hp, hn, fun hpub => absurd hpub (hunpublished v hv he)⟩
    · exact ⟨v, h.others v hv he, rfl, rfl, rfl, fun _ => rfl⟩
  frozen := fun v hv hp => h.rows v.id fun he => hunpublished v hv he hp
  investigations := fun i hi => ⟨i, by rwa [h.investigations], rfl, rfl, rfl, rfl, fun _ => rfl⟩
  steps := fun id' => by simp only [Store.stepsOf, h.steps, List.prefix_rfl]
  completed := fun i _ _ => by simp only [Store.stepsOf, h.steps]

theorem Edited.valid {id : UUID} {s t : Store} (h : Edited id s t) (hs : Valid s)
    (hunpublished : ∀ v ∈ s.versions, v.id = id → v.status ≠ .published) (ht : Design t) :
    Valid t where
  toDesign := ht
  alert_ids := by rw [h.alerts]; exact hs.alert_ids
  external_ids := by rw [h.alerts]; exact hs.external_ids
  investigation_ids := by rw [h.investigations]; exact hs.investigation_ids
  step_ids := by rw [h.steps]; exact hs.step_ids
  step_investigation := by rw [h.steps, h.investigations]; exact hs.step_investigation
  consistent := by
    intro i hi
    rw [h.investigations] at hi
    exact (hs.consistent i hi).evolves (h.evolves hunpublished)
      (by simp only [Store.stepsOf, h.steps])

/-! ## The invariant -/

structure Editing (id : UUID) (s : Store) (ws : List Write) (ls : Locks) : Prop where
  edits : ∀ w ∈ ws, w.Edits id
  covered : ∀ w ∈ ws, Covered ls w
  design : Design (applyAll ws s)
  lock : (.version id, .update) ∈ ls
  unpublished : ∀ v ∈ s.versions, v.id = id → v.status ≠ .published

structure Drafting (id : UUID) (s : Store) (ws : List Write) (ls : Locks) : Prop
    extends Editing id s ws ls where
  draft : ∀ v ∈ (applyAll ws s).versions, v.id = id → v.status = .draft
  present : ∃ v ∈ (applyAll ws s).versions, v.id = id

variable {id : UUID} {s : Store} {ws : List Write} {ls : Locks}

/-- A transaction that edits one version may commit. -/
theorem Editing.commits {G : Store → Store → Prop} (h : Editing id s ws ls) (hs : Valid s)
    (hG : G s (applyAll ws s)) : rules.Commits G s ws ls where
  inv := (edited_applyAll h.edits s).valid hs h.unpublished h.design
  evolves := (edited_applyAll h.edits s).evolves h.unpublished
  guarantee := hG
  others := fun _ hcompatible _ hl => same_of_compatible h.covered hcompatible hl s

/-- Only the graph of the version it edits is replaced. -/
theorem Editing.footprint (h : Editing id s ws ls) :
    Footprint (some id) (fun _ => False) s (applyAll ws s) where
  graphs := fun v _ hne => (edited_applyAll h.edits s).rows v.id fun he => hne (by rw [he])
  steps := .inl (edited_applyAll h.edits s).steps

/-- No graph is replaced by a transaction that spares its own version's. -/
theorem Editing.footprint_none (h : Editing id s ws ls)
    (hself : ∀ v ∈ s.versions, v.id = id → (applyAll ws s).nodeRows id = s.nodeRows id ∧
      (applyAll ws s).edgeRows id = s.edgeRows id) :
    Footprint none (fun _ => False) s (applyAll ws s) where
  graphs := by
    intro v hv _
    by_cases he : v.id = id
    · rw [he]
      exact hself v hv he
    · exact (edited_applyAll h.edits s).rows v.id he
  steps := .inl (edited_applyAll h.edits s).steps

theorem Editing.write (h : Editing id s ws ls) {w : Write} {locks : Locks} (hw : w.Edits id)
    (hcovered : Covered (ls ++ locks) w) (hdesign : Design ((applyAll ws s).write w)) :
    Editing id s (ws ++ [w]) (ls ++ locks) where
  edits := by
    intro w' hw'
    rcases List.mem_append.mp hw' with hw' | hw'
    · exact h.edits w' hw'
    · rwa [List.mem_singleton.mp hw']
  covered := by
    intro w' hw'
    rcases List.mem_append.mp hw' with hw' | hw'
    · exact (h.covered w' hw').mono fun l hl => List.mem_append_left _ hl
    · rwa [List.mem_singleton.mp hw']
  design := by simpa using hdesign
  lock := List.mem_append_left _ h.lock
  unpublished := h.unpublished

theorem Drafting.write (h : Drafting id s ws ls) {w : Write} {locks : Locks} (hw : w.Edits id)
    (hcovered : Covered (ls ++ locks) w) (hdesign : Design ((applyAll ws s).write w))
    (hversions : ((applyAll ws s).write w).versions = (applyAll ws s).versions) :
    Drafting id s (ws ++ [w]) (ls ++ locks) where
  toEditing := h.toEditing.write hw hcovered hdesign
  draft := by simpa [hversions] using h.draft
  present := by simpa [hversions] using h.present

/-- No investigation refers to a version that is not published. -/
theorem Valid.unreferenced {s : Store} (hs : Valid s)
    (h : ∀ v ∈ s.versionRows id, v.status ≠ .published) :
    (∀ i ∈ s.investigations, i.playbookVersionID ≠ id) ∧
      ∀ r ∈ s.steps, r.playbookVersionID ≠ id := by
  have hinv : ∀ i ∈ s.investigations, i.playbookVersionID ≠ id := by
    intro i hi he
    obtain ⟨v, -, hbound, -⟩ := (hs.consistent i hi).walk
    exact h v (List.mem_filter.mpr ⟨hbound.1, decide_eq_true (hbound.2.1.trans he)⟩) hbound.2.2.1
  refine ⟨hinv, ?_⟩
  intro r hr he
  obtain ⟨i, hi, hid⟩ := hs.step_investigation r hr
  have hstep : r ∈ s.stepsOf i.id := List.mem_filter.mpr ⟨hr, decide_eq_true hid.symm⟩
  exact hinv i hi (((hs.consistent i hi).version r hstep).symm.trans he)

theorem Editing.unpublished_rows (h : Editing id s ws ls) :
    ∀ v ∈ s.versionRows id, v.status ≠ .published := by
  intro v hv
  obtain ⟨hv, he⟩ := List.mem_filter.mp hv
  exact h.unpublished v hv (of_decide_eq_true he)

/-- In every state the transaction may find itself on, its version is unreferenced. -/
theorem Editing.unreferenced (h : Editing id s ws ls) {s' : Store} {locks : Locks}
    (hrely : rules.Rely (ls ++ locks) s s') :
    (∀ i ∈ (applyAll ws s').investigations, i.playbookVersionID ≠ id) ∧
      ∀ r ∈ (applyAll ws s').steps, r.playbookVersionID ≠ id := by
  have hedited := edited_applyAll h.edits s'
  rw [hedited.investigations, hedited.steps]
  have hsame : Same (.version id) s s' := hrely.held _ (List.mem_append_left _ h.lock)
  have hrows := h.unpublished_rows
  rw [hsame.1] at hrows
  exact Valid.unreferenced hrely.inv hrows

theorem rely_refl {ls : Locks} (hs : Valid s) : rules.Rely ls s s :=
  ⟨hs, Evolves.refl s, fun l _ => Same.refl l.1 s⟩

end Interbellum
