import Interbellum.Invariant.Drafting

/-!
# The playbook transactions keep the discipline

Create, CreateVersion, ReplaceGraph and Publish, each from its first statement to its commit.

* `create_keeps`, `createVersion_keeps`, `replaceGraph_keeps`, `publish_keeps`.
-/

namespace Interbellum

open PlaybookRepository
open Txn (applyAll)

variable {id : UUID} {s : Store} {ws : List Write} {ls : Locks}

/-! ## Locks -/

theorem keeps_lockVersion (mode : Txn.LockMode) {onError : Err → Err} :
    (sql (fun s => .lockRow (.version id) mode (s.versionRows id).head?) onError).run.Keeps
      rules s (fun v ws' ls' => ws' = ws ∧ ls' = ls ++ [(.version id, mode)] ∧
        v ∈ (applyAll ws s).versionRows id) (fun _ => True) ws ls := by
  refine keeps_sql (fun _ _ => trivial) ?_
  intro v hv
  cases hrow : ((applyAll ws s).versionRows id).head? with
  | none => simp [Answer.lockRow, Answer.fail, hrow] at hv
  | some w =>
    obtain rfl : w = v := by simpa [Answer.lockRow, hrow] using hv
    constructor
    · intro s' hrely
      have hsame := same_of_rely (.version id) mode hrely (by simp [Answer.lockRow]) ws
      rw [← hsame.1, hrow]
    · exact ⟨by simp [Answer.lockRow], rfl, List.mem_of_mem_head? hrow⟩

theorem keeps_lockPlaybook (p : UUID) :
    (lockPlaybook p).run.Keeps rules s (fun row ws' ls' => ws' = ws ∧
      ls' = ls ++ [(.playbook p, .update)] ∧ row ∈ (applyAll ws s).playbooks ∧ row.id = p)
      (fun _ => True) ws ls := by
  refine keeps_sql (fun _ _ => trivial) ?_
  intro row hr
  cases hrow : ((applyAll ws s).playbooks.filter (fun q => q.id = p)).head? with
  | none => simp [Answer.lockRow, Answer.fail, hrow] at hr
  | some w =>
    obtain rfl : w = row := by simpa [Answer.lockRow, hrow] using hr
    constructor
    · intro s' hrely
      have hsame := same_of_rely (.playbook p) .update hrely (by simp [Answer.lockRow]) ws
      rw [← hsame.1, hrow]
    · obtain ⟨hmem, he⟩ := List.mem_filter.mp (List.mem_of_mem_head? hrow)
      exact ⟨by simp [Answer.lockRow], rfl, hmem, of_decide_eq_true he⟩

/-- A draft whose row is locked may be edited. -/
theorem drafting_of_lock (hs : Valid s) {v : Version} (hv : v ∈ s.versionRows id)
    (hdraft : v.isDraft = true) : Drafting id s [] [(.version id, .update)] := by
  obtain ⟨hmem, he⟩ := List.mem_filter.mp hv
  have he : v.id = id := of_decide_eq_true he
  have hrow : ∀ w ∈ s.versions, w.id = id → w.status = .draft := by
    intro w hw hwid
    obtain rfl : w = v := List.inj_on_of_nodup_map hs.version_ids hw hmem (hwid.trans he.symm)
    exact of_decide_eq_true hdraft
  refine ⟨⟨by simp, by simp, hs.toDesign, by simp, ?_⟩, hrow, v, hmem, he⟩
  intro w hw hwid hp
  rw [hrow w hw hwid] at hp
  cases hp

/-! ## ReplaceGraph and Publish -/

theorem keeps_replaceGraphBody (hs : Valid s) (g : Graph) :
    (replaceGraphBody id g).run.Keeps rules s (fun _ ws ls => Editing id s ws ls)
      (fun _ => True) [] [] := by
  refine .bind ((keeps_lockVersion .update).mono ?_ fun _ h => h)
  rintro v _ _ ⟨rfl, rfl, hv⟩
  split
  · rename_i hdraft
    have h : Drafting id s [] [(.version id, .update)] := drafting_of_lock hs hv hdraft
    refine .bind ((keeps_clearGraph hs h).mono ?_ fun _ h => h)
    intro _ ws' ls' h'
    refine .bind ((keeps_writeGraph h' g).mono ?_ fun _ h => h)
    intro _ ws'' ls'' h''
    refine (keeps_loadDefinition h''.lock).mono ?_ fun _ h => h
    rintro d _ _ ⟨rfl, rfl, -⟩
    exact h''.toEditing
  · exact .throw trivial

/-- A draft whose graph passes validation may be published. -/
theorem keeps_setPublished (h : Drafting id s ws ls) {v : Version}
    (hv : v ∈ (applyAll ws s).versionRows id)
    (hvalid : ((applyAll ws s).graphOf v).validate = []) (now : Time) :
    (setPublished id now).run.Keeps rules s (fun _ ws' ls => Editing id s ws' ls ∧
      ws' = ws ++ [.setPublished id now]) (fun _ => True) ws ls := by
  refine keeps_sql (fun _ _ => trivial) ?_
  intro b hb
  obtain ⟨w, hrow⟩ := h.row
  simp only [hrow]
  constructor
  · intro s' hrely
    have hsame : Same (.version id) (applyAll ws s) (applyAll ws s') :=
      version_steady h.lock hrely
    rw [← hsame.1, hrow]
  · refine ⟨h.toEditing.write rfl ?_ (h.design.setPublished ?_), trivial⟩
    · intro key hkey
      rw [List.mem_singleton.mp hkey]
      exact List.mem_append_left _ h.lock
    · intro u hu he
      obtain ⟨hmem, hid⟩ := List.mem_filter.mp hv
      obtain rfl : u = v := List.inj_on_of_nodup_map h.design.version_ids hu hmem
        (he.trans (of_decide_eq_true hid).symm)
      exact hvalid

theorem keeps_publishBody (hs : Valid s) (now : Time) :
    (publishBody id now).run.Keeps rules s (fun _ ws ls => Editing id s ws ls ∧
      Footprint none (fun _ => False) s (applyAll ws s)) (fun _ => True) [] [] := by
  refine .bind ((keeps_lockVersion .update).mono ?_ fun _ h => h)
  rintro v _ _ ⟨rfl, rfl, hv⟩
  split
  · rename_i hdraft
    have h : Drafting id s [] [(.version id, .update)] := drafting_of_lock hs hv hdraft
    refine .bind ((keeps_loadGraph h.lock v.rootNodeID).mono ?_ fun _ h => h)
    rintro g _ _ ⟨rfl, rfl, rfl⟩
    split
    · rename_i hvalid
      have hid : v.id = id := of_decide_eq_true (List.mem_filter.mp hv).2
      rw [← hid] at hvalid
      refine .bind ((keeps_setPublished h hv hvalid now).mono ?_ fun _ h => h)
      rintro _ _ ls' ⟨h', rfl⟩
      refine (keeps_loadDefinition h'.lock).mono ?_ fun _ h => h
      rintro d _ _ ⟨rfl, rfl, -⟩
      exact ⟨h', h'.footprint_none fun _ _ _ => ⟨rfl, rfl⟩⟩
    · exact .throw trivial
  · exact .throw trivial

/-! ## Create and CreateVersion -/

/-- Insert the first row of a version, whose playbook is locked. -/
theorem keeps_insertVersion {p : UUID} {number : Nat} (hedits : ∀ w ∈ ws, w.Edits id)
    (hcovered : ∀ w ∈ ws, Covered ls w) (hdesign : Design (applyAll ws s))
    (hversions : (applyAll ws s).versions = s.versions) (hlock : (.playbook p, .update) ∈ ls)
    (hnumber : number = ((applyAll ws s).versionNumbers p).length + 1) (now : Time) :
    (insertVersion id now p number).run.Keeps rules s
      (fun v ws ls => v.id = id ∧ Drafting id s ws ls ∧ ∀ w ∈ s.versions, w.id ≠ id)
      (fun _ => True) ws ls := by
  refine keeps_guarded ?_
  intro v hchecks hv
  simp only [List.forall_mem_cons] at hchecks
  obtain ⟨-, hid, -, hplaybook, -⟩ := hchecks
  have hfresh : ∀ w ∈ s.versions, w.id ≠ id := by simpa [hversions] using hid
  obtain rfl : _ = v := Except.ok.inj hv
  constructor
  · intro s' hrely
    have hversion := same_of_rely (.version id) .update hrely (by simp) ws
    have hsame := same_of_rely (.playbook p) .update hrely (List.mem_append_left _ hlock) ws
    rw [any_of_filter_eq hversion.1, ← hsame.2, any_of_filter_eq hsame.1]
    exact ⟨rfl, rfl⟩
  · refine ⟨rfl, ⟨⟨?_, ?_, ?_, ?_, ?_⟩, ?_, ?_⟩, hfresh⟩
    · intro w hw
      rcases List.mem_append.mp hw with hw | hw
      · exact hedits w hw
      · rw [List.mem_singleton.mp hw]
        trivial
    · intro w hw
      rcases List.mem_append.mp hw with hw | hw
      · exact (hcovered w hw).mono fun l hl => List.mem_append_left _ hl
      · rw [List.mem_singleton.mp hw]
        intro key hkey
        simp only [Write.keys, List.mem_cons, List.not_mem_nil, or_false] at hkey
        rcases hkey with rfl | rfl
        · simp
        · exact List.mem_append_left _ hlock
    · rw [Txn.applyAll_append]
      refine hdesign.insertVersion ?_ ?_ hnumber rfl rfl rfl
      · simpa [hversions] using hid
      · simpa using hplaybook
    · simp
    · exact fun w hw he => absurd he (hfresh w hw)
    · intro w hw he
      rw [Txn.applyAll_append] at hw
      rcases List.mem_append.mp hw with hw | hw
      · rw [hversions] at hw
        exact absurd he (hfresh w hw)
      · rw [List.mem_singleton.mp hw]
    · rw [Txn.applyAll_append]
      exact ⟨_, List.mem_append_right _ (List.mem_singleton_self _), rfl⟩

theorem keeps_createBody (hs : Valid s) (p : UUID) (now : Time) (input : NewPlaybook) :
    (createBody p id now input).run.Keeps rules s (fun _ ws ls => Editing id s ws ls ∧
      Footprint none (fun _ => False) s (applyAll ws s)) (fun _ => True) [] [] := by
  refine .bind (keeps_guarded ?_)
  intro pb hchecks hpb
  simp only [List.forall_mem_cons] at hchecks
  obtain ⟨-, hid, -⟩ := hchecks
  have hfresh : ∀ q ∈ s.playbooks, q.id ≠ p := by simpa using hid
  obtain rfl : _ = pb := Except.ok.inj hpb
  constructor
  · intro s' hrely
    have hsame := same_of_rely (.playbook p) .update hrely (by simp) []
    rw [any_of_filter_eq hsame.1]
    exact ⟨rfl, rfl⟩
  · refine .bind ((keeps_insertVersion ?_ ?_ ?_ rfl ?_ ?_ now).mono ?_ fun _ h => h)
    · simp [Write.Edits]
    · simp [Covered, Write.keys]
    · exact hs.toDesign.insertPlaybook hfresh
    · simp
    · show 1 = (s.versionNumbers p).length + 1
      rw [hs.versionNumbers_eq_nil hfresh]
      rfl
    · rintro v ws' ls' ⟨rfl, h, hnew⟩
      refine .bind ((keeps_writeGraph h input.graph).mono ?_ fun _ h => h)
      intro _ ws'' ls'' h'
      refine .bind ((keeps_loadDefinition h'.lock).mono ?_ fun _ h => h)
      rintro d _ _ ⟨rfl, rfl, -⟩
      exact .pure ⟨h'.toEditing, h'.footprint_none fun w hw he => absurd he (hnew w hw)⟩

theorem keeps_loadSource (cloneFrom : Option UUID) :
    (loadSource cloneFrom).run.Keeps rules s (fun _ ws' _ => ws' = ws) (fun _ => True) ws ls := by
  cases cloneFrom with
  | none => exact .pure rfl
  | some source =>
    refine .bind ((keeps_lockVersion .share).mono ?_ fun _ h => h)
    rintro v _ _ ⟨rfl, rfl, -⟩
    have hlock : (.version source, .share) ∈ ls ++ [(.version source, .share)] := by simp
    refine .bind ((keeps_loadDefinition hlock).mono ?_ fun _ h => h)
    rintro d _ _ ⟨rfl, rfl, -⟩
    exact .pure rfl

theorem keeps_createVersionBody (hs : Valid s) (p : UUID) (cloneFrom : Option UUID)
    (fresh : Nat → UUID) (now : Time) :
    (createVersionBody p cloneFrom id fresh now).run.Keeps rules s
      (fun _ ws ls => Editing id s ws ls ∧ Footprint none (fun _ => False) s (applyAll ws s))
      (fun _ => True) [] [] := by
  refine .bind ((keeps_loadSource cloneFrom).mono ?_ fun _ h => h)
  rintro source _ ls rfl
  refine .bind ((keeps_lockPlaybook p).mono ?_ fun _ h => h)
  rintro row _ _ ⟨rfl, rfl, -, -⟩
  refine .bind (.mono ?_ (fun _ h => h) (?_ : (checkOwner p cloneFrom source).run.Keeps rules s
    (fun _ ws' ls' => ws' = [] ∧ ls' = ls ++ [(.playbook p, .update)]) (fun _ => True) _ _))
  · rintro _ _ _ ⟨rfl, rfl⟩
    refine .bind (keeps_guarded ?_)
    intro next _ hnext
    obtain rfl : _ = next := Except.ok.inj hnext
    constructor
    · intro s' hrely
      have hsame := same_of_rely (.playbook p) .update hrely (by simp) []
      rw [← hsame.2]
      exact ⟨rfl, rfl⟩
    · have hdesign : Design (applyAll ([] : List Write) s) := hs.toDesign
      refine .bind ((keeps_insertVersion ?_ ?_ hdesign rfl ?_ ?_ now).mono ?_ fun _ h => h)
      · simp
      · simp [Answer.read]
      · simp
      · exact congrArg (· + 1) (foldl_max_of_numbered (hs.numbered p))
      · rintro v ws' ls' ⟨rfl, h, hnew⟩
        refine .bind (.mono ?_ (fun _ h => h) (?_ : (writeClone v.id fresh source).run.Keeps
          rules s (fun _ ws ls => Drafting v.id s ws ls) (fun _ => True) ws' ls'))
        · intro _ ws'' ls'' h'
          refine (keeps_loadDefinition h'.lock).mono ?_ fun _ h => h
          rintro d _ _ ⟨rfl, rfl, -⟩
          exact ⟨h'.toEditing, h'.footprint_none fun w hw he => absurd he (hnew w hw)⟩
        · cases source with
          | none => exact .pure h
          | some source => exact keeps_writeGraph h _
  · cases source with
    | none => exact .pure ⟨rfl, rfl⟩
    | some source =>
      simp only [checkOwner]
      split
      · exact .throw trivial
      · exact .pure ⟨rfl, rfl⟩

/-! ## The operations -/

/-- A body that ends within `Editing` makes a transaction that keeps to the discipline. -/
theorem keeps_of_editing {β : Type} {G : Store → Store → Prop} {body : Db β}
    (h : ∀ t, Valid t → body.run.Keeps rules t (fun _ ws ls => Editing id t ws ls ∧
      G t (applyAll ws t)) (fun _ => True) [] []) (s : Store) :
    (inTx body).run.Keeps rules G (fun _ _ => True) s := by
  refine keeps_inTx ?_
  intro t ht _
  refine (h t ht).mono ?_ fun _ _ _ _ _ => trivial
  rintro b ws ls ⟨hediting, hG⟩
  exact ⟨hediting.commits ht hG, fun _ _ _ => trivial⟩

theorem create_keeps (p v : UUID) (now : Time) (input : NewPlaybook) (s : Store) :
    (create p v now input).run.Keeps rules (Footprint none fun _ => False) (fun _ _ => True) s :=
  keeps_of_editing (fun _ ht => keeps_createBody ht p now input) s

theorem createVersion_keeps (p : UUID) (cloneFrom : Option UUID) (v : UUID) (fresh : Nat → UUID)
    (now : Time) (s : Store) :
    (createVersion p cloneFrom v fresh now).run.Keeps rules (Footprint none fun _ => False)
      (fun _ _ => True) s :=
  keeps_of_editing (fun _ ht => keeps_createVersionBody ht p cloneFrom fresh now) s

theorem replaceGraph_keeps (v : UUID) (g : Graph) (s : Store) :
    (replaceGraph v g).run.Keeps rules (Footprint (some v) fun _ => False) (fun _ _ => True) s := by
  have hbody : ∀ t, Valid t → (replaceGraphBody v g).run.Keeps rules t (fun _ ws ls =>
      Editing v t ws ls ∧ Footprint (some v) (fun _ => False) t (applyAll ws t)) (fun _ => True)
      [] [] :=
    fun t ht => (keeps_replaceGraphBody ht g).mono (fun _ _ _ h => ⟨h, h.footprint⟩) fun _ h => h
  exact keeps_of_editing hbody s

theorem publish_keeps (v : UUID) (now : Time) (s : Store) :
    (publish v now).run.Keeps rules (Footprint none fun _ => False) (fun _ _ => True) s :=
  keeps_of_editing (fun _ ht => keeps_publishBody ht now) s

end Interbellum
