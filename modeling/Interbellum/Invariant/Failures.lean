import Interbellum.Invariant.Cloning
import Interbellum.Invariant.Reading
import Interbellum.Txn.Writes

/-!
# Errors that no transaction on playbooks returns

Some constraints are there in case another check is missed. What a transaction returns when it
fails, alone, is not a violation of one of these.

* `deadErrors`: the constraints on investigations and their steps.
* `createBody_error`, `createVersionBody_error`, `replaceGraphBody_error`, `publishBody_error`:
  the transactions.
-/

namespace Interbellum

open PlaybookRepository
open Txn (applyAll)

/-! ## The errors -/

/-- The constraints that no write may violate. -/
def deadErrors : List Err :=
  [.pg .checkViolation "chk_investigations_completion",
   .pg .foreignKeyViolation "fk_investigation_steps_investigation_same_version",
   .pg .foreignKeyViolation "fk_investigation_steps_node_same_version",
   .pg .foreignKeyViolation "fk_investigation_steps_edge_same_version",
   .pg .uniqueViolation "investigation_steps_investigation_id_sequence_number_key"]

def deadReplies : List AppError := deadErrors.map translate

/-- The answer to an insert that meets a number of the playbook that is taken. -/
def versionConflict : AppError :=
  translate (.pg .uniqueViolation "playbook_versions_playbook_id_version_key")

/-- A client may be told this error. -/
def Expected (e : AppError) : Prop := e ∉ versionConflict :: deadReplies

instance : DecidablePred Expected := fun e =>
  inferInstanceAs (Decidable (e ∉ versionConflict :: deadReplies))

theorem Expected.live {e : AppError} (h : Expected e) : e ∉ deadReplies :=
  fun hmem => h (List.mem_cons_of_mem _ hmem)

theorem expected_of_code {e : AppError} (hvalidation : e.code ≠ .validationFailed)
    (hconflict : e.code ≠ .conflict) : Expected e := by
  intro hmem
  have hcodes : ∀ e ∈ versionConflict :: deadReplies,
      e.code = .validationFailed ∨ e.code = .conflict := by decide
  rcases hcodes e hmem with hcode | hcode
  · exact hvalidation hcode
  · exact hconflict hcode

/-- The texts of the other errors. -/
def unexpectedFormats : List String := (versionConflict :: deadReplies).map Error.format

theorem expected_of_format {e : AppError} (h : e.format ∉ unexpectedFormats) : Expected e :=
  fun hmem => h (List.mem_map_of_mem hmem)

/-! ## Bodies -/

/-- From a state with `I` on, the body returns no other errors than these. -/
def Fails {β : Type} (I : Store → Prop) (E : Err → Prop) (body : Db β) : Prop :=
  ∀ s ws e ws', I (applyAll ws s) → body.run.run s ws = (.error e, ws') → E e

/-- No write makes `I` false. -/
def Lasting (I : Store → Prop) : Prop := ∀ s w, I s → I (s.write w)

theorem Lasting.applyAll {I : Store → Prop} (h : Lasting I) {s : Store} (hs : I s)
    (ws : List Write) : I (applyAll ws s) :=
  Txn.applyAll_preserves (P := fun _ => True) (fun s w _ => h s w) (fun _ _ => trivial) hs

section

variable {β γ : Type} {I : Store → Prop} {E : Err → Prop}

theorem Fails.pure (b : β) : Fails I E (Pure.pure b : Db β) := fun _ _ _ _ _ h => nomatch h

theorem Fails.throw {e : Err} (h : E e) : Fails I E (throw e : Db β) := by
  rintro s ws e' ws' - ⟨⟩
  exact h

theorem Fails.anywhere {body : Db β} (h : Fails (fun _ => True) E body) : Fails I E body :=
  fun s ws e ws' _ hrun => h s ws e ws' trivial hrun

theorem Fails.bind {x : Db β} {k : β → Db γ} (hI : Lasting I) (hx : Fails I E x)
    (hk : ∀ b, Fails I E (k b)) : Fails I E (x >>= k) := by
  intro s ws e ws' hs h
  rcases Txn.Body.error_of_run_bind h with h | ⟨b, ws₁, hb, h⟩
  · exact hx s ws e ws' hs h
  · obtain ⟨more, rfl⟩ := Txn.Body.run_extends hb
    refine hk b s _ e ws' ?_ h
    rw [Txn.applyAll_append]
    exact hI.applyAll hs more

theorem error_of_sql {f : Store → Answer β} {onError : Err → Err} {s : Store} {ws ws' : List Write}
    {e : Err} (h : (sql f onError).run.run s ws = (.error e, ws')) :
    ∃ e', (f (applyAll ws s)).result = .error e' ∧ onError e' = e := by
  rw [run_sql] at h
  have hresult := congrArg Prod.fst h
  cases hr : (f (applyAll ws s)).result with
  | ok b => simp [hr, Except.mapError] at hresult
  | error e' => exact ⟨e', rfl, by simpa [hr, Except.mapError] using hresult⟩

/-- A query whose errors are application errors. -/
theorem fails_sql {f : Store → Answer β} {onError : Err → Err}
    (h : ∀ s e, I s → (f s).result = .error e → E (onError e)) : Fails I E (sql f onError) := by
  intro s ws e ws' hs hrun
  obtain ⟨e', hresult, rfl⟩ := error_of_sql hrun
  exact h _ e' hs hresult

theorem fails_guarded {violations : Store → List (Bool × Err)} {answer : Store → Answer β}
    (h : ∀ s, I s → ∀ v ∈ violations s, v.1 = true → E v.2)
    (hok : ∀ s e, (answer s).result ≠ .error e) :
    Fails I E (sql (fun s => .guarded (violations s) (answer s)) fun err => err) := by
  refine fails_sql fun s e hs he => ?_
  rcases Answer.guarded_error he with ⟨v, hv, hviolated, rfl⟩ | ⟨-, he⟩
  · exact h s hs v hv hviolated
  · exact absurd he (hok s e)

end

/-! ## Statements -/

def Err.Expected (e : Err) : Prop := Interbellum.Expected (translate e)

instance : DecidablePred Err.Expected := fun e =>
  inferInstanceAs (Decidable (Interbellum.Expected (translate e)))

/-- The version is there. -/
def Present (id : UUID) (s : Store) : Prop := id ∈ s.versions.map Version.id

theorem lasting_true : Lasting fun _ => True := fun _ _ _ => trivial

theorem lasting_present (id : UUID) : Lasting (Present id) := by
  intro s w h
  cases w with
  | insertVersion v =>
    show id ∈ (s.versions ++ [v]).map Version.id
    rw [List.map_append]
    exact List.mem_append_left _ h
  | setRoot id' root =>
    show id ∈ (updateWhere _ _ s.versions).map Version.id
    rw [map_updateWhere]
    · exact h
    · exact fun _ => rfl
  | setPublished id' now =>
    show id ∈ (updateWhere _ _ s.versions).map Version.id
    rw [map_updateWhere]
    · exact h
    · exact fun _ => rfl
  | _ => exact h

theorem Present.rows {id : UUID} {s : Store} (h : Present id s) : s.versionRows id ≠ [] := by
  obtain ⟨v, hv, hid⟩ := List.mem_map.mp h
  exact List.ne_nil_of_mem (mem_versionRows.mpr ⟨hv, hid⟩)

theorem expected_notFound {e : Err} {resource : String} (h : e = .noRows) :
    (notFound resource e).Expected := by
  rw [h]
  exact expected_of_code nofun nofun

theorem fails_lockRow {β : Type} {key : LockKey} {mode : Txn.LockMode} {f : Store → Option β}
    {resource : String} : Fails (fun _ => True) Err.Expected
      (sql (fun s => .lockRow key mode (f s)) (notFound resource)) := by
  refine fails_sql fun s e _ he => expected_notFound ?_
  cases hrow : f s with
  | none => simpa [hrow, Answer.lockRow, Answer.fail, eq_comm] using he
  | some row => simp [hrow, Answer.lockRow] at he

theorem fails_loadGraph (id : UUID) (root : Option UUID) :
    Fails (fun _ => True) Err.Expected (loadGraph id root) := by
  refine .bind lasting_true ?_ fun nodes => .bind lasting_true ?_ fun edges => .pure _
  · exact fails_sql fun s e _ he => nomatch he
  · exact fails_sql fun s e _ he => nomatch he

theorem fails_loadDefinition (id : UUID) :
    Fails (fun _ => True) Err.Expected (loadDefinition id) := by
  refine .bind lasting_true ?_ fun v => ?_
  · refine fails_sql fun s e _ he => expected_notFound ?_
    cases hrow : (s.versionRows id).head? with
    | none => simpa [hrow, Answer.row, Answer.fail, eq_comm] using he
    | some row => simp [hrow, Answer.row, Answer.read] at he
  · exact .bind lasting_true (fails_loadGraph id _) fun _ => .pure _

theorem fails_insertNode (id : UUID) (n : Node) :
    Fails (Present id) Err.Expected (insertNode id n) := by
  refine fails_guarded (fun s hs => ?_) fun s e he => nomatch he
  simp only [List.forall_mem_cons, List.not_mem_nil, false_imp_iff, implies_true, and_true]
  refine ⟨fun _ => by decide, fun _ => by decide, fun _ => by decide, fun hempty => ?_⟩
  exact absurd (List.isEmpty_iff.mp hempty) hs.rows

theorem fails_insertEdge (id : UUID) (e : Edge) :
    Fails (Present id) Err.Expected (insertEdge id e) := by
  refine fails_guarded (fun s hs => ?_) fun s e he => nomatch he
  simp only [List.forall_mem_cons, List.not_mem_nil, false_imp_iff, implies_true, and_true]
  refine ⟨fun _ => by decide, fun _ => by decide, fun _ => by decide, fun hempty => ?_,
    fun _ => by decide, fun _ => by decide⟩
  exact absurd (List.isEmpty_iff.mp hempty) hs.rows

theorem fails_setRoot (id : UUID) (root : Option UUID) :
    Fails (fun _ => True) Err.Expected (setRoot id root) := by
  refine fails_sql fun s e _ he => ?_
  cases hrow : (s.versionRows id).head? with
  | none => simp [hrow, Answer.read] at he
  | some v =>
    simp only [hrow] at he
    rcases Answer.guarded_error he with ⟨violation, hmem, -, rfl⟩ | ⟨-, he⟩
    · rw [List.mem_singleton.mp hmem]
      show Err.Expected (.pg .foreignKeyViolation "fk_playbook_versions_root_node")
      decide
    · cases he

theorem fails_setPublished (id : UUID) (now : Time) :
    Fails (fun _ => True) Err.Expected (setPublished id now) := by
  refine fails_sql fun s e _ he => ?_
  cases hrow : (s.versionRows id).head? <;> simp [hrow, Answer.read] at he

theorem fails_execBatch {α : Type} {I : Store → Prop} {E : Err → Prop} {statement : α → Db Unit}
    (hI : Lasting I) (h : ∀ a, Fails I E (statement a)) (items : List α) :
    Fails I E (execBatch (items.map statement)) := by
  induction items with
  | nil => exact .pure ()
  | cons a rest ih => exact .bind hI (h a) fun _ => ih

/-- Once the version is there, none of the rows of its graph lacks it. -/
theorem fails_writeGraph (id : UUID) (g : Graph) :
    Fails (Present id) Err.Expected (writeGraph id g) := by
  have hlasting := lasting_present id
  refine .bind hlasting (fails_execBatch hlasting (fails_insertNode id) _) fun _ => ?_
  refine .bind hlasting ?_ fun _ => ?_
  · unfold sendEdges
    split
    · exact fails_execBatch hlasting (fails_insertEdge id) _
    · exact .throw (by decide)
  · cases g.rootNodeID with
    | none => exact .pure ()
    | some root => exact (fails_setRoot id (some root)).anywhere

theorem fails_writeClone (id : UUID) (fresh : Nat → UUID) (source : Option Definition) :
    Fails (Present id) Err.Expected (writeClone id fresh source) := by
  cases source with
  | none => exact .pure ()
  | some source => exact fails_writeGraph _ _

theorem fails_loadSource (cloneFrom : Option UUID) :
    Fails (fun _ => True) Err.Expected (loadSource cloneFrom) := by
  cases cloneFrom with
  | none => exact .pure none
  | some src =>
    exact .bind lasting_true fails_lockRow fun _ =>
      .bind lasting_true (fails_loadDefinition src) fun _ => .pure _

theorem fails_checkOwner (p : UUID) (cloneFrom : Option UUID) (source : Option Definition) :
    Fails (fun _ => True) Err.Expected (checkOwner p cloneFrom source) := by
  cases source with
  | none => exact .pure ()
  | some source =>
    rw [checkOwner]
    by_cases hother : source.version.playbookID ≠ p
    · rw [if_pos hother]
      refine .throw (expected_of_format ?_)
      show "clone_from_version_id %s belongs to a different playbook" ∉ unexpectedFormats
      decide
    · rw [if_neg hother]
      exact .pure ()

theorem fails_nextVersion (p : UUID) :
    Fails (fun _ => True) Err.Expected (nextVersion p) := by
  refine fails_guarded (fun s _ v hv _ => ?_) fun s e he => nomatch he
  rw [List.mem_singleton.mp hv]
  show Err.Expected .other
  decide

/-- The number is free, and the playbook is there. -/
theorem insertVersion_error {s : Store} {ws ws' : List Write} {id p : UUID} {now : Time}
    {number : Nat} {e : Err} (hfree : number ∉ (applyAll ws s).versionNumbers p)
    (howned : ∃ q ∈ (applyAll ws s).playbooks, q.id = p)
    (hrun : (insertVersion id now p number).run.run s ws = (.error e, ws')) :
    e.Expected := by
  obtain ⟨e', hresult, rfl⟩ := error_of_sql hrun
  rcases Answer.guarded_error hresult with ⟨v, hv, hviolated, rfl⟩ | ⟨-, he⟩
  · simp only [List.mem_cons, List.not_mem_nil, or_false] at hv
    rcases hv with rfl | rfl | rfl | rfl
    · exact (by decide : Err.Expected .other)
    · exact (by decide : Err.Expected (.pg .uniqueViolation "playbook_versions_pkey"))
    · exact absurd (of_decide_eq_true hviolated) hfree
    · obtain ⟨q, hq, hqid⟩ := howned
      have hnone := List.any_eq_false.mp (Bool.not_eq_true' _ |>.mp hviolated) q hq
      exact absurd (decide_eq_true hqid) hnone
  · exact nomatch he

theorem loadSource_writes {s : Store} {ws : List Write} {cloneFrom : Option UUID}
    {source : Option Definition}
    (hrun : (loadSource cloneFrom).run.run s [] = (.ok source, ws)) : ws = [] := by
  cases cloneFrom with
  | none => exact (Prod.mk.inj hrun).2.symm
  | some src =>
    obtain ⟨-, -, -, -, rfl⟩ := ok_loadSource hrun
    rfl

theorem checkOwner_writes {s : Store} {ws : List Write} {p : UUID} {cloneFrom : Option UUID}
    {source : Option Definition}
    (hrun : (checkOwner p cloneFrom source).run.run s [] = (.ok (), ws)) : ws = [] := by
  cases source with
  | none => exact (Prod.mk.inj hrun).2.symm
  | some source =>
    rw [checkOwner] at hrun
    split_ifs at hrun
    · cases hrun
    · exact (Prod.mk.inj hrun).2.symm

/-- A number that follows all others of its playbook is free. -/
theorem succ_length_not_mem {s : Store} (hs : Design s) (p : UUID) :
    (s.versionNumbers p).length + 1 ∉ s.versionNumbers p := by
  rw [hs.numbered p, List.length_range', List.mem_range']
  omega

/-! ## Transactions -/

theorem present_insertVersion {s : Store} {ws : List Write} {v : Version} {id : UUID}
    (hid : v.id = id) : Present id (applyAll (ws ++ [.insertVersion v]) s) := by
  rw [Txn.applyAll_append]
  exact List.mem_map.mpr ⟨v, List.mem_append_right _ (List.mem_singleton_self v), hid⟩

theorem createVersionBody_error {s : Store} (hs : Design s) {p id : UUID}
    {cloneFrom : Option UUID} {fresh : Nat → UUID} {now : Time} {e : Err} {ws : List Write}
    (hrun : (createVersionBody p cloneFrom id fresh now).run.run s [] = (.error e, ws)) :
    e.Expected := by
  rcases Txn.Body.error_of_run_bind hrun with herror | ⟨source, ws₁, hsource, hrun⟩
  · exact fails_loadSource _ _ _ _ _ trivial herror
  obtain rfl := loadSource_writes hsource
  rcases Txn.Body.error_of_run_bind hrun with herror | ⟨row, ws₂, hlock, hrun⟩
  · exact fails_lockRow _ _ _ _ trivial herror
  obtain ⟨hrow, rfl⟩ := ok_lockRow hlock
  rcases Txn.Body.error_of_run_bind hrun with herror | ⟨_, ws₃, hcheck, hrun⟩
  · exact fails_checkOwner _ _ _ _ _ _ _ trivial herror
  obtain rfl := checkOwner_writes hcheck
  rcases Txn.Body.error_of_run_bind hrun with herror | ⟨next, ws₄, hnext, hrun⟩
  · exact fails_nextVersion _ _ _ _ _ trivial herror
  have hempty : Design (applyAll ([] : List Write) s) := hs
  obtain ⟨rfl, rfl⟩ := ok_nextVersion hempty hnext
  rcases Txn.Body.error_of_run_bind hrun with herror | ⟨version, ws₅, hinsert, hrun⟩
  · obtain ⟨hmem, hid⟩ := List.mem_filter.mp (List.mem_of_mem_head? hrow)
    exact insertVersion_error (succ_length_not_mem hs p) ⟨row, hmem, of_decide_eq_true hid⟩ herror
  obtain ⟨-, rfl, -⟩ := ok_insertVersion hinsert
  -- what follows the insert meets no number again
  have hfails := (fails_writeClone version.id fresh source).bind (lasting_present version.id)
    fun _ => (fails_loadDefinition version.id).anywhere
  exact hfails _ _ _ _ (present_insertVersion rfl) hrun

theorem createBody_error {s : Store} (hs : Design s) {p id : UUID} {now : Time}
    {input : NewPlaybook} {e : Err} {ws : List Write}
    (hrun : (createBody p id now input).run.run s [] = (.error e, ws)) : e.Expected := by
  rcases Txn.Body.error_of_run_bind hrun with herror | ⟨pb, ws₁, hinsert, hrun⟩
  · have hfails : Fails (fun _ => True) Err.Expected (insertPlaybook p now input) := by
      refine fails_guarded (fun s _ => ?_) fun s e he => nomatch he
      simp only [List.forall_mem_cons, List.not_mem_nil, false_imp_iff, implies_true, and_true]
      exact ⟨fun _ => by decide, fun _ => by decide⟩
    exact hfails _ _ _ _ trivial herror
  obtain ⟨hchecks, hpb, rfl⟩ := ok_of_guarded hinsert
  obtain rfl := Except.ok.inj hpb
  simp only [List.forall_mem_cons] at hchecks
  have hnew : ∀ q ∈ s.playbooks, q.id ≠ p := by simpa using hchecks.2.1
  rcases Txn.Body.error_of_run_bind hrun with herror | ⟨version, ws₂, hversion, hrun⟩
  · refine insertVersion_error ?_ ?_ herror
    · intro hmem
      obtain ⟨v, hv, -⟩ := List.mem_map.mp hmem
      obtain ⟨hv, he⟩ := List.mem_filter.mp hv
      obtain ⟨q, hq, hqid⟩ := hs.version_playbook v hv
      exact hnew q hq (hqid.trans (of_decide_eq_true he))
    · exact ⟨_, List.mem_append_right _ (List.mem_singleton_self _), rfl⟩
  obtain ⟨-, rfl, -⟩ := ok_insertVersion hversion
  have hfails : Fails (Present version.id) Err.Expected (do
      writeGraph version.id input.graph
      let definition ← loadDefinition version.id
      return ((⟨p, input.name, input.description, input.alertType, now, now⟩ : Playbook),
        definition)) :=
    .bind (lasting_present _) (fails_writeGraph _ _) fun _ =>
      .bind (lasting_present _) (fails_loadDefinition _).anywhere fun _ => .pure _
  exact hfails _ _ _ _ (present_insertVersion rfl) hrun

/-- The graph of a draft can be cleared: no step and no investigation refers to it. -/
theorem replaceGraphBody_error {s : Store} (hs : Valid s) {id : UUID} {g : Graph} {e : Err}
    {ws : List Write} (hrun : (replaceGraphBody id g).run.run s [] = (.error e, ws)) :
    e.Expected := by
  rcases Txn.Body.error_of_run_bind hrun with herror | ⟨v, ws₁, hlock, hrun⟩
  · exact fails_lockRow _ _ _ _ trivial herror
  obtain ⟨hrow, rfl⟩ := ok_lockRow hlock
  have hmem : v ∈ s.versionRows id := List.mem_of_mem_head? hrow
  cases hdraft : v.isDraft with
  | false =>
    rw [hdraft] at hrun
    obtain ⟨he, -⟩ := Prod.mk.inj hrun
    rw [← Except.error.inj he]
    exact expected_of_code nofun nofun
  | true =>
    rw [hdraft] at hrun
    rcases Txn.Body.error_of_run_bind hrun with herror | ⟨_, ws₂, hclear, hrun⟩
    · rw [run_clearGraph hs (drafting_of_lock hs hmem hdraft)] at herror
      cases herror
    · have hfails := (fails_writeGraph id g).bind (lasting_present id)
        fun _ => (fails_loadDefinition id).anywhere
      have hpresent : Present id s := List.mem_map.mpr ⟨v, mem_versionRows.mp hmem⟩
      exact hfails _ _ _ _ ((lasting_present id).applyAll hpresent ws₂) hrun

theorem publishBody_error {s : Store} {id : UUID} {now : Time} {e : Err} {ws : List Write}
    (hrun : (publishBody id now).run.run s [] = (.error e, ws)) : e.Expected := by
  have hfails : Fails (fun _ => True) Err.Expected (publishBody id now) := by
    refine .bind lasting_true fails_lockRow fun version => ?_
    split
    · refine .bind lasting_true (fails_loadGraph id _) fun graph => ?_
      split
      · exact .bind lasting_true (fails_setPublished id now) fun _ => fails_loadDefinition id
      · exact .throw (expected_of_code nofun nofun)
    · exact .throw (expected_of_code nofun nofun)
  exact hfails _ _ _ _ trivial hrun

end Interbellum
