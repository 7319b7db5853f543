import Interbellum.Server.Failures
import Interbellum.Txn.Writes

/-!
# Version numbers

The versions of a playbook are numbered by what is read after the playbook was locked.

* `versions_numbered`: in every run, the versions of a playbook are numbered from 1 on, as they
  were committed, and no insert meets a number that is taken.
-/

namespace Interbellum

open PlaybookRepository
open Txn (applyAll applyAll_nil)

/-! ## The order of the versions -/

/-- The versions of a playbook and their numbers, in the order of their rows. -/
def Store.numbered (s : Store) (playbookID : UUID) : List (UUID × Nat) :=
  (s.versions.filter fun v => v.playbookID = playbookID).map fun v => (v.id, v.version)

/-- A write appends to the versions of a playbook, or leaves them and their numbers. -/
theorem numbered_write (s : Store) (w : Write) (playbookID : UUID) :
    s.numbered playbookID <+: (s.write w).numbered playbookID := by
  cases w with
  | insertVersion v =>
    show _ <+: ((s.versions ++ [v]).filter _).map _
    rw [List.filter_append, List.map_append]
    exact List.prefix_append _ _
  | setRoot id root =>
    show _ <+: ((updateWhere _ _ s.versions).filter _).map _
    rw [filter_updateWhere, map_updateWhere]
    · exact List.prefix_rfl
    · exact fun _ => rfl
    · exact fun _ => rfl
  | setPublished id now =>
    show _ <+: ((updateWhere _ _ s.versions).filter _).map _
    rw [filter_updateWhere, map_updateWhere]
    · exact List.prefix_rfl
    · exact fun _ => rfl
    · exact fun _ => rfl
  | _ => exact List.prefix_rfl

/-- Versions that are committed later come after the ones there are. -/
theorem numbered_run {ι : Type} [DecidableEq ι] {sys sys' : Server ι}
    {trace : List (ι × Txn.Event)} (hrun : Txn.Run sys trace sys') (playbookID : UUID) :
    sys.store.numbered playbookID <+: sys'.store.numbered playbookID :=
  hrun.related (R := fun s t => s.numbered playbookID <+: t.numbered playbookID)
    (fun _ => List.prefix_rfl) List.IsPrefix.trans fun s w => numbered_write s w playbookID

/-! ## The operations -/

/-- The requests that insert a version, as they come to the repository and to the service. -/
inductive Operation.CreatesVersion : Operation → Prop
  | create (playbookID versionID : UUID) (now : Time) (input : NewPlaybook) :
      CreatesVersion (.createPlaybook playbookID versionID now input)
  | submit (playbookID versionID : UUID) (now : Time) (input : NewPlaybook) :
      CreatesVersion (.submitPlaybook playbookID versionID now input)
  | createVersion (playbookID : UUID) (cloneFrom : Option UUID) (versionID : UUID)
      (fresh : Nat → UUID) (now : Time) :
      CreatesVersion (.createVersion playbookID cloneFrom versionID fresh now)

/-! ## Every run -/

/-- Whatever clients do to the playbooks meanwhile: the versions of a playbook are numbered
from 1 on without gaps, each commit appends to them, and no request to create one meets a
number that is taken. -/
theorem versions_numbered {ι : Type} [DecidableEq ι] {s : Store} (h : Reachable s)
    {ops : ι → Operation} {trace : List (ι × Txn.Event)} {sys : Server ι}
    (hrun : Txn.Run (clients s ops) trace sys) :
    (∀ p, sys.store.versionNumbers p = List.range' 1 (sys.store.versionNumbers p).length) ∧
      (∀ p mid trace₁ trace₂, Txn.Run (clients s ops) trace₁ mid → Txn.Run mid trace₂ sys →
        mid.store.numbered p <+: sys.store.numbered p) ∧
      ∀ k, (ops k).CreatesVersion → ¬ (sys.session k).Replies (.error versionConflict) := by
  refine ⟨(h.run hrun).valid.numbered, fun p mid _ _ _ hrest => numbered_run hrest p, ?_⟩
  exact fun k _ hreplies => expected_replies h hrun hreplies List.mem_cons_self

/-- An empty second version and a copy of the first one. -/
def Triage.creates (copy : Bool) : Operation :=
  if copy then .createVersion 1 (some 2) 61 (fun k => 70 + k) 12
  else .createVersion 1 none 60 (fun k => 70 + k) 12

theorem versions_numbered_triage : ∃ sys : Server Bool,
    sys.store.versionNumbers 1 = [1, 2, 3] ∧
      ∀ copy, ¬ (sys.session copy).Replies (.error versionConflict) := by
  obtain ⟨trace, sys, hrun, hstore, -, -⟩ :=
    run_in_turn Triage.started Triage.creates (by decide : [false, true].Nodup)
  obtain ⟨hnumbers, -, hfree⟩ := versions_numbered Triage.reachable_started hrun
  have hlength : (sys.store.versionNumbers 1).length = 3 := by
    rw [hstore]
    decide +kernel
  refine ⟨sys, ?_, fun copy => hfree copy ?_⟩
  · rw [hnumbers 1, hlength]
    rfl
  · cases copy with
    | false => exact .createVersion 1 none 60 _ 12
    | true => exact .createVersion 1 (some 2) 61 _ 12

end Interbellum
