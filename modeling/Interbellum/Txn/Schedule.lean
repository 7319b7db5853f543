import Mathlib.Data.Fintype.Pi
import Interbellum.Txn.Interleaving

/-!
# Schedules

A schedule says which session is to move next. Carried out, it gives one of the runs in which no
session dies, so that a run of several clients can be computed.

* `run_follow`: what a schedule gives is a run.
-/

namespace Interbellum.Txn

variable {ι σ ω κ α : Type}

instance [DecidableEq κ] (ls ls' : Locks κ) : Decidable (Compatible ls ls') :=
  inferInstanceAs (Decidable (∀ l ∈ ls, ∀ l' ∈ ls', _))

instance [Fintype ι] [DecidableEq ι] [DecidableEq κ] (sys : System ι σ ω κ α) (i : ι)
    (ls : Locks κ) : Decidable (sys.Grants i ls) :=
  inferInstanceAs (Decidable (∀ _, _))

/-- The answer, once there is one. -/
def Session.answer? : Session σ ω κ α → Option α
  | .idle (.ret a) => some a
  | _ => none

theorem Session.eq_of_answer? {x : Session σ ω κ α} {a : α} (h : x.answer? = some a) :
    x = .idle (.ret a) := by
  cases x with
  | idle call =>
    cases call with
    | ret b => exact congrArg (fun b => Session.idle (.ret b)) (Option.some.inj h)
    | _ => cases h
  | _ => cases h

theorem Session.replies_of_answer? {x : Session σ ω κ α} {a : α} (h : x.answer? = some a) :
    x.Replies a := by
  rw [Session.eq_of_answer? h]
  rfl

section

variable [Fintype ι] [DecidableEq ι] [DecidableEq κ] [Writable σ ω]

/-- The next step of session `i`, if it has one and need not wait. -/
def System.move (sys : System ι σ ω κ α) (i : ι) : Option (Event × System ι σ ω κ α) :=
  match sys.session i with
  | .idle (.ret _) | .dead => none
  | .idle (.auto effect next) =>
    if sys.Grants i (effect sys.store).locks then
      some (.auto, sys.put i (.idle (next sys.store))
        (applyAll (effect sys.store).writes sys.store))
    else none
  | .idle (.tx body next) => some (.begin, sys.set i (.busy body next [] []))
  | .idle (.snapshot body next) => some (.begin, sys.set i (.reading body next none))
  | .busy (.stmt effect rest) next ws ls =>
    if sys.Grants i (effect (applyAll ws sys.store)).locks then
      some (.statement, sys.set i (.busy (rest (applyAll ws sys.store)) next
        (ws ++ (effect (applyAll ws sys.store)).writes)
        (ls ++ (effect (applyAll ws sys.store)).locks)))
    else none
  | .busy (.ret (.ok b)) next ws _ =>
    some (.commit, sys.put i (.idle (next (.ok b))) (applyAll ws sys.store))
  | .busy (.ret (.error e)) next _ _ => some (.rollback, sys.set i (.idle (next (.error e))))
  | .reading (.stmt _ rest) next pinned =>
    some (.read, sys.set i (.reading (rest (pinned.getD sys.store)) next
      (some (pinned.getD sys.store))))
  | .reading (.ret r) next _ => some (.finish, sys.set i (.idle (next r)))

theorem step_of_move {sys sys' : System ι σ ω κ α} {i : ι} {event : Event}
    (h : sys.move i = some (event, sys')) : Step i event sys sys' := by
  unfold System.move at h
  split at h
  · cases h
  · cases h
  · next hs =>
    split_ifs at h with hgrants
    cases h
    exact .auto hs hgrants
  · next hs =>
    cases h
    exact .begin hs
  · next hs =>
    cases h
    exact .beginSnapshot hs
  · next hs =>
    split_ifs at h with hgrants
    cases h
    exact .statement hs hgrants
  · next hs =>
    cases h
    exact .commit hs
  · next hs =>
    cases h
    exact .rollback hs
  · next hs =>
    cases h
    exact .read hs
  · next hs =>
    cases h
    exact .finish hs

/-- Let the sessions move in this order; one that cannot move is passed over. -/
def System.follow (sys : System ι σ ω κ α) : List ι → List (ι × Event) × System ι σ ω κ α
  | [] => ([], sys)
  | i :: rest =>
    match sys.move i with
    | none => sys.follow rest
    | some (event, sys') => ((i, event) :: (sys'.follow rest).1, (sys'.follow rest).2)

theorem run_follow (order : List ι) (sys : System ι σ ω κ α) :
    Run sys (sys.follow order).1 (sys.follow order).2 := by
  induction order generalizing sys with
  | nil => exact .nil sys
  | cons i rest ih =>
    cases hmove : sys.move i with
    | none =>
      rw [System.follow, hmove]
      exact ih sys
    | some m =>
      rw [System.follow, hmove]
      exact (Run.single (step_of_move hmove)).append (ih m.2)

end

end Interbellum.Txn
