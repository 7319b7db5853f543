import Mathlib.Order.Nat
import Interbellum.Digraph.Arcs

/-!
# Breadth-first search with a queue

`bfs arcs root` is the list of vertices seen by a breadth-first search from `root`: the
loop takes the first vertex of the queue, looks at its adjacency list, and appends to the
queue, marking it as seen, every entry that was not seen before.

`mem_bfs_iff`: the vertices seen are exactly those reachable from `root`. The loop needs at
most one iteration more than the graph has arcs, because each iteration either shortens the
queue or sees the target of a new arc.
-/

namespace Interbellum.Digraph

open Relation

variable {α : Type} [DecidableEq α]

/-- The state of the search; the head of `queue` is its front. -/
structure Wave (α : Type) where
  seen : List α
  queue : List α

namespace Wave

/-- Look at one entry of the current vertex's adjacency list. -/
def discover (w : Wave α) (next : α) : Wave α :=
  if next ∈ w.seen then w else ⟨next :: w.seen, w.queue ++ [next]⟩

/-- One iteration of the loop over the queue. -/
def step (succ : α → List α) (w : Wave α) : Wave α :=
  match w.queue with
  | [] => w
  | cur :: queue => (succ cur).foldl discover ⟨w.seen, queue⟩

/-- Iterate `step` until the queue is empty, at most `fuel` times. -/
def run (succ : α → List α) : Nat → Wave α → Wave α
  | 0, w => w
  | fuel + 1, w => if w.queue = [] then w else run succ fuel (step succ w)

end Wave

def bfs (arcs : List (α × α)) (root : α) : List α :=
  (Wave.run (succs arcs) (arcs.length + 1) ⟨[root], [root]⟩).seen

/-! ## The invariant of the loop -/

namespace Wave

/-- What holds before and after every iteration: what is queued has been seen, everything
seen is reachable, and a seen vertex that has left the queue has all its successors seen. -/
structure Inv (succ : α → List α) (root : α) (w : Wave α) : Prop where
  start : root ∈ w.seen
  queued : ∀ a ∈ w.queue, a ∈ w.seen
  sound : ∀ a ∈ w.seen, ReflTransGen (fun x y => y ∈ succ x) root a
  closed : ∀ a ∈ w.seen, a ∉ w.queue → ∀ b ∈ succ a, b ∈ w.seen

variable {succ : α → List α} {root : α} {w : Wave α}

theorem mem_seen_discover {next a : α} :
    a ∈ (w.discover next).seen ↔ a = next ∨ a ∈ w.seen := by
  unfold discover
  split
  · rename_i hn
    constructor
    · exact Or.inr
    · rintro (rfl | h)
      · exact hn
      · exact h
  · exact List.mem_cons

theorem mem_queue_discover {next a : α} :
    a ∈ (w.discover next).queue ↔ a ∈ w.queue ∨ a = next ∧ a ∉ w.seen := by
  unfold discover
  split
  · rename_i hn
    constructor
    · exact Or.inl
    · rintro (h | ⟨rfl, h⟩)
      · exact h
      · exact absurd hn h
  · rename_i hn
    rw [List.mem_append, List.mem_singleton]
    constructor
    · rintro (h | rfl)
      · exact Or.inl h
      · exact Or.inr ⟨rfl, hn⟩
    · rintro (h | ⟨h, -⟩)
      · exact Or.inl h
      · exact Or.inr h

theorem mem_seen_foldl {entries : List α} {a : α} :
    a ∈ (entries.foldl discover w).seen ↔ a ∈ entries ∨ a ∈ w.seen := by
  induction entries generalizing w with
  | nil => simp
  | cons next entries ih =>
    rw [List.foldl_cons, ih, mem_seen_discover, List.mem_cons]
    tauto

theorem mem_queue_foldl {entries : List α} {a : α} :
    a ∈ (entries.foldl discover w).queue ↔ a ∈ w.queue ∨ a ∈ entries ∧ a ∉ w.seen := by
  induction entries generalizing w with
  | nil => simp
  | cons next entries ih =>
    rw [List.foldl_cons, ih, mem_queue_discover, mem_seen_discover, List.mem_cons]
    tauto

theorem step_cons {cur : α} {queue : List α} (hq : w.queue = cur :: queue) :
    step succ w = (succ cur).foldl discover ⟨w.seen, queue⟩ := by
  simp only [step, hq]

theorem inv_step (h : Inv succ root w) : Inv succ root (step succ w) := by
  cases hq : w.queue with
  | nil =>
    have hstep : step succ w = w := by simp only [step, hq]
    rw [hstep]
    exact h
  | cons cur queue =>
    have hcur : cur ∈ w.seen := h.queued cur (by simp [hq])
    rw [step_cons hq]
    refine ⟨mem_seen_foldl.mpr (Or.inr h.start), ?_, ?_, ?_⟩
    · intro a ha
      rw [mem_seen_foldl]
      rcases mem_queue_foldl.mp ha with ha | ⟨ha, -⟩
      · exact Or.inr (h.queued a (by simp [hq, ha]))
      · exact Or.inl ha
    · intro a ha
      rcases mem_seen_foldl.mp ha with ha | ha
      · exact (h.sound cur hcur).tail ha
      · exact h.sound a ha
    · intro a ha hna b hb
      rw [mem_queue_foldl] at hna
      rw [mem_seen_foldl] at ha ⊢
      by_cases hac : a = cur
      · subst hac
        exact Or.inl hb
      · have hs : a ∈ w.seen := by
          by_contra hs
          exact hna (Or.inr ⟨ha.resolve_right hs, hs⟩)
        refine Or.inr (h.closed a hs ?_ b hb)
        rw [hq]
        simp only [List.mem_cons, hac, false_or]
        exact fun hq' => hna (Or.inl hq')

theorem inv_run (h : Inv succ root w) (fuel : Nat) : Inv succ root (run succ fuel w) := by
  induction fuel generalizing w with
  | zero => exact h
  | succ fuel ih =>
    unfold run
    split
    · exact h
    · exact ih (inv_step h)

/-! ## Termination -/

omit [DecidableEq α] in
theorem countP_lt_of_mem {p q : α → Bool} {l : List α} (h : ∀ x ∈ l, p x = true → q x = true)
    {a : α} (ha : a ∈ l) (hp : p a = false) (hq : q a = true) : l.countP p < l.countP q := by
  obtain ⟨l₁, l₂, rfl⟩ := List.append_of_mem ha
  have h₁ : l₁.countP p ≤ l₁.countP q :=
    List.countP_mono_left fun x hx => h x (List.mem_append_left _ hx)
  have h₂ : l₂.countP p ≤ l₂.countP q :=
    List.countP_mono_left fun x hx => h x (List.mem_append_right _ (List.mem_cons_of_mem _ hx))
  simp only [List.countP_append, List.countP_cons, hp, hq, if_true]
  simp only [Bool.false_eq_true, if_false]
  omega

def measure (arcs : List (α × α)) (w : Wave α) : Nat :=
  w.queue.length + arcs.countP (fun e => e.2 ∉ w.seen)

theorem measure_discover {arcs : List (α × α)} {next : α} (h : ∃ a, Arc arcs a next) :
    measure arcs (w.discover next) ≤ measure arcs w := by
  unfold discover
  split
  · exact le_rfl
  · rename_i hn
    obtain ⟨a, ha⟩ := h
    have hlt : arcs.countP (fun e => e.2 ∉ next :: w.seen) <
        arcs.countP (fun e => e.2 ∉ w.seen) := by
      refine countP_lt_of_mem ?_ ha (by simp) (by simpa using hn)
      intro e _ he
      simp only [List.mem_cons, not_or, decide_eq_true_eq] at he ⊢
      exact he.2
    simp only [measure, List.length_append, List.length_cons, List.length_nil]
    omega

theorem measure_foldl {arcs : List (α × α)} {entries : List α}
    (h : ∀ next ∈ entries, ∃ a, Arc arcs a next) :
    measure arcs (entries.foldl discover w) ≤ measure arcs w := by
  induction entries generalizing w with
  | nil => exact le_rfl
  | cons next entries ih =>
    rw [List.foldl_cons]
    exact (ih (fun b hb => h b (List.mem_cons_of_mem _ hb))).trans
      (measure_discover (h next List.mem_cons_self))

theorem measure_step {arcs : List (α × α)} (hq : w.queue ≠ []) :
    measure arcs (step (succs arcs) w) < measure arcs w := by
  obtain ⟨cur, queue, hq⟩ := List.exists_cons_of_ne_nil hq
  rw [step_cons hq]
  refine (measure_foldl fun next hn => ⟨cur, mem_succs.mp hn⟩).trans_lt ?_
  simp only [measure, hq, List.length_cons]
  omega

theorem run_queue_nil {arcs : List (α × α)} {fuel : Nat} (hfuel : measure arcs w ≤ fuel) :
    (run (succs arcs) fuel w).queue = [] := by
  induction fuel generalizing w with
  | zero =>
    have hlen : w.queue.length = 0 := by
      unfold measure at hfuel
      omega
    exact List.length_eq_zero_iff.mp hlen
  | succ fuel ih =>
    unfold run
    split
    · assumption
    · rename_i hq
      exact ih (by have := @measure_step _ _ w arcs hq; omega)

end Wave

/-- The search sees exactly the vertices reachable from its root. -/
theorem mem_bfs_iff {arcs : List (α × α)} {root a : α} :
    a ∈ bfs arcs root ↔ ReflTransGen (Arc arcs) root a := by
  have hinit : Wave.Inv (succs arcs) root ⟨[root], [root]⟩ := by
    refine ⟨List.mem_cons_self, fun _ h => h, ?_, fun _ h hn => absurd h hn⟩
    intro b hb
    rw [List.mem_singleton.mp hb]
  have hinv := Wave.inv_run hinit (arcs.length + 1)
  have hqueue : (Wave.run (succs arcs) (arcs.length + 1) ⟨[root], [root]⟩).queue = [] := by
    refine Wave.run_queue_nil ?_
    have hle := List.countP_le_length (p := fun e : α × α => e.2 ∉ [root]) (l := arcs)
    simp only [Wave.measure, List.length_cons, List.length_nil]
    omega
  constructor
  · intro ha
    simpa only [mem_succs] using hinv.sound a ha
  · intro ha
    induction ha with
    | refl => exact hinv.start
    | tail _ hbc ih => exact hinv.closed _ ih (by simp [hqueue]) _ (mem_succs.mpr hbc)

end Interbellum.Digraph
