import Interbellum.Digraph.DepthFirst

/-!
# The loops of the depth-first search

`search` gives every component enough fuel. Here the loops are run without fuel, one iteration
after the other: `Next` is one iteration of the loop over the start vertices or of the loop over
the stack, and `Runs` are the first iterations of the search. A configuration also records which
entries of the adjacency lists have been examined.

* `Runs.inv`: the invariant holds before every iteration.
* `Runs.examined_once`: no entry is examined twice.
* `Runs.bound`, `Runs.next_or_done`, `Runs.exists_done`: the loops end.
* `Runs.search_eq`: where they end, the search is `search`.
* `Runs.scan`: the scan for a grey successor meets its frame.
-/

namespace Interbellum.Digraph

open Relation

variable {α : Type} [DecidableEq α]

namespace Search

/-- The entry of an adjacency list that an iteration examines: a vertex and an index. -/
def examines (succ : α → List α) (s : Search α) : Option (α × ℕ) :=
  match s.stack with
  | [] => none
  | top :: _ => if top.next < (succ top.node).length then some (top.node, top.next) else none

end Search

/-- `rest` are the start vertices that the outer loop has not reached yet. -/
structure Config (α : Type) where
  rest : List α
  search : Search α
  examined : List (α × ℕ)

/-- One iteration of the outer loop, while the stack is empty, or else of the inner one. -/
inductive Next (succ : α → List α) : Config α → Config α → Prop
  | skip {start : α} {rest : List α} {s : Search α} {examined : List (α × ℕ)}
      (hstack : s.stack = []) (hcolour : s.colour start ≠ .white) :
      Next succ ⟨start :: rest, s, examined⟩ ⟨rest, s, examined⟩
  | enter {start : α} {rest : List α} {s : Search α} {examined : List (α × ℕ)}
      (hstack : s.stack = []) (hcolour : s.colour start = .white) :
      Next succ ⟨start :: rest, s, examined⟩ ⟨rest,
        { s with colour := Function.update s.colour start .grey, stack := [⟨start, 0⟩] }, examined⟩
  | iterate {rest : List α} {s : Search α} {examined : List (α × ℕ)} (hstack : s.stack ≠ []) :
      Next succ ⟨rest, s, examined⟩
        ⟨rest, s.step succ, examined ++ (s.examines succ).toList⟩

/-- The first `n` iterations of the search from `starts` lead to a configuration. -/
inductive Runs (succ : α → List α) (starts : List α) : ℕ → Config α → Prop
  | init : Runs succ starts 0 ⟨starts, Search.init, []⟩
  | next {n : ℕ} {c c' : Config α} (h : Runs succ starts n c) (hnext : Next succ c c') :
      Runs succ starts (n + 1) c'

namespace Runs

variable {succ : α → List α} {starts : List α} {n : ℕ} {c : Config α}

/-- The invariant of the search holds before every iteration. -/
theorem inv (h : Runs succ starts n c) : Search.Inv succ c.search := by
  induction h with
  | init => exact Search.inv_init
  | next _ hnext ih =>
    cases hnext with
    | skip => exact ih
    | enter hstack hcolour => exact ih.start hstack hcolour
    | iterate => exact Search.inv_step ih

end Runs

/-! ## Entries -/

/-- The entries examined so far are different, and come before the index of their vertex while it
is on the stack. -/
structure Config.Examined (succ : α → List α) (c : Config α) : Prop where
  nodup : c.examined.Nodup
  entry : ∀ e ∈ c.examined, e.2 < (succ e.1).length
  visited : ∀ e ∈ c.examined, c.search.colour e.1 ≠ .white
  before : ∀ e ∈ c.examined, ∀ f ∈ c.search.stack, f.node = e.1 → e.2 < f.next

namespace Search

variable {succ : α → List α} {s : Search α} {top : Frame α} {below : List (Frame α)}

omit [DecidableEq α] in
theorem examines_pop (hs : s.stack = top :: below) (hn : (succ top.node)[top.next]? = none) :
    s.examines succ = none := by
  simp only [examines, hs, if_neg (not_lt.mpr (List.getElem?_eq_none_iff.mp hn))]

omit [DecidableEq α] in
theorem examines_next {next : α} (hs : s.stack = top :: below)
    (hn : (succ top.node)[top.next]? = some next) :
    s.examines succ = some (top.node, top.next) := by
  simp only [examines, hs, if_pos (List.getElem?_eq_some_iff.mp hn).1]

end Search

namespace Config.Examined

variable {succ : α → List α} {rest : List α} {s s' : Search α} {examined : List (α × ℕ)}
  {top : Frame α} {below : List (Frame α)}

omit [DecidableEq α] in
/-- The top frame moves on, and frames of white vertices may be pushed on it. -/
theorem advance (h : Examined succ ⟨rest, s, examined⟩) (hinv : Search.Inv succ s)
    (hs : s.stack = top :: below) {next : α} (hn : (succ top.node)[top.next]? = some next)
    (hkeep : ∀ a, s.colour a ≠ .white → s'.colour a ≠ .white) (pushed : List (Frame α))
    (hpushed : ∀ f ∈ pushed, s.colour f.node = .white)
    (hs' : s'.stack = pushed ++ { top with next := top.next + 1 } :: below) :
    Examined succ ⟨rest, s', examined ++ [(top.node, top.next)]⟩ := by
  have hgrey : s.colour top.node ≠ .white := by
    rw [(hinv.grey top.node).mpr (by simp [hs])]
    nofun
  have hbelow : ∀ f ∈ below, f.node ≠ top.node := by
    have hnodup := hinv.nodup
    rw [hs, List.map_cons, List.nodup_cons] at hnodup
    exact fun f hf hsame => hnodup.1 (hsame ▸ List.mem_map_of_mem hf)
  have hfresh : (top.node, top.next) ∉ examined := fun hmem =>
    absurd (h.before _ hmem top (hs ▸ List.mem_cons_self) rfl) (lt_irrefl _)
  have hframes : ∀ f ∈ s'.stack, s.colour f.node ≠ .white →
      f = { top with next := top.next + 1 } ∨ f ∈ below := by
    intro f hf hvisited
    rw [hs', List.mem_append, List.mem_cons] at hf
    exact hf.resolve_left fun hmem => hvisited (hpushed f hmem)
  refine ⟨?_, ?_, ?_, ?_⟩
  · rw [List.nodup_append]
    refine ⟨h.nodup, List.nodup_singleton _, fun e he e' he' hsame => ?_⟩
    rw [hsame, List.mem_singleton.mp he'] at he
    exact hfresh he
  · rintro e he
    rcases List.mem_append.mp he with he | he
    · exact h.entry e he
    · rw [List.mem_singleton.mp he]
      exact (List.getElem?_eq_some_iff.mp hn).1
  · rintro e he
    rcases List.mem_append.mp he with he | he
    · exact hkeep _ (h.visited e he)
    · rw [List.mem_singleton.mp he]
      exact hkeep _ hgrey
  · rintro e he f hf hnode
    rcases List.mem_append.mp he with he | he
    · rcases hframes f hf (hnode ▸ h.visited e he) with rfl | hf
      · exact (h.before e he top (hs ▸ List.mem_cons_self) hnode).trans (Nat.lt_succ_self _)
      · exact h.before e he f (hs ▸ List.mem_cons_of_mem _ hf) hnode
    · rw [List.mem_singleton.mp he] at hnode ⊢
      rcases hframes f hf (hnode ▸ hgrey) with rfl | hf
      · exact Nat.lt_succ_self _
      · exact absurd hnode (hbelow f hf)

theorem iterate (h : Examined succ ⟨rest, s, examined⟩) (hinv : Search.Inv succ s)
    (hstack : s.stack ≠ []) :
    Examined succ ⟨rest, s.step succ, examined ++ (s.examines succ).toList⟩ := by
  obtain ⟨top, below, hs⟩ := List.exists_cons_of_ne_nil hstack
  cases hn : (succ top.node)[top.next]? with
  | none =>
    rw [Search.examines_pop hs hn, Search.step_pop hs hn, Option.toList_none, List.append_nil]
    refine ⟨h.nodup, h.entry, fun e he => ?_, fun e he f hf => ?_⟩
    · have hkeep : (s.step succ).colour e.1 ≠ .white := Search.colour_step (h.visited e he)
      rwa [Search.step_pop hs hn] at hkeep
    · exact h.before e he f (hs ▸ List.mem_cons_of_mem _ hf)
  | some next =>
    rw [Search.examines_next hs hn]
    have hkeep : ∀ a, s.colour a ≠ .white → (s.step succ).colour a ≠ .white :=
      fun a ha => Search.colour_step ha
    have hstep := Search.step_next hs hn
    cases hc : s.colour next with
    | white =>
      refine h.advance hinv hs hn hkeep [⟨next, 0⟩] ?_ ?_
      · exact fun f hf => by rw [List.mem_singleton.mp hf]; exact hc
      · rw [hstep, hc]
        rfl
    | grey =>
      refine h.advance hinv hs hn hkeep [] (fun f hf => absurd hf List.not_mem_nil) ?_
      rw [hstep, hc]
      rfl
    | black =>
      refine h.advance hinv hs hn hkeep [] (fun f hf => absurd hf List.not_mem_nil) ?_
      rw [hstep, hc]
      rfl

end Config.Examined

namespace Runs

variable {succ : α → List α} {starts : List α} {n : ℕ} {c : Config α}

/-- No entry of an adjacency list is examined twice. -/
theorem examined_once (h : Runs succ starts n c) : c.Examined succ := by
  induction h with
  | init => exact ⟨List.nodup_nil, nofun, nofun, nofun⟩
  | next h hnext ih =>
    cases hnext with
    | skip => exact ⟨ih.nodup, ih.entry, ih.visited, ih.before⟩
    | @enter start _ _ _ hstack hcolour =>
      refine ⟨ih.nodup, ih.entry, fun e he => ?_, fun e he f hf hnode => ?_⟩
      · have hne : e.1 ≠ start := by
          rintro rfl
          exact ih.visited e he hcolour
        exact (Function.update_of_ne hne _ _).trans_ne (ih.visited e he)
      · rw [List.mem_singleton.mp hf] at hnode
        exact absurd (hnode ▸ hcolour) (ih.visited e he)
    | iterate hstack => exact ih.iterate h.inv hstack

end Runs

/-! ## Termination -/

/-- What is left to do: every iteration lowers it. -/
def Config.potential (arcs : List (α × α)) (c : Config α) : ℕ :=
  2 * c.rest.length + Search.measure arcs c.search

variable {arcs : List (α × α)} {starts : List α} {n : ℕ} {c c' : Config α}

theorem measure_enter {s : Search α} {start : α} (hstack : s.stack = [])
    (hcolour : s.colour start = .white) :
    Search.measure arcs { s with
        colour := Function.update s.colour start .grey, stack := [⟨start, 0⟩] } =
      Search.measure arcs s + 1 := by
  have hcount := Search.countP_white_update arcs hcolour
  simp only [Search.measure, Search.unexamined, hstack, List.map_cons, List.map_nil, List.sum_cons,
    List.sum_nil, List.length_cons, List.length_nil]
  omega

theorem Next.potential_lt (hinv : Search.Inv (succs arcs) c.search)
    (h : Next (succs arcs) c c') : c'.potential arcs < c.potential arcs := by
  cases h with
  | skip =>
    simp only [Config.potential, List.length_cons]
    omega
  | enter hstack hcolour =>
    simp only [Config.potential, List.length_cons, measure_enter hstack hcolour]
    omega
  | iterate hstack =>
    have hlt := Search.measure_step hinv hstack
    simp only [Config.potential] at hlt ⊢
    omega

theorem measure_init (arcs : List (α × α)) :
    Search.measure arcs Search.init ≤ 2 * arcs.length := by
  have hle : arcs.countP (fun e => (Search.init : Search α).colour e.1 = .white) ≤ arcs.length :=
    List.countP_le_length
  simp only [Search.measure, Search.unexamined, Search.init, List.map_nil, List.sum_nil,
    List.length_nil] at hle ⊢
  omega

/-- There are at most twice as many iterations as start vertices and entries. -/
theorem Runs.bound (h : Runs (succs arcs) starts n c) :
    n + c.potential arcs ≤ 2 * (starts.length + arcs.length) := by
  induction h with
  | init =>
    have hle := measure_init arcs
    simp only [Config.potential]
    omega
  | next h hnext ih =>
    have hlt := hnext.potential_lt h.inv
    omega

/-- Both loops are at their end. -/
def Config.Done (c : Config α) : Prop := c.rest = [] ∧ c.search.stack = []

theorem Config.next_or_done (succ : α → List α) (c : Config α) : c.Done ∨ ∃ c', Next succ c c' := by
  obtain ⟨rest, s, examined⟩ := c
  by_cases hstack : s.stack = []
  · cases rest with
    | nil => exact .inl ⟨rfl, hstack⟩
    | cons start rest =>
      by_cases hcolour : s.colour start = .white
      · exact .inr ⟨_, .enter hstack hcolour⟩
      · exact .inr ⟨_, .skip hstack hcolour⟩
  · exact .inr ⟨_, .iterate hstack⟩

theorem Runs.finishes (h : Runs (succs arcs) starts n c) :
    ∃ m c', Runs (succs arcs) starts m c' ∧ c'.Done := by
  induction hk : c.potential arcs using Nat.strong_induction_on generalizing n c with
  | _ k ih =>
    rcases c.next_or_done (succs arcs) with hdone | ⟨c', hnext⟩
    · exact ⟨n, c, h, hdone⟩
    · exact ih _ (hk ▸ hnext.potential_lt h.inv) (h.next hnext) rfl

/-- The loops end. -/
theorem exists_done (arcs : List (α × α)) (starts : List α) :
    ∃ n c, Runs (succs arcs) starts n c ∧ c.Done := Runs.init.finishes

/-! ## Where the loops end -/

namespace Search

variable {s : Search α}

theorem run_of_stack_nil {succ : α → List α} (hs : s.stack = []) (fuel : ℕ) :
    run succ fuel s = s := by
  cases fuel with
  | zero => rfl
  | succ fuel => rw [run, if_pos hs]

/-- More fuel than needed changes nothing. -/
theorem run_fuel {fuel fuel' : ℕ} (h : Inv (succs arcs) s) (hfuel : measure arcs s ≤ fuel)
    (hfuel' : measure arcs s ≤ fuel') : run (succs arcs) fuel s = run (succs arcs) fuel' s := by
  induction fuel generalizing s fuel' with
  | zero =>
    have hlen : s.stack.length = 0 := by
      unfold measure at hfuel
      omega
    rw [run_of_stack_nil (List.length_eq_zero_iff.mp hlen), run_of_stack_nil
      (List.length_eq_zero_iff.mp hlen)]
  | succ fuel ih =>
    by_cases hs : s.stack = []
    · rw [run_of_stack_nil hs, run_of_stack_nil hs]
    · have hlt := measure_step h hs
      obtain ⟨fuel', rfl⟩ : ∃ m, fuel' = m + 1 := ⟨fuel' - 1, by omega⟩
      rw [run, run, if_neg hs, if_neg hs]
      exact ih (inv_step h) (by omega) (by omega)

end Search

/-- What the search comes to from a configuration on. -/
def Config.result (arcs : List (α × α)) (c : Config α) : Search α :=
  c.rest.foldl (Search.visit (succs arcs) (2 * arcs.length + 1))
    (Search.run (succs arcs) (2 * arcs.length + 1) c.search)

theorem Runs.measure_le (h : Runs (succs arcs) starts n c) :
    Search.measure arcs c.search ≤ 2 * arcs.length + 1 := by
  induction h with
  | init => exact (measure_init _).trans (Nat.le_succ _)
  | next h hnext ih =>
    cases hnext with
    | skip => exact ih
    | @enter _ _ s _ hstack hcolour =>
      rw [measure_enter hstack hcolour]
      have hle := List.countP_le_length (p := fun e : α × α => s.colour e.1 = .white) (l := arcs)
      simp only [Search.measure, Search.unexamined, hstack, List.map_nil, List.sum_nil,
        List.length_nil]
      omega
    | iterate hstack => exact (Search.measure_step h.inv hstack).le.trans ih

theorem Next.result_eq (h : Runs (succs arcs) starts n c) (hnext : Next (succs arcs) c c') :
    c'.result arcs = c.result arcs := by
  have hmeasure := h.measure_le
  have hinv := h.inv
  cases hnext with
  | skip hstack hcolour =>
    simp only [Config.result, Search.run_of_stack_nil hstack, List.foldl_cons, Search.visit,
      if_neg hcolour]
  | enter hstack hcolour =>
    simp only [Config.result, Search.run_of_stack_nil hstack, List.foldl_cons, Search.visit,
      if_pos hcolour]
  | @iterate _ s _ hstack =>
    have hrun : Search.run (succs arcs) (2 * arcs.length + 1 + 1) s =
        Search.run (succs arcs) (2 * arcs.length + 1) (s.step (succs arcs)) := by
      rw [Search.run, if_neg hstack]
    simp only [Config.result]
    rw [← hrun, Search.run_fuel hinv (hmeasure.trans (Nat.le_succ _)) hmeasure]

/-- The loops end in `search`. -/
theorem Runs.search_eq (h : Runs (succs arcs) starts n c) (hdone : c.Done) :
    c.search = search arcs starts := by
  have hresult : c.result arcs = search arcs starts := by
    clear hdone
    induction h with
    | init => rfl
    | next h hnext ih => rw [hnext.result_eq h, ih]
  rw [← hresult, Config.result, hdone.1, Search.run_of_stack_nil hdone.2]
  rfl

/-! ## The scan of the stack -/

namespace Search

theorem downTo_split {a : α} {stack : List (Frame α)} (h : a ∈ stack.map Frame.node) :
    ∃ above f below, stack = above ++ f :: below ∧ f.node = a ∧ (∀ g ∈ above, g.node ≠ a) ∧
      downTo a stack = above.map Frame.node ++ [a] := by
  induction stack with
  | nil => exact absurd h List.not_mem_nil
  | cons g stack ih =>
    rw [downTo]
    by_cases hg : g.node = a
    · refine ⟨[], g, stack, rfl, hg, fun _ hmem => absurd hmem List.not_mem_nil, ?_⟩
      rw [if_pos hg, hg]
      rfl
    · obtain ⟨above, f, below, rfl, hf, habove, hdown⟩ :=
        ih ((List.mem_cons.mp h).resolve_left (Ne.symm hg))
      refine ⟨g :: above, f, below, rfl, hf, List.forall_mem_cons.mpr ⟨hg, habove⟩, ?_⟩
      rw [if_neg hg, hdown, List.map_cons, List.cons_append]

end Search

/-- The scan for a grey successor goes down to its frame, and marks what it passes. -/
theorem Runs.scan {succ : α → List α} (h : Runs succ starts n c) {top : Frame α}
    {below : List (Frame α)} {next : α} (hs : c.search.stack = top :: below)
    (hn : (succ top.node)[top.next]? = some next) (hgrey : c.search.colour next = .grey) :
    ∃ above f rest, c.search.stack = above ++ f :: rest ∧ f.node = next ∧
      (∀ g ∈ above, g.node ≠ next) ∧
      (c.search.step succ).inCycle =
        next :: (above.map Frame.node ++ [next]) ++ c.search.inCycle := by
  obtain ⟨above, f, rest, hsplit, hf, habove, hdown⟩ :=
    Search.downTo_split ((h.inv.grey next).mp hgrey)
  refine ⟨above, f, rest, hsplit, hf, habove, ?_⟩
  have hsame : Search.downTo next ({ top with next := top.next + 1 } :: below) =
      Search.downTo next (top :: below) := rfl
  rw [Search.step_next hs hn, hgrey]
  dsimp only
  rw [hsame, ← hs, hdown]

end Interbellum.Digraph
