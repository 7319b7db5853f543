import Mathlib.Algebra.GroupWithZero.Nat
import Mathlib.Data.List.Chain
import Mathlib.Logic.Function.Basic
import Interbellum.Digraph.Arcs

/-!
# Coloured depth-first search with an explicit stack

The search keeps a colour for every vertex and a stack of frames, each a vertex together
with the index of the next entry of its adjacency list. One `step` is one iteration of the
loop: it pops the top frame when its list is used up, and otherwise looks at the next entry,
pushing it when it is white and marking a cycle when it is grey.

* `Inv` is what holds before and after every step, for every adjacency function: the grey
  vertices are exactly those of the stack, each frame's vertex is a successor of the one
  below it, no successor of a black vertex is white, and marked vertices lie on cycles.
* `search_inCycle_sound`: every marked vertex lies on a cycle.
* `search_acyclic_iff`: started from all vertices, the search marks something exactly when
  the graph has a cycle.
* `run_stack_nil`: a search of one component ends within twice the number of arcs (plus
  one) iterations, since every iteration lowers `measure`.
-/

namespace Interbellum.Digraph

open Relation

variable {α : Type}

inductive Colour where
  | white
  | grey
  | black
  deriving DecidableEq, Repr

structure Frame (α : Type) where
  node : α
  next : Nat
  deriving DecidableEq, Repr

/-- The state of the search; the head of `stack` is its top. -/
structure Search (α : Type) where
  colour : α → Colour
  stack : List (Frame α)
  inCycle : List α

namespace Search

def init : Search α := ⟨fun _ => .white, [], []⟩

section

variable [DecidableEq α]

/-- The vertices of the stack from its top down to the first frame of `a`. -/
def downTo (a : α) : List (Frame α) → List α
  | [] => []
  | f :: below => if f.node = a then [f.node] else f.node :: downTo a below

/-- One iteration of the loop over the stack. -/
def step (succ : α → List α) (s : Search α) : Search α :=
  match s.stack with
  | [] => s
  | top :: below =>
    match (succ top.node)[top.next]? with
    | none => { s with colour := Function.update s.colour top.node .black, stack := below }
    | some next =>
      let stack := { top with next := top.next + 1 } :: below
      match s.colour next with
      | .white =>
        { s with colour := Function.update s.colour next .grey, stack := ⟨next, 0⟩ :: stack }
      | .grey => { s with stack, inCycle := next :: downTo next stack ++ s.inCycle }
      | .black => { s with stack }

/-- Iterate `step` until the stack is empty, at most `fuel` times. -/
def run (succ : α → List α) : Nat → Search α → Search α
  | 0, s => s
  | fuel + 1, s => if s.stack = [] then s else run succ fuel (step succ s)

/-- Search the component of `start`, unless it was visited before. -/
def visit (succ : α → List α) (fuel : Nat) (s : Search α) (start : α) : Search α :=
  if s.colour start = .white then
    run succ fuel { s with colour := Function.update s.colour start .grey, stack := [⟨start, 0⟩] }
  else s

end

end Search

/-- The search started from every vertex of `starts` in turn. -/
def search [DecidableEq α] (arcs : List (α × α)) (starts : List α) : Search α :=
  starts.foldl (Search.visit (succs arcs) (2 * arcs.length + 1)) Search.init

/-! ## The invariant of the loop -/

namespace Search

/-- All entries examined so far in the frames of the stack are black, except that a frame's
last examined entry may be the vertex of the frame `above` it. -/
def Settled (succ : α → List α) (colour : α → Colour) : Option α → List (Frame α) → Prop
  | _, [] => True
  | above, f :: below =>
    (∀ b ∈ (succ f.node).take f.next, colour b = .black ∨ some b = above) ∧
      Settled succ colour (some f.node) below

structure Inv (succ : α → List α) (s : Search α) : Prop where
  grey : ∀ a, s.colour a = .grey ↔ a ∈ s.stack.map Frame.node
  nodup : (s.stack.map Frame.node).Nodup
  chain : s.stack.IsChain (fun f g => f.node ∈ succ g.node)
  examined : ∀ f ∈ s.stack, ∀ b ∈ (succ f.node).take f.next, s.colour b ≠ .white
  black : ∀ a, s.colour a = .black → ∀ b ∈ succ a, s.colour b ≠ .white
  marked : ∀ a ∈ s.inCycle, TransGen (fun x y => y ∈ succ x) a a
  settled : s.inCycle = [] → Settled succ s.colour none s.stack
  finished : s.inCycle = [] → ∀ a, s.colour a = .black → Acc (fun b c => b ∈ succ c) a

variable {succ : α → List α} {s : Search α}

theorem inv_init : Inv succ (init : Search α) := by
  refine ⟨?_, ?_, ?_, ?_, ?_, ?_, ?_, ?_⟩ <;> simp [init, Settled]

theorem Settled.mono {colour colour' : α → Colour}
    (h : ∀ a, colour a = .black → colour' a = .black) :
    ∀ {above : Option α} {stack : List (Frame α)}, Settled succ colour above stack →
      Settled succ colour' above stack
  | _, [], _ => trivial
  | _, _ :: _, ⟨h1, h2⟩ => ⟨fun b hb => (h1 b hb).imp_left (h b), Settled.mono h h2⟩

/-- Once the vertex above has turned black, nothing needs to be excused any more. -/
theorem Settled.pop {colour : α → Colour} {a : α} (ha : colour a = .black) :
    ∀ {stack : List (Frame α)}, Settled succ colour (some a) stack →
      Settled succ colour none stack
  | [], _ => trivial
  | _ :: _, ⟨h1, h2⟩ => by
    refine ⟨fun b hb => ?_, h2⟩
    rcases h1 b hb with hb | hb
    · exact Or.inl hb
    · rw [Option.some.inj hb]
      exact Or.inl ha

theorem take_succ_of_getElem? {l : List α} {n : Nat} {a : α} (h : l[n]? = some a) :
    l.take (n + 1) = l.take n ++ [a] := by
  rw [List.take_add_one, h]
  rfl

theorem take_of_getElem?_none {l : List α} {n : Nat} (h : l[n]? = none) : l.take n = l :=
  List.take_of_length_le (List.getElem?_eq_none_iff.mp h)

/-- The chain of the stack does not depend on the index of its top frame. -/
theorem chain_top {top top' : Frame α} {below : List (Frame α)}
    (h : (top :: below).IsChain (fun f g => f.node ∈ succ g.node)) (he : top'.node = top.node) :
    (top' :: below).IsChain (fun f g => f.node ∈ succ g.node) := by
  cases below with
  | nil => exact List.isChain_singleton _
  | cons g below =>
    obtain ⟨hg, hrest⟩ := List.isChain_cons_cons.mp h
    exact List.isChain_cons_cons.mpr ⟨by rw [he]; exact hg, hrest⟩

/-! ## Marked vertices lie on cycles -/

/-- Every vertex of the stack reaches the vertex of the top frame. -/
theorem reaches_top {top : Frame α} {below : List (Frame α)}
    (h : (top :: below).IsChain (fun f g => f.node ∈ succ g.node)) :
    ∀ f ∈ top :: below, ReflTransGen (fun x y => y ∈ succ x) f.node top.node := by
  induction below generalizing top with
  | nil =>
    intro f hf
    rw [List.mem_singleton.mp hf]
  | cons g below ih =>
    obtain ⟨hg, hrest⟩ := List.isChain_cons_cons.mp h
    intro f hf
    rcases List.mem_cons.mp hf with rfl | hf
    · exact ReflTransGen.refl
    · exact (ih hrest f hf).tail hg

variable [DecidableEq α]

/-- A vertex above the frame of `a` can be reached from `a`. -/
theorem reaches_of_mem_downTo {a x : α} {stack : List (Frame α)}
    (h : stack.IsChain (fun f g => f.node ∈ succ g.node)) (ha : a ∈ stack.map Frame.node)
    (hx : x ∈ downTo a stack) : ReflTransGen (fun y z => z ∈ succ y) a x := by
  induction stack with
  | nil => simp [downTo] at hx
  | cons f below ih =>
    unfold downTo at hx
    split at hx
    · rename_i hfa
      rw [List.mem_singleton.mp hx, hfa]
    · rename_i hfa
      rcases List.mem_cons.mp hx with rfl | hx
      · obtain ⟨g, hg, rfl⟩ := List.mem_map.mp ha
        exact reaches_top h g hg
      · refine ih h.tail ?_ hx
        rcases List.mem_map.mp ha with ⟨g, hg, rfl⟩
        rcases List.mem_cons.mp hg with rfl | hg
        · exact absurd rfl hfa
        · exact List.mem_map_of_mem hg

theorem mem_of_mem_downTo {a x : α} {stack : List (Frame α)} (hx : x ∈ downTo a stack) :
    x ∈ stack.map Frame.node := by
  induction stack with
  | nil => simp [downTo] at hx
  | cons f below ih =>
    unfold downTo at hx
    split at hx
    · simp_all
    · rcases List.mem_cons.mp hx with rfl | hx
      · simp
      · exact List.mem_cons_of_mem _ (ih hx)

/-- A back edge closes a cycle through everything from the top of the stack down to its
target. -/
theorem cycle_of_back_edge {top : Frame α} {below : List (Frame α)} {next x : α}
    (h : (top :: below).IsChain (fun f g => f.node ∈ succ g.node))
    (hnext : next ∈ succ top.node) (hstack : next ∈ (top :: below).map Frame.node)
    (hx : x ∈ next :: downTo next (top :: below)) : TransGen (fun y z => z ∈ succ y) x x := by
  have hfrom : ReflTransGen (fun y z => z ∈ succ y) next x := by
    rcases List.mem_cons.mp hx with rfl | hx
    · exact ReflTransGen.refl
    · exact reaches_of_mem_downTo h hstack hx
  have hmem : x ∈ (top :: below).map Frame.node := by
    rcases List.mem_cons.mp hx with rfl | hx
    · exact hstack
    · exact mem_of_mem_downTo hx
  obtain ⟨f, hf, rfl⟩ := List.mem_map.mp hmem
  exact ((TransGen.tail' (reaches_top h f hf) hnext)).trans_left hfrom

/-! ## Every iteration keeps the invariant -/

theorem step_pop {top : Frame α} {below : List (Frame α)} (hs : s.stack = top :: below)
    (hn : (succ top.node)[top.next]? = none) :
    step succ s =
      { s with colour := Function.update s.colour top.node .black, stack := below } := by
  simp only [step, hs, hn]

theorem step_next {top : Frame α} {below : List (Frame α)} {next : α}
    (hs : s.stack = top :: below) (hn : (succ top.node)[top.next]? = some next) :
    step succ s = match s.colour next with
      | .white => { s with
          colour := Function.update s.colour next .grey,
          stack := ⟨next, 0⟩ :: { top with next := top.next + 1 } :: below }
      | .grey => { s with
          stack := { top with next := top.next + 1 } :: below,
          inCycle := next :: downTo next ({ top with next := top.next + 1 } :: below) ++
            s.inCycle }
      | .black => { s with stack := { top with next := top.next + 1 } :: below } := by
  simp only [step, hs, hn]

/-- Using up the adjacency list of the top frame blackens its vertex. -/
theorem Inv.pop (h : Inv succ s) {top : Frame α} {below : List (Frame α)}
    (hs : s.stack = top :: below) (hn : (succ top.node)[top.next]? = none) :
    Inv succ { s with colour := Function.update s.colour top.node .black, stack := below } := by
  obtain ⟨hgrey, hnodup, hchain, hexamined, hblack, hmarked, hsettled, hfinished⟩ := h
  rw [hs] at hgrey hnodup hchain hexamined hsettled
  have hall : (succ top.node).take top.next = succ top.node := take_of_getElem?_none hn
  have htop : top.node ∉ below.map Frame.node := (List.nodup_cons.mp hnodup).1
  have hkeep : ∀ a, s.colour a ≠ .white →
      Function.update s.colour top.node .black a ≠ .white := by
    intro a ha
    by_cases hat : a = top.node
    · simp [hat]
    · simpa [hat] using ha
  refine ⟨?_, (List.nodup_cons.mp hnodup).2, hchain.tail, ?_, ?_, hmarked, ?_, ?_⟩
  · intro a
    by_cases hat : a = top.node
    · subst hat
      simpa using htop
    · simp only [ne_eq, hat, not_false_eq_true, Function.update_of_ne, hgrey, List.map_cons,
        List.mem_cons, false_or]
  · intro f hf b hb
    exact hkeep b (hexamined f (List.mem_cons_of_mem _ hf) b hb)
  · intro a ha b hb
    refine hkeep b ?_
    by_cases hat : a = top.node
    · subst hat
      exact hexamined top List.mem_cons_self b (by rw [hall]; exact hb)
    · exact hblack a (by simpa [hat] using ha) b hb
  · intro hc
    refine Settled.pop (a := top.node) (by simp) (Settled.mono ?_ (hsettled hc).2)
    intro a ha
    by_cases hat : a = top.node
    · simp [hat]
    · simpa [hat] using ha
  · intro hc a ha
    by_cases hat : a = top.node
    · subst hat
      refine Acc.intro _ ?_
      intro b hb
      refine hfinished hc b ?_
      have := (hsettled hc).1 b (by rw [hall]; exact hb)
      simpa using this
    · exact hfinished hc a (by simpa [hat] using ha)

omit [DecidableEq α] in
/-- Advancing the index of the top frame past an entry that is not white. -/
theorem Inv.advance (h : Inv succ s) {top : Frame α} {below : List (Frame α)} {next : α}
    (hs : s.stack = top :: below) (hn : (succ top.node)[top.next]? = some next)
    (hw : s.colour next ≠ .white) (marks : List α)
    (hmarks : ∀ a ∈ marks, TransGen (fun x y => y ∈ succ x) a a)
    (hb : marks = [] → s.colour next = .black) :
    Inv succ { s with
      stack := { top with next := top.next + 1 } :: below, inCycle := marks ++ s.inCycle } := by
  obtain ⟨hgrey, hnodup, hchain, hexamined, hblack, hmarked, hsettled, hfinished⟩ := h
  rw [hs] at hgrey hnodup hchain hexamined hsettled
  refine ⟨hgrey, hnodup, ?_, ?_, hblack, ?_, ?_, ?_⟩
  · exact chain_top hchain rfl
  · intro f hf b hb
    rcases List.mem_cons.mp hf with rfl | hf
    · rw [take_succ_of_getElem? hn] at hb
      rcases List.mem_append.mp hb with hb | hb
      · exact hexamined top List.mem_cons_self b hb
      · rw [List.mem_singleton.mp hb]
        exact hw
    · exact hexamined f (List.mem_cons_of_mem _ hf) b hb
  · intro a ha
    exact (List.mem_append.mp ha).elim (hmarks a) (hmarked a)
  · intro hc
    obtain ⟨hm, hc⟩ := List.append_eq_nil_iff.mp hc
    refine ⟨?_, (hsettled hc).2⟩
    intro b hbm
    rw [take_succ_of_getElem? hn] at hbm
    rcases List.mem_append.mp hbm with hbm | hbm
    · exact (hsettled hc).1 b hbm
    · rw [List.mem_singleton.mp hbm]
      exact Or.inl (hb hm)
  · intro hc
    exact hfinished (List.append_eq_nil_iff.mp hc).2

/-- Pushing a white entry turns it grey. -/
theorem Inv.push (h : Inv succ s) {top : Frame α} {below : List (Frame α)} {next : α}
    (hs : s.stack = top :: below) (hn : (succ top.node)[top.next]? = some next)
    (hw : s.colour next = .white) :
    Inv succ { s with
      colour := Function.update s.colour next .grey,
      stack := ⟨next, 0⟩ :: { top with next := top.next + 1 } :: below } := by
  obtain ⟨hgrey, hnodup, hchain, hexamined, hblack, hmarked, hsettled, hfinished⟩ := h
  rw [hs] at hgrey hnodup hchain hexamined hsettled
  have hfresh : next ∉ (top :: below).map Frame.node := by
    intro hm
    have := (hgrey next).mpr hm
    rw [hw] at this
    cases this
  have hkeep : ∀ a, s.colour a ≠ .white → Function.update s.colour next .grey a ≠ .white := by
    intro a ha
    by_cases han : a = next
    · simp [han]
    · simpa [han] using ha
  have hstill : ∀ a, Function.update s.colour next .grey a = .black ↔ s.colour a = .black := by
    intro a
    by_cases han : a = next
    · simp [han, hw]
    · simp [han]
  have hmem : next ∈ succ top.node := List.mem_of_getElem? hn
  refine ⟨?_, ?_, ?_, ?_, ?_, hmarked, ?_, ?_⟩
  · intro a
    by_cases han : a = next
    · simp [han]
    · simpa [han] using hgrey a
  · exact List.nodup_cons.mpr ⟨hfresh, hnodup⟩
  · exact List.isChain_cons_cons.mpr ⟨hmem, chain_top hchain rfl⟩
  · intro f hf b hb
    rcases List.mem_cons.mp hf with rfl | hf
    · simp at hb
    · rcases List.mem_cons.mp hf with rfl | hf
      · rw [take_succ_of_getElem? hn] at hb
        rcases List.mem_append.mp hb with hb | hb
        · exact hkeep b (hexamined top List.mem_cons_self b hb)
        · rw [List.mem_singleton.mp hb]
          simp
      · exact hkeep b (hexamined f (List.mem_cons_of_mem _ hf) b hb)
  · intro a ha b hb
    exact hkeep b (hblack a ((hstill a).mp ha) b hb)
  · intro hc
    refine ⟨by simp, ?_, Settled.mono (fun a ha => (hstill a).mpr ha) (hsettled hc).2⟩
    intro b hb
    rw [take_succ_of_getElem? hn] at hb
    rcases List.mem_append.mp hb with hb | hb
    · refine Or.inl ((hstill b).mpr ?_)
      simpa using (hsettled hc).1 b hb
    · rw [List.mem_singleton.mp hb]
      exact Or.inr rfl
  · intro hc a ha
    exact hfinished hc a ((hstill a).mp ha)

theorem inv_step (h : Inv succ s) : Inv succ (step succ s) := by
  cases hs : s.stack with
  | nil =>
    have hstep : step succ s = s := by simp only [step, hs]
    rw [hstep]
    exact h
  | cons top below =>
    cases hn : (succ top.node)[top.next]? with
    | none =>
      rw [step_pop hs hn]
      exact h.pop hs hn
    | some next =>
      rw [step_next hs hn]
      cases hc : s.colour next with
      | white => exact h.push hs hn hc
      | grey =>
        have hmem : next ∈ ({ top with next := top.next + 1 } :: below).map Frame.node := by
          simpa [hs] using (h.grey next).mp hc
        have hchain : ({ top with next := top.next + 1 } :: below).IsChain
            (fun f g => f.node ∈ succ g.node) := by
          have hchain := h.chain
          rw [hs] at hchain
          exact chain_top hchain rfl
        refine h.advance hs hn (by simp [hc]) _ ?_ (by simp)
        intro a ha
        exact cycle_of_back_edge hchain (List.mem_of_getElem? hn) hmem ha
      | black => exact h.advance hs hn (by simp [hc]) [] (by simp) (fun _ => hc)

theorem inv_run (h : Inv succ s) (fuel : Nat) : Inv succ (run succ fuel s) := by
  induction fuel generalizing s with
  | zero => exact h
  | succ fuel ih =>
    unfold run
    split
    · exact h
    · exact ih (inv_step h)

/-! ## Termination -/

/-- The adjacency entries not examined yet: all those of white vertices, and those from the
index on in the frames of the stack. -/
def unexamined (arcs : List (α × α)) (s : Search α) : Nat :=
  arcs.countP (fun e => s.colour e.1 = .white) +
    (s.stack.map fun f => (succs arcs f.node).length - f.next).sum

def measure (arcs : List (α × α)) (s : Search α) : Nat :=
  2 * unexamined arcs s + s.stack.length

theorem countP_white_update (arcs : List (α × α)) {colour : α → Colour} {a : α}
    (ha : colour a = .white) :
    arcs.countP (fun e => Function.update colour a .grey e.1 = .white) +
      (succs arcs a).length = arcs.countP (fun e => colour e.1 = .white) := by
  rw [length_succs]
  induction arcs with
  | nil => rfl
  | cons e arcs ih =>
    simp only [List.countP_cons]
    by_cases he : e.1 = a
    · simp only [he, Function.update_self, ha, decide_true, if_true, reduceCtorEq,
        decide_false]
      simp only [if_false]
      omega
    · simp only [ne_eq, he, not_false_eq_true, Function.update_of_ne, decide_false,
        Bool.false_eq_true, if_false]
      omega

theorem countP_white_black {arcs : List (α × α)} {colour : α → Colour} {a : α}
    (ha : colour a ≠ .white) :
    arcs.countP (fun e => Function.update colour a .black e.1 = .white) =
      arcs.countP (fun e => colour e.1 = .white) := by
  congr 1
  funext e
  by_cases he : e.1 = a
  · simp [he, ha]
  · simp [he]

/-- Every iteration of the loop lowers the measure. -/
theorem measure_step {arcs : List (α × α)} (h : Inv (succs arcs) s) (hs : s.stack ≠ []) :
    measure arcs (step (succs arcs) s) < measure arcs s := by
  obtain ⟨top, below, hs⟩ := List.exists_cons_of_ne_nil hs
  cases hn : (succs arcs top.node)[top.next]? with
  | none =>
    have hgrey : s.colour top.node ≠ .white := by
      rw [(h.grey top.node).mpr (by simp [hs])]
      simp
    rw [step_pop hs hn]
    simp only [measure, unexamined, hs, countP_white_black hgrey, List.map_cons, List.sum_cons,
      List.length_cons]
    omega
  | some next =>
    have hlt : top.next < (succs arcs top.node).length := (List.getElem?_eq_some_iff.mp hn).1
    rw [step_next hs hn]
    cases hc : s.colour next with
    | white =>
      have hcount := countP_white_update arcs hc
      simp only [measure, unexamined, hs, List.map_cons, List.sum_cons, List.length_cons]
      omega
    | grey =>
      simp only [measure, unexamined, hs, List.map_cons, List.sum_cons, List.length_cons]
      omega
    | black =>
      simp only [measure, unexamined, hs, List.map_cons, List.sum_cons, List.length_cons]
      omega

theorem run_stack_nil {arcs : List (α × α)} {fuel : Nat} (h : Inv (succs arcs) s)
    (hfuel : measure arcs s ≤ fuel) : (run (succs arcs) fuel s).stack = [] := by
  induction fuel generalizing s with
  | zero =>
    have hlen : s.stack.length = 0 := by
      unfold measure at hfuel
      omega
    exact List.length_eq_zero_iff.mp hlen
  | succ fuel ih =>
    unfold run
    split
    · assumption
    · rename_i hs
      exact ih (inv_step h) (by have := measure_step h hs; omega)

/-! ## The whole search -/

theorem colour_step {a : α} (ha : s.colour a ≠ .white) :
    (step succ s).colour a ≠ .white := by
  cases hs : s.stack with
  | nil => simpa only [step, hs] using ha
  | cons top below =>
    cases hn : (succ top.node)[top.next]? with
    | none =>
      rw [step_pop hs hn]
      by_cases hat : a = top.node
      · simp [hat]
      · simpa [hat] using ha
    | some next =>
      rw [step_next hs hn]
      cases hc : s.colour next with
      | white =>
        have han : a ≠ next := by
          rintro rfl
          exact ha hc
        simpa [han] using ha
      | grey => exact ha
      | black => exact ha

theorem colour_run {a : α} (ha : s.colour a ≠ .white) (fuel : Nat) :
    (run succ fuel s).colour a ≠ .white := by
  induction fuel generalizing s with
  | zero => exact ha
  | succ fuel ih =>
    unfold run
    split
    · exact ha
    · exact ih (colour_step ha)

theorem Inv.start (h : Inv succ s) (hs : s.stack = []) {a : α} (ha : s.colour a = .white) :
    Inv succ { s with colour := Function.update s.colour a .grey, stack := [⟨a, 0⟩] } := by
  obtain ⟨hgrey, -, -, -, hblack, hmarked, -, hfinished⟩ := h
  have hstill : ∀ b, Function.update s.colour a .grey b = .black ↔ s.colour b = .black := by
    intro b
    by_cases hba : b = a
    · simp [hba, ha]
    · simp [hba]
  refine ⟨?_, by simp, List.isChain_singleton _, by simp, ?_, hmarked, ?_, ?_⟩
  · intro b
    by_cases hba : b = a
    · simp [hba]
    · simpa [hba, hs] using hgrey b
  · intro b hb c hc
    have := hblack b ((hstill b).mp hb) c hc
    by_cases hca : c = a
    · simp [hca]
    · simpa [hca] using this
  · exact fun _ => ⟨by simp, trivial⟩
  · exact fun hc b hb => hfinished hc b ((hstill b).mp hb)

/-- Between two components the stack is empty, and the vertices visited stay visited. -/
theorem visit_spec {arcs : List (α × α)} (h : Inv (succs arcs) s) (hs : s.stack = [])
    (start : α) :
    let s' := visit (succs arcs) (2 * arcs.length + 1) s start
    Inv (succs arcs) s' ∧ s'.stack = [] ∧ s'.colour start ≠ .white ∧
      ∀ a, s.colour a ≠ .white → s'.colour a ≠ .white := by
  unfold visit
  split
  · rename_i hw
    have h0 := h.start hs hw
    refine ⟨inv_run h0 _, run_stack_nil h0 ?_, colour_run (by simp) _, ?_⟩
    · have hcount := countP_white_update arcs hw
      have hle := List.countP_le_length (p := fun e : α × α => s.colour e.1 = .white) (l := arcs)
      simp only [measure, unexamined, List.map_cons, List.map_nil, List.sum_cons, List.sum_nil,
        List.length_cons, List.length_nil]
      omega
    · intro a ha
      refine colour_run ?_ _
      by_cases hat : a = start
      · simp [hat]
      · simpa [hat] using ha
  · rename_i hw
    exact ⟨h, hs, hw, fun a ha => ha⟩

theorem foldl_visit_spec {arcs : List (α × α)} (starts : List α) (h : Inv (succs arcs) s)
    (hs : s.stack = []) :
    let s' := starts.foldl (visit (succs arcs) (2 * arcs.length + 1)) s
    Inv (succs arcs) s' ∧ s'.stack = [] ∧ (∀ a ∈ starts, s'.colour a ≠ .white) ∧
      ∀ a, s.colour a ≠ .white → s'.colour a ≠ .white := by
  induction starts generalizing s with
  | nil => exact ⟨h, hs, by simp, fun a ha => ha⟩
  | cons start starts ih =>
    obtain ⟨h1, hs1, hstart, hkeep⟩ := visit_spec h hs start
    obtain ⟨h2, hs2, hstarts, hkeep'⟩ := ih h1 hs1
    refine ⟨h2, hs2, ?_, fun a ha => hkeep' a (hkeep a ha)⟩
    intro a ha
    rcases List.mem_cons.mp ha with rfl | ha
    · exact hkeep' a hstart
    · exact hstarts a ha

end Search

variable [DecidableEq α]

/-- Every marked vertex lies on a cycle. -/
theorem search_inCycle_sound {arcs : List (α × α)} {starts : List α} {a : α}
    (ha : a ∈ (search arcs starts).inCycle) : TransGen (Arc arcs) a a := by
  obtain ⟨h, -⟩ := Search.foldl_visit_spec starts (@Search.inv_init _ (succs arcs)) rfl
  have := h.marked a ha
  simpa only [mem_succs] using this

/-- Started from every vertex with an outgoing arc, the search marks nothing exactly when
the graph is acyclic. -/
theorem search_acyclic_iff {arcs : List (α × α)} {starts : List α}
    (hstarts : ∀ a b, Arc arcs a b → a ∈ starts) :
    (search arcs starts).inCycle = [] ↔ Acyclic arcs := by
  constructor
  · intro hnil
    have hspec := Search.foldl_visit_spec starts (@Search.inv_init _ (succs arcs)) rfl
    obtain ⟨h, hs, hvisited, -⟩ : Search.Inv (succs arcs) (search arcs starts) ∧
      (search arcs starts).stack = [] ∧ _ := hspec
    refine acyclic_of_acc ?_
    intro a b hab
    have hblack : (search arcs starts).colour a = .black := by
      have hne := hvisited a (hstarts a b hab)
      have hgrey : (search arcs starts).colour a = .grey ↔ a ∈ [] := by
        simpa only [hs, List.map_nil] using h.grey a
      cases hc : (search arcs starts).colour a with
      | white => exact absurd hc hne
      | grey => simp [hc] at hgrey
      | black => rfl
    simpa only [mem_succs] using h.finished hnil a hblack
  · intro hacyclic
    refine List.eq_nil_iff_forall_not_mem.mpr ?_
    intro a ha
    exact hacyclic a (search_inCycle_sound ha)

end Interbellum.Digraph
