import Interbellum.Digraph.DepthFirst

/-!
# What a depth-first search marks

A vertex that lies on a cycle need not be marked by the search: the cycle may close through
a vertex that is black already. Which vertices are marked depends on the order of the starts
and of the arcs. A path is *first* when none of its choices could have been replaced by an
earlier one: an earlier start, or an earlier arc at a vertex of the path, does not lead to
the end of the path around the vertices passed before. These are the paths on the stack.

* `First.unique`: one first path leads to a vertex.
* `search_inCycle_iff`: the marked vertices are those on a loop that an arc closes back to
  the first path it extends.
-/

namespace Interbellum.Digraph

open Relation

variable {α : Type} (succ : α → List α) (starts : List α)

/-! ## First paths -/

/-- Where a path can go on that has passed these vertices, the last one first. -/
def choices : List α → List α
  | [] => starts
  | a :: _ => succ a

/-- A path without repetitions from one of the starts, its last vertex first. -/
inductive SimplePath : List α → Prop
  | nil : SimplePath []
  | cons {b : α} {path : List α} (h : SimplePath path) (hb : b ∈ choices succ starts path)
      (hnew : b ∉ path) : SimplePath (b :: path)

/-- There is a way from `a` to `b` around the vertices of `passed`. -/
def Around (passed : List α) (a b : α) : Prop :=
  a ∉ passed ∧ ReflTransGen (fun x y => y ∈ succ x ∧ y ∉ passed) a b

/-- No choice before `b` leads to `w` around the vertices passed before it. -/
def Earliest [DecidableEq α] (passed : List α) (b w : α) : Prop :=
  ∀ a, (choices succ starts passed).idxOf a < (choices succ starts passed).idxOf b →
    ¬ Around succ passed a w

/-- No choice of the path could have been replaced by an earlier one. -/
structure First [DecidableEq α] (w : α) (path : List α) : Prop where
  simple : SimplePath succ starts (w :: path)
  earliest : ∀ above b below, w :: path = above ++ b :: below → Earliest succ starts below b w

/-- `x` lies on a loop that an arc from the end of a first path back to it closes. -/
def FirstLoop [DecidableEq α] (x : α) : Prop :=
  ∃ w path above b below, First succ starts w path ∧ w :: path = above ++ b :: below ∧
    b ∈ succ w ∧ x ∈ b :: above

variable {succ starts}

namespace SimplePath

theorem nodup {path : List α} (h : SimplePath succ starts path) : path.Nodup := by
  induction h with
  | nil => exact List.nodup_nil
  | cons _ _ hnew ih => exact List.nodup_cons.mpr ⟨hnew, ih⟩

theorem of_append {above below : List α} (h : SimplePath succ starts (above ++ below)) :
    SimplePath succ starts below := by
  induction above with
  | nil => exact h
  | cons a above ih =>
    cases h with
    | cons h => exact ih h

theorem choice {above below : List α} {b : α}
    (h : SimplePath succ starts (above ++ b :: below)) :
    b ∈ choices succ starts below ∧ b ∉ below := by
  cases h.of_append with
  | cons _ hb hnew => exact ⟨hb, hnew⟩

/-- What follows on a path does not meet what was passed. -/
theorem around {above below : List α} {b w : α} {path : List α}
    (h : SimplePath succ starts (w :: path)) (hsplit : w :: path = above ++ b :: below) :
    Around succ below b w := by
  induction above generalizing w path with
  | nil =>
    obtain ⟨rfl, rfl⟩ := List.cons.inj hsplit
    cases h with
    | cons _ _ hnew => exact ⟨hnew, .refl⟩
  | cons a above ih =>
    obtain ⟨rfl, rfl⟩ := List.cons.inj hsplit
    have hnodup := h.nodup
    cases h with
    | cons h hw _ =>
      have hwbelow : w ∉ below := fun hmem => (List.nodup_cons.mp hnodup).1
        (List.mem_append_right _ (List.mem_cons_of_mem _ hmem))
      cases above with
      | nil =>
        obtain ⟨hb, hreach⟩ := ih h rfl
        exact ⟨hb, hreach.tail ⟨hw, hwbelow⟩⟩
      | cons c above =>
        obtain ⟨hb, hreach⟩ := ih h rfl
        exact ⟨hb, hreach.tail ⟨hw, hwbelow⟩⟩

end SimplePath

/-- Two lists read from their ends: one continues the other, or they part somewhere. -/
theorem suffix_or_part (l l' : List α) : l <:+ l' ∨ l' <:+ l ∨
    ∃ below a a' above above', l = above ++ a :: below ∧ l' = above' ++ a' :: below ∧ a ≠ a' := by
  induction l using List.reverseRecOn generalizing l' with
  | nil => exact .inl (List.nil_suffix)
  | append_singleton l a ih =>
    cases l' using List.reverseRecOn with
    | nil => exact .inr (.inl List.nil_suffix)
    | append_singleton l' a' =>
      by_cases ha : a = a'
      · subst ha
        rcases ih l' with ⟨t, ht⟩ | ⟨t, ht⟩ | ⟨below, b, b', above, above', hl, hl', hne⟩
        · exact .inl ⟨t, by rw [← List.append_assoc, ht]⟩
        · exact .inr (.inl ⟨t, by rw [← List.append_assoc, ht]⟩)
        · exact .inr (.inr ⟨below ++ [a], b, b', above, above', by simp [hl], by simp [hl'], hne⟩)
      · exact .inr (.inr ⟨[], a, a', l, l', rfl, rfl, ha⟩)

/-- A path does not come back to its end. -/
theorem SimplePath.eq_of_suffix {w : α} {path path' : List α}
    (h : SimplePath succ starts (w :: path)) (hsuffix : w :: path' <:+ w :: path) :
    path = path' := by
  obtain ⟨t, ht⟩ := hsuffix
  cases t with
  | nil => exact (List.cons.inj ht).2.symm
  | cons a t =>
    obtain ⟨rfl, rfl⟩ := List.cons.inj ht
    cases h with
    | cons _ _ hnew => exact absurd (List.mem_append_right _ List.mem_cons_self) hnew

variable [DecidableEq α]

/-- One first path leads to a vertex. -/
theorem First.unique {w : α} {path path' : List α} (h : First succ starts w path)
    (h' : First succ starts w path') : path = path' := by
  rcases suffix_or_part (w :: path) (w :: path') with hsuffix | hsuffix |
    ⟨below, a, a', above, above', hsplit, hsplit', hne⟩
  · exact (h'.simple.eq_of_suffix hsuffix).symm
  · exact h.simple.eq_of_suffix hsuffix
  · -- where the paths part, one of them takes the earlier choice
    have ha := (hsplit ▸ h.simple).choice.1
    have hlt : (choices succ starts below).idxOf a < (choices succ starts below).idxOf a' ∨
        (choices succ starts below).idxOf a' < (choices succ starts below).idxOf a := by
      rcases Nat.lt_trichotomy ((choices succ starts below).idxOf a)
        ((choices succ starts below).idxOf a') with hlt | heq | hlt
      · exact .inl hlt
      · exact absurd ((List.idxOf_inj ha).mp heq) hne
      · exact .inr hlt
    rcases hlt with hlt | hlt
    · exact absurd (h.simple.around hsplit) (h'.earliest _ _ _ hsplit' a hlt)
    · exact absurd (h'.simple.around hsplit') (h.earliest _ _ _ hsplit a' hlt)

theorem mem_of_idxOf_lt {before after : List α} {a b : α}
    (h : (before ++ b :: after).idxOf a < (before ++ b :: after).idxOf b) : a ∈ before := by
  by_contra ha
  rw [List.idxOf_append_of_notMem ha] at h
  have hle : (before ++ b :: after).idxOf b ≤ before.length := by
    by_cases hb : b ∈ before
    · rw [List.idxOf_append_of_mem hb]
      exact List.idxOf_le_length
    · rw [List.idxOf_append_of_notMem hb, List.idxOf_cons_self]
      omega
  omega

/-! ## The stack is a first path -/

namespace Search

/-- The vertices on the stack, the top first. -/
def path (s : Search α) : List α := s.stack.map Frame.node

/-- Where the arc from `u` to `v` closes a loop with the first path to `u`, the loop is marked. -/
def Marked (succ : α → List α) (starts marks : List α) (u v : α) : Prop :=
  ∀ path above below, First succ starts u path → u :: path = above ++ v :: below →
    ∀ x ∈ v :: above, x ∈ marks

/-- What the search has done in the order of the starts and arcs. -/
structure Ordered (succ : α → List α) (starts : List α) (s : Search α) : Prop where
  simple : SimplePath succ starts s.path
  /-- Everything an earlier choice leads to around what it passed is black. -/
  settled : ∀ above b below, s.path = above ++ b :: below → ∀ a,
    (choices succ starts below).idxOf a < (choices succ starts below).idxOf b →
      ∀ w, Around succ below a w → s.colour w = .black
  blackMarked : ∀ u, s.colour u = .black → ∀ v ∈ succ u, Marked succ starts s.inCycle u v
  stackMarked : ∀ f ∈ s.stack, ∀ v ∈ (succ f.node).take f.next,
    Marked succ starts s.inCycle f.node v
  sound : ∀ x ∈ s.inCycle, FirstLoop succ starts x

variable {s : Search α}

theorem ordered_init : Ordered succ starts (init : Search α) := by
  refine ⟨.nil, ?_, ?_, ?_, ?_⟩ <;> simp [init, path]

omit [DecidableEq α] in
/-- Around the grey vertices only black ones can be reached from a black one. -/
theorem Inv.around_black (h : Inv succ s) {passed : List α}
    (hgrey : ∀ a, s.colour a = .grey → a ∈ passed) {a w : α} (ha : s.colour a = .black)
    (haw : Around succ passed a w) : s.colour w = .black := by
  obtain ⟨-, hreach⟩ := haw
  induction hreach with
  | refl => exact ha
  | tail _ hstep ih =>
    obtain ⟨hsucc, havoid⟩ := hstep
    have hwhite := h.black _ ih _ hsucc
    cases hc : s.colour _ with
    | white => exact absurd hc hwhite
    | grey => exact absurd (hgrey _ hc) havoid
    | black => rfl

/-- The stack is the first path to its top. -/
theorem Ordered.first (ho : Ordered succ starts s) (h : Inv succ s) {w : α} {path : List α}
    (hpath : s.path = w :: path) : First succ starts w path := by
  refine ⟨hpath ▸ ho.simple, ?_⟩
  intro above b below hsplit a hlt haround
  have hblack := ho.settled above b below (hpath.trans hsplit) a hlt w haround
  have hgrey := (h.grey w).mpr (show w ∈ s.path by rw [hpath]; exact List.mem_cons_self)
  rw [hblack] at hgrey
  cases hgrey

omit [DecidableEq α] in
theorem Marked.mono {marks marks' : List α} {u v : α} [DecidableEq α]
    (h : Marked succ starts marks u v) (hsubset : ∀ x ∈ marks, x ∈ marks') :
    Marked succ starts marks' u v :=
  fun path above below hfirst hsplit x hx => hsubset x (h path above below hfirst hsplit x hx)

theorem Ordered.pop (ho : Ordered succ starts s) {top : Frame α} {below : List (Frame α)}
    (hs : s.stack = top :: below) (hn : (succ top.node)[top.next]? = none) :
    Ordered succ starts
      { s with colour := Function.update s.colour top.node .black, stack := below } := by
  obtain ⟨hsimple, hsettled, hblack, hstack, hsound⟩ := ho
  have hpath : s.path = [top.node] ++ below.map Frame.node := by simp [path, hs]
  have hkeep : ∀ w, s.colour w = .black → Function.update s.colour top.node .black w = .black := by
    intro w hw
    by_cases hwt : w = top.node
    · simp [hwt]
    · simpa [hwt] using hw
  refine ⟨(hpath ▸ hsimple).of_append, ?_, ?_, ?_, hsound⟩
  · intro above b below' hsplit a hlt w haround
    refine hkeep w (hsettled (top.node :: above) b below' ?_ a hlt w haround)
    rw [hpath]
    exact congrArg (top.node :: ·) hsplit
  · intro u hu v hv
    by_cases hut : u = top.node
    · subst hut
      refine hstack top (hs ▸ List.mem_cons_self) v ?_
      rwa [take_of_getElem?_none hn]
    · exact hblack u (by simpa [hut] using hu) v hv
  · intro f hf
    exact hstack f (hs ▸ List.mem_cons_of_mem _ hf)

/-- Looking at an entry: if it closes a loop, the loop is marked. -/
theorem Ordered.examine (ho : Ordered succ starts s) (h : Inv succ s) {top : Frame α}
    {below : List (Frame α)} {next : α} (hs : s.stack = top :: below)
    (hn : (succ top.node)[top.next]? = some next) (marks : List α)
    (hmarks : ∀ x ∈ marks, FirstLoop succ starts x)
    (hall : ∀ above below', s.path = above ++ next :: below' → ∀ x ∈ next :: above, x ∈ marks) :
    Ordered succ starts { s with
      stack := { top with next := top.next + 1 } :: below, inCycle := marks ++ s.inCycle } := by
  have hfirst : First succ starts top.node (below.map Frame.node) :=
    ho.first h (by simp [path, hs])
  obtain ⟨hsimple, hsettled, hblack, hstack, hsound⟩ := ho
  have hpath : s.path = top.node :: below.map Frame.node := by simp [path, hs]
  have hkeep : ∀ x ∈ s.inCycle, x ∈ marks ++ s.inCycle := fun x hx => List.mem_append_right _ hx
  refine ⟨?_, ?_, fun u hu v hv => (hblack u hu v hv).mono hkeep, ?_, ?_⟩
  · rw [hpath] at hsimple
    exact hsimple
  · rw [hpath] at hsettled
    exact hsettled
  · intro f hf v hv
    rcases List.mem_cons.mp hf with rfl | hf
    · rw [take_succ_of_getElem? hn] at hv
      rcases List.mem_append.mp hv with hv | hv
      · exact (hstack top (hs ▸ List.mem_cons_self) v hv).mono hkeep
      · rw [List.mem_singleton.mp hv]
        intro path' above below' hfirst' hsplit x hx
        rw [hfirst'.unique hfirst] at hsplit
        exact List.mem_append_left _ (hall above below' (hpath.trans hsplit) x hx)
    · exact (hstack f (hs ▸ List.mem_cons_of_mem _ hf) v hv).mono hkeep
  · intro x hx
    exact (List.mem_append.mp hx).elim (hmarks x) (hsound x)

/-- A white vertex goes on the stack when all choices before it have been visited. -/
theorem Ordered.enter (ho : Ordered succ starts s) (h : Inv succ s) {b : α}
    (hw : s.colour b = .white) (hb : b ∈ choices succ starts s.path)
    (hbefore : ∀ a, (choices succ starts s.path).idxOf a < (choices succ starts s.path).idxOf b →
      s.colour a ≠ .white)
    {stack : List (Frame α)} (hpath : stack.map Frame.node = s.path)
    (hmarked : ∀ f ∈ stack, ∀ v ∈ (succ f.node).take f.next,
      Marked succ starts s.inCycle f.node v) :
    Ordered succ starts
      { s with colour := Function.update s.colour b .grey, stack := ⟨b, 0⟩ :: stack } := by
  obtain ⟨hsimple, hsettled, hblack, -, hsound⟩ := ho
  have hgrey : ∀ a, s.colour a = .grey ↔ a ∈ s.path := h.grey
  have hnew : b ∉ s.path := by
    rw [← hgrey, hw]
    exact fun hc => nomatch hc
  have hstill : ∀ a, Function.update s.colour b .grey a = .black ↔ s.colour a = .black := by
    intro a
    by_cases hab : a = b
    · simp [hab, hw]
    · simp [hab]
  have hpath' : ∀ colour inCycle, path ⟨colour, ⟨b, 0⟩ :: stack, inCycle⟩ = b :: s.path :=
    fun _ _ => by rw [path, List.map_cons, hpath]
  refine ⟨?_, ?_, ?_, ?_, hsound⟩
  · rw [hpath']
    exact .cons hsimple hb hnew
  · intro above c below hsplit a hlt w haround
    rw [hpath'] at hsplit
    rw [hstill]
    cases above with
    | nil =>
      obtain ⟨rfl, rfl⟩ := List.cons.inj hsplit
      refine h.around_black (fun a ha => (hgrey a).mp ha) ?_ haround
      cases hc : s.colour a with
      | white => exact absurd hc (hbefore a hlt)
      | grey => exact absurd ((hgrey a).mp hc) haround.1
      | black => rfl
    | cons b' above => exact hsettled above c below (List.cons.inj hsplit).2 a hlt w haround
  · intro u hu v hv
    exact hblack u ((hstill u).mp hu) v hv
  · intro f hf v hv
    rcases List.mem_cons.mp hf with rfl | hf
    · simp at hv
    · exact hmarked f hf v hv

/-- What is marked for a back edge is the loop it closes. -/
theorem mem_downTo_iff {a x : α} {stack : List (Frame α)} {above below : List α}
    (hsplit : stack.map Frame.node = above ++ a :: below) (hnodup : (stack.map Frame.node).Nodup) :
    x ∈ downTo a stack ↔ x ∈ a :: above := by
  induction stack generalizing above with
  | nil => simp at hsplit
  | cons f stack ih =>
    rw [List.map_cons] at hsplit hnodup
    obtain ⟨hf, hnodup⟩ := List.nodup_cons.mp hnodup
    cases above with
    | nil =>
      obtain ⟨rfl, -⟩ := List.cons.inj hsplit
      simp [downTo]
    | cons b above =>
      obtain ⟨rfl, hrest⟩ := List.cons.inj hsplit
      have hne : f.node ≠ a := by
        rintro rfl
        exact hf (hrest ▸ List.mem_append_right _ List.mem_cons_self)
      rw [downTo, if_neg hne, List.mem_cons, ih hrest hnodup]
      simp only [List.mem_cons]
      tauto

theorem ordered_step (ho : Ordered succ starts s) (h : Inv succ s) :
    Ordered succ starts (step succ s) := by
  cases hs : s.stack with
  | nil =>
    have hstep : step succ s = s := by simp only [step, hs]
    rwa [hstep]
  | cons top below =>
    cases hn : (succ top.node)[top.next]? with
    | none =>
      rw [step_pop hs hn]
      exact ho.pop hs hn
    | some next =>
      have hgrey : s.colour next = .grey ↔ next ∈ s.path := h.grey next
      have hpath : s.path = top.node :: below.map Frame.node := by simp [path, hs]
      rw [step_next hs hn]
      cases hc : s.colour next with
      | white =>
        have hexamined := ho.examine h hs hn [] (by simp) (by
          intro above below' hsplit
          have hgrey' := hgrey.mpr (hsplit ▸ List.mem_append_right _ List.mem_cons_self)
          rw [hc] at hgrey'
          cases hgrey')
        refine ho.enter h hc ?_ ?_ (hpath ▸ rfl) hexamined.stackMarked
        · rw [hpath]
          exact List.mem_of_getElem? hn
        · intro a hlt
          rw [hpath] at hlt
          obtain ⟨hlen, hget⟩ := List.getElem?_eq_some_iff.mp hn
          have hsplit : succ top.node = (succ top.node).take top.next ++
              next :: (succ top.node).drop (top.next + 1) := by
            rw [← hget, List.getElem_cons_drop, List.take_append_drop]
          have hlt : (succ top.node).idxOf a < (succ top.node).idxOf next := hlt
          rw [hsplit] at hlt
          exact h.examined top (hs ▸ List.mem_cons_self) a (mem_of_idxOf_lt hlt)
      | grey =>
        have hnodup : (({ top with next := top.next + 1 } :: below).map Frame.node).Nodup := by
          have hnodup := h.nodup
          rwa [hs] at hnodup
        have hfirst := ho.first h hpath
        obtain ⟨above, below', hsplit⟩ := List.append_of_mem (hgrey.mp hc)
        refine ho.examine h hs hn _ ?_ ?_
        · intro x hx
          refine ⟨top.node, _, above, next, below', hfirst, hpath ▸ hsplit,
            List.mem_of_getElem? hn, ?_⟩
          rcases List.mem_cons.mp hx with rfl | hx
          · exact List.mem_cons_self
          · rwa [mem_downTo_iff (hpath ▸ hsplit) hnodup] at hx
        · intro above' below'' hsplit' x hx
          refine List.mem_cons_of_mem _ ?_
          rwa [mem_downTo_iff (hpath ▸ hsplit') hnodup]
      | black =>
        refine ho.examine h hs hn [] (by simp) ?_
        intro above below' hsplit
        have hgrey' := hgrey.mpr (hsplit ▸ List.mem_append_right _ List.mem_cons_self)
        rw [hc] at hgrey'
        cases hgrey'

theorem ordered_run (ho : Ordered succ starts s) (h : Inv succ s) (fuel : Nat) :
    Ordered succ starts (run succ fuel s) := by
  induction fuel generalizing s with
  | zero => exact ho
  | succ fuel ih =>
    unfold run
    split
    · exact ho
    · exact ih (ordered_step ho h) (inv_step h)

/-- Between two components, when all starts before this one have been visited. -/
theorem Ordered.visit (ho : Ordered succ starts s) (h : Inv succ s) (hs : s.stack = [])
    {before after : List α} {start : α} (hstarts : starts = before ++ start :: after)
    (hbefore : ∀ a ∈ before, s.colour a ≠ .white) (fuel : Nat) :
    Ordered succ starts (visit succ fuel s start) := by
  unfold Search.visit
  split
  · rename_i hw
    have hpath : s.path = [] := by simp [path, hs]
    refine ordered_run (ho.enter h hw ?_ ?_ (hpath ▸ rfl) (by simp)) (h.start hs hw) fuel
    · rw [hpath, choices, hstarts]
      exact List.mem_append_right _ List.mem_cons_self
    · intro a hlt
      rw [hpath, choices, hstarts] at hlt
      exact hbefore a (mem_of_idxOf_lt hlt)
  · exact ho

theorem foldl_visit_ordered {arcs : List (α × α)} (before after : List α)
    (hstarts : starts = before ++ after) (ho : Ordered (succs arcs) starts s)
    (h : Inv (succs arcs) s) (hs : s.stack = []) (hbefore : ∀ a ∈ before, s.colour a ≠ .white) :
    Ordered (succs arcs) starts
      (after.foldl (visit (succs arcs) (2 * arcs.length + 1)) s) := by
  induction after generalizing s before with
  | nil => exact ho
  | cons start after ih =>
    obtain ⟨h', hs', hstart, hkeep⟩ := visit_spec h hs start
    refine ih (before ++ [start]) (by simp [hstarts])
      (ho.visit h hs hstarts hbefore _) h' hs' ?_
    intro a ha
    rcases List.mem_append.mp ha with ha | ha
    · exact hkeep a (hbefore a ha)
    · rwa [List.mem_singleton.mp ha]

end Search

/-- The search marks exactly the vertices on the loops that arcs close back to first paths. -/
theorem search_inCycle_iff {arcs : List (α × α)} {starts : List α} {x : α} :
    x ∈ (search arcs starts).inCycle ↔ FirstLoop (succs arcs) starts x := by
  obtain ⟨h, hs, hvisited, -⟩ :=
    Search.foldl_visit_spec starts (@Search.inv_init _ (succs arcs)) rfl
  have ho := Search.foldl_visit_ordered [] starts rfl
    Search.ordered_init (@Search.inv_init _ (succs arcs)) rfl (by simp)
  refine ⟨ho.sound x, ?_⟩
  rintro ⟨w, path, above, b, below, hfirst, hsplit, hb, hx⟩
  refine ho.blackMarked w ?_ b hb path above below hfirst hsplit x hx
  -- the whole path has been visited, from its start on
  have hblack : ∀ path, SimplePath (succs arcs) starts path → ∀ a ∈ path,
      (search arcs starts).colour a = .black := by
    have hvisited' : ∀ a, (search arcs starts).colour a ≠ .white →
        (search arcs starts).colour a = .black := by
      intro a ha
      have hgrey := h.grey a
      rw [hs] at hgrey
      cases hc : (search arcs starts).colour a with
      | white => exact absurd hc ha
      | grey => exact absurd (hgrey.mp hc) List.not_mem_nil
      | black => rfl
    intro path hpath
    induction hpath with
    | nil => simp
    | @cons b path _ hb _ ih =>
      intro a ha
      rcases List.mem_cons.mp ha with rfl | ha
      · refine hvisited' a ?_
        cases path with
        | nil => exact hvisited a hb
        | cons c path => exact h.black c (ih c List.mem_cons_self) a hb
      · exact ih a ha
  exact hblack _ hfirst.simple w List.mem_cons_self

end Interbellum.Digraph
