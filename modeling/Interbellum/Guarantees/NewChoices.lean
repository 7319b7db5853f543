import Interbellum.Domain.EdgeOrder
import Interbellum.Frontend.PlaybookEditor
import Interbellum.Frontend.Received

/-!
# Where a new choice is listed

A choice that is added for a node is to be the last one of the node. Its sort order is one more
than the number of choices that the node has then, whatever their sort orders are.

* `choices_join_last_iff`: when all choices that a series of edits adds become the last ones.
* `choices_join_last_of_appends`: they do when the edits only append.
-/

namespace Interbellum

open Frontend (PlaybookDraft EdgeDraft EdgePatch Edit nextEdge updatedEdge outgoingCount
  parseSortOrder addEdge)
open Utf16 (Text)

/-! ## The last edge of a sorted list -/

namespace Graph

/-- An edge with a larger sort order than all others comes last, whatever its label is. -/
theorem getLast_sortEdges {e : Edge} {edges : List Edge} (he : e ∈ edges)
    (hmax : ∀ a ∈ edges, a = e ∨ a.sortOrder < e.sortOrder) :
    (sortEdges edges).getLast? = some e := by
  have hmem : e ∈ sortEdges edges := (sortEdges_perm edges).mem_iff.mpr he
  obtain ⟨front, last, hsplit⟩ := (List.eq_nil_or_concat (sortEdges edges)).resolve_left
    (List.ne_nil_of_mem hmem)
  rw [List.concat_eq_append] at hsplit
  have hlast : last ∈ edges := (sortEdges_perm edges).mem_iff.mp (by rw [hsplit]; simp)
  rw [hsplit, List.getLast?_concat]
  rcases hmax last hlast with rfl | hlt
  · rfl
  · -- then `e` stands before the last one, although its sort order is larger
    have hsorted := sorted_sortEdges edges
    rw [hsplit] at hsorted hmem
    rcases List.mem_append.mp hmem with hfront | hlast'
    · have horder := (List.pairwise_append.mp hsorted).2.2 e hfront last (List.mem_singleton_self _)
      rcases inOrder_iff.mp horder with h | h <;> omega
    · rw [List.mem_singleton.mp hlast'] at hlt
      exact absurd hlt (lt_irrefl _)

end Graph

/-! ## New choices -/

/-- The integer in the box, or zero; `parseSortOrder` rounds it to a double. -/
def orderOf (e : EdgeDraft) : ℤ := (Ecma.leadingInteger e.sortOrder).getD 0

/-- The choice that an edit lets join the choices of a node, and all other ones: an edge that is
added for the node, or one with sort order 0 whose source becomes the node. -/
def joining (d : PlaybookDraft) : Edit → Option (EdgeDraft × List EdgeDraft)
  | .addEdge newId fromNodeId =>
    if fromNodeId = [] then none else some (nextEdge newId fromNodeId d.edges, d.edges)
  | .updateEdge index patch =>
    (d.edges[index]?.filter fun e =>
      patch.fromNodeId.getD [] ≠ [] ∧ e.sortOrder = .ofString "0").map
        fun e => (updatedEdge (d.edges.eraseIdx index) patch e, d.edges.eraseIdx index)
  | _ => none

/-- The sort order of the choice is larger than those of the others of its node, and so it is
listed last of every graph in which each choice has its sort order. -/
structure JoinsLast (e : EdgeDraft) (others : List EdgeDraft) : Prop where
  larger : ∀ o ∈ others, o.fromNodeId = e.fromNodeId → orderOf o < orderOf e
  listed : ∀ (f : EdgeDraft → Edge) (g : Graph), g.edges.Perm ((e :: others).map f) →
    (∀ o ∈ e :: others, (f o).sortOrder = orderOf o) →
    (∀ o ∈ others, (f o).fromNodeID = (f e).fromNodeID → o.fromNodeId = e.fromNodeId) →
      (g.outgoingEdges (f e).fromNodeID).getLast? = some (f e)

/-- No other choice of the node has a sort order beyond the number of them. -/
def HasRoom (fromNodeId : Text) (others : List EdgeDraft) : Prop :=
  ∀ o ∈ others, o.fromNodeId = fromNodeId → orderOf o ≤ outgoingCount others fromNodeId

theorem joinsLast_iff_larger {e : EdgeDraft} {others : List EdgeDraft} :
    JoinsLast e others ↔
      ∀ o ∈ others, o.fromNodeId = e.fromNodeId → orderOf o < orderOf e := by
  refine ⟨JoinsLast.larger, fun hlarger => ⟨hlarger, fun f g hperm horder hsource => ?_⟩⟩
  refine Graph.getLast_sortEdges (List.mem_filter.mpr ⟨?_, decide_eq_true rfl⟩) fun a ha => ?_
  · exact hperm.mem_iff.mpr (List.mem_map_of_mem List.mem_cons_self)
  · obtain ⟨hmem, hfrom⟩ := List.mem_filter.mp ha
    obtain ⟨o, ho, rfl⟩ := List.mem_map.mp (hperm.mem_iff.mp hmem)
    rcases List.mem_cons.mp ho with rfl | hother
    · exact .inl rfl
    · rw [horder o ho, horder e List.mem_cons_self]
      exact .inr (hlarger o hother (hsource o hother (of_decide_eq_true hfrom)))

theorem orderOf_nextEdge (newId fromNodeId : Text) (edges : List EdgeDraft) :
    orderOf (nextEdge newId fromNodeId edges) = outgoingCount edges fromNodeId + 1 := by
  show (Ecma.leadingInteger (Ecma.natText _)).getD 0 = _
  rw [Ecma.leadingInteger_natText, Option.getD_some]
  rfl

theorem orderOf_updatedEdge {others : List EdgeDraft} {patch : EdgePatch} {edge : EdgeDraft}
    {fromNodeId : Text} (hsource : patch.fromNodeId = some fromNodeId)
    (hzero : edge.sortOrder = .ofString "0") :
    (updatedEdge others patch edge).fromNodeId = fromNodeId ∧
      orderOf (updatedEdge others patch edge) = outgoingCount others fromNodeId + 1 := by
  simp only [updatedEdge, hsource, if_pos hzero, EdgeDraft.patched, Option.getD_some, orderOf,
    Ecma.leadingInteger_natText, true_and]
  rfl

/-- The sort order that a joining choice gets. -/
theorem orderOf_joining {d : PlaybookDraft} {edit : Edit} {e : EdgeDraft} {others : List EdgeDraft}
    (h : joining d edit = some (e, others)) :
    orderOf e = outgoingCount others e.fromNodeId + 1 := by
  cases edit with
  | addEdge newId fromNodeId =>
    rw [joining] at h
    split_ifs at h
    obtain ⟨rfl, rfl⟩ := Prod.mk.inj (Option.some.inj h)
    exact orderOf_nextEdge newId fromNodeId d.edges
  | updateEdge index patch =>
    obtain ⟨edge, hedge, h⟩ := Option.map_eq_some_iff.mp h
    obtain ⟨rfl, rfl⟩ := Prod.mk.inj h
    obtain ⟨-, hkept⟩ := Option.filter_eq_some_iff.mp hedge
    obtain ⟨hpicked, hzero⟩ := of_decide_eq_true hkept
    cases hsource : patch.fromNodeId with
    | none =>
      rw [hsource] at hpicked
      exact absurd rfl hpicked
    | some source =>
      obtain ⟨hfrom, horder⟩ := @orderOf_updatedEdge (d.edges.eraseIdx index) _ _ _ hsource hzero
      rw [horder, hfrom]
  | addNode | updateNode | removeNode | removeEdge | chooseRoot => cases h

theorem joinsLast_iff_hasRoom {d : PlaybookDraft} {edit : Edit} {e : EdgeDraft}
    {others : List EdgeDraft} (h : joining d edit = some (e, others)) :
    JoinsLast e others ↔ HasRoom e.fromNodeId others := by
  rw [joinsLast_iff_larger, orderOf_joining h]
  exact forall₃_congr fun _ _ _ => Int.lt_add_one_iff

/-! ## Series of edits -/

/-- The edits that are made, each with the draft it is made to. -/
def history : PlaybookDraft → List Edit → List (PlaybookDraft × Edit)
  | _, [] => []
  | d, edit :: rest => (d, edit) :: match edit.apply d with
    | some d' => history d' rest
    | none => []

/-- All choices that the edits add to the choices of a node become the last ones of it exactly
when each time the node had no sort order beyond the number of its choices. -/
theorem choices_join_last_iff (start : PlaybookDraft) (edits : List Edit) :
    (∀ p ∈ history start edits, ∀ e others, joining p.1 p.2 = some (e, others) →
      JoinsLast e others) ↔
    ∀ p ∈ history start edits, ∀ e others, joining p.1 p.2 = some (e, others) →
      HasRoom e.fromNodeId others :=
  forall₂_congr fun _ _ => forall₃_congr fun _ _ h => joinsLast_iff_hasRoom h

/-! ## Edits that keep room -/

theorem outgoingCount_cons {N : Text} (hN : N ≠ []) (e : EdgeDraft) (edges : List EdgeDraft) :
    outgoingCount (e :: edges) N =
      if e.fromNodeId = N then outgoingCount edges N + 1 else outgoingCount edges N := by
  simp only [outgoingCount, if_neg hN, List.filter_cons, decide_eq_true_eq]
  split_ifs <;> rfl

theorem HasRoom.perm {N : Text} {edges edges' : List EdgeDraft} (hperm : edges.Perm edges') :
    HasRoom N edges → HasRoom N edges' := by
  have hcount : outgoingCount edges N = outgoingCount edges' N := by
    unfold outgoingCount
    rw [(hperm.filter _).length_eq]
  intro h o ho hfrom
  rw [← hcount]
  exact h o (hperm.mem_iff.mpr ho) hfrom

/-- A choice may be added with the next sort order or a smaller one. -/
theorem HasRoom.cons {N : Text} {e : EdgeDraft} {edges : List EdgeDraft} (hN : N ≠ [])
    (h : HasRoom N edges) (horder : e.fromNodeId = N → orderOf e ≤ outgoingCount edges N + 1) :
    HasRoom N (e :: edges) := by
  intro o ho hfrom
  rw [outgoingCount_cons hN]
  rcases List.mem_cons.mp ho with rfl | hmem
  · rw [if_pos hfrom]
    exact horder hfrom
  · have hle := h o hmem hfrom
    split_ifs <;> omega

/-- The last choice of a node may be taken away. -/
theorem HasRoom.of_cons {N : Text} {e : EdgeDraft} {edges : List EdgeDraft} (hN : N ≠ [])
    (h : HasRoom N (e :: edges))
    (hlast : e.fromNodeId = N → ∀ o ∈ edges, o.fromNodeId = N → orderOf o < orderOf e) :
    HasRoom N edges := by
  intro o ho hfrom
  have hle := h o (List.mem_cons_of_mem _ ho) hfrom
  rw [outgoingCount_cons hN] at hle
  split_ifs at hle with he
  · have hlt := hlast he o ho hfrom
    have hle' := h e List.mem_cons_self he
    rw [outgoingCount_cons hN, if_pos he] at hle'
    omega
  · exact hle

/-- No node has a sort order beyond the number of its choices. -/
def Roomy (d : PlaybookDraft) : Prop := ∀ N : Text, N ≠ [] → HasRoom N d.edges

/-- Sort orders are not typed in, a choice gets a source only once, and only the last choice of
a node is removed, or all its choices with the node. -/
def Appends (d : PlaybookDraft) : Edit → Prop
  | .updateEdge index patch => patch.sortOrder = none ∧ ∀ e ∈ d.edges[index]?,
      patch.fromNodeId = none ∨ e.fromNodeId = [] ∧ orderOf e ≤ 1
  | .removeEdge index => ∀ e ∈ d.edges[index]?, ∀ o ∈ d.edges.eraseIdx index,
      o.fromNodeId = e.fromNodeId → orderOf o < orderOf e
  | .removeNode index => ∀ removed ∈ d.nodes[index]?, ∀ e ∈ d.edges, e.toNodeId = removed.id →
      e.fromNodeId = [] ∨ e.fromNodeId = removed.id
  | .addNode _ _ | .updateNode _ _ | .addEdge _ _ | .chooseRoot _ => True

theorem perm_eraseIdx {α : Type} {items : List α} {index : ℕ} {a : α}
    (h : items[index]? = some a) : items.Perm (a :: items.eraseIdx index) := by
  obtain ⟨hlt, rfl⟩ := List.getElem?_eq_some_iff.mp h
  exact (List.getElem_cons_eraseIdx_perm hlt).symm

theorem perm_modify {α : Type} {items : List α} {index : ℕ} {a : α} (f : α → α)
    (h : items[index]? = some a) :
    (items.modify index f).Perm (f a :: items.eraseIdx index) := by
  obtain ⟨hlt, rfl⟩ := List.getElem?_eq_some_iff.mp h
  rw [List.modify_eq_take_cons_drop hlt, List.eraseIdx_eq_take_drop_succ]
  exact List.perm_middle

theorem Roomy.updateEdge {d : PlaybookDraft} (h : Roomy d) {index : ℕ} {patch : EdgePatch}
    (hedit : Appends d (.updateEdge index patch)) : Roomy (Frontend.updateEdge index patch d) := by
  obtain ⟨htyped, hsource⟩ := hedit
  cases hedge : d.edges[index]? with
  | none =>
    have hsame : d.edges.modify index (updatedEdge (d.edges.eraseIdx index) patch) = d.edges :=
      List.modify_eq_self (List.getElem?_eq_none_iff.mp hedge)
    intro N hN
    show HasRoom N (d.edges.modify _ _)
    rw [hsame]
    exact h N hN
  | some e =>
    intro N hN
    have hother : HasRoom N (e :: d.edges.eraseIdx index) := (h N hN).perm (perm_eraseIdx hedge)
    refine HasRoom.perm (perm_modify _ hedge).symm ?_
    rcases hsource e hedge with hnone | ⟨hempty, hsmall⟩
    · -- the source and the sort order stay
      have hupdated : (updatedEdge (d.edges.eraseIdx index) patch e).fromNodeId = e.fromNodeId ∧
          orderOf (updatedEdge (d.edges.eraseIdx index) patch e) = orderOf e := by
        simp only [updatedEdge, hnone, orderOf, EdgeDraft.patched, htyped, Option.getD_none,
          and_self]
      intro o ho hfrom
      rw [outgoingCount_cons hN, hupdated.1, ← outgoingCount_cons hN]
      rcases List.mem_cons.mp ho with rfl | hmem
      · rw [hupdated.2]
        exact hother e List.mem_cons_self (hupdated.1 ▸ hfrom)
      · exact hother o (List.mem_cons_of_mem _ hmem) hfrom
    · have hothers : HasRoom N (d.edges.eraseIdx index) :=
        hother.of_cons hN fun he => absurd (he.symm.trans hempty) hN
      refine hothers.cons hN fun hfrom => ?_
      cases hpatch : patch.fromNodeId with
      | none =>
        rw [show (updatedEdge (d.edges.eraseIdx index) patch e).fromNodeId = [] by
          simp only [updatedEdge, hpatch, EdgeDraft.patched, Option.getD_none, hempty]] at hfrom
        exact absurd hfrom.symm hN
      | some source =>
        by_cases hzero : e.sortOrder = .ofString "0"
        · obtain ⟨hfrom', horder⟩ := @orderOf_updatedEdge (d.edges.eraseIdx index) _ _ _ hpatch hzero
          rw [horder, ← hfrom, hfrom']
        · have horder : orderOf (updatedEdge (d.edges.eraseIdx index) patch e) = orderOf e := by
            simp only [updatedEdge, hpatch, if_neg hzero, orderOf, EdgeDraft.patched, htyped,
              Option.getD_none]
          omega

theorem Roomy.step {d d' : PlaybookDraft} {edit : Edit} (h : Roomy d) (hedit : Appends d edit)
    (happly : edit.apply d = some d') : Roomy d' := by
  cases edit with
  | addNode | updateNode | chooseRoot =>
    obtain rfl := Option.some.inj happly
    exact h
  | addEdge newId fromNodeId =>
    obtain rfl := Option.some.inj happly
    intro N hN
    have hperm : (nextEdge newId fromNodeId d.edges :: d.edges).Perm
        (d.edges ++ [nextEdge newId fromNodeId d.edges]) := (List.perm_append_singleton _ _).symm
    refine ((h N hN).cons hN fun hfrom => ?_).perm hperm
    have hsource : fromNodeId = N := hfrom
    rw [orderOf_nextEdge, hsource]
  | updateEdge index patch =>
    obtain rfl := Option.some.inj happly
    exact h.updateEdge hedit
  | removeEdge index =>
    obtain rfl := Option.some.inj happly
    intro N hN
    show HasRoom N (d.edges.eraseIdx index)
    cases hedge : d.edges[index]? with
    | none =>
      rw [List.eraseIdx_of_length_le (List.getElem?_eq_none_iff.mp hedge)]
      exact h N hN
    | some e =>
      refine ((h N hN).perm (perm_eraseIdx hedge)).of_cons hN fun hfrom o ho hother => ?_
      exact hedit e hedge o ho (hother.trans hfrom.symm)
  | removeNode index =>
    obtain ⟨removed, hremoved, rfl⟩ := Option.map_eq_some_iff.mp happly
    intro N hN o ho hfrom
    obtain ⟨hmem, hkept⟩ := List.mem_filter.mp ho
    obtain ⟨hne, -⟩ := of_decide_eq_true hkept
    -- the choices of another node stay
    have hcount : outgoingCount (d.edges.filter fun edge =>
        edge.fromNodeId ≠ removed.id ∧ edge.toNodeId ≠ removed.id) N = outgoingCount d.edges N := by
      unfold outgoingCount
      rw [List.filter_filter, List.filter_congr fun e he => ?_]
      rw [Bool.and_eq_left_iff_imp, decide_eq_true_eq, decide_eq_true_eq]
      intro hsource
      refine ⟨fun heq => hne (by rw [hfrom, ← hsource, heq]), fun hto => ?_⟩
      rcases hedit removed hremoved e he hto with hempty | hself
      · exact hN (hsource ▸ hempty)
      · exact hne (by rw [hfrom, ← hsource, hself])
    rw [hcount]
    exact h N hN o hmem hfrom

/-- When edits only append, no sort order is ever beyond the number of choices. -/
theorem roomy_history {start : PlaybookDraft} {edits : List Edit} (h : Roomy start)
    (hedits : ∀ p ∈ history start edits, Appends p.1 p.2) :
    ∀ p ∈ history start edits, Roomy p.1 := by
  induction edits generalizing start with
  | nil => exact fun _ hp => (List.not_mem_nil hp).elim
  | cons edit rest ih =>
    obtain ⟨hedit, hrest⟩ := List.forall_mem_cons.mp hedits
    refine List.forall_mem_cons.mpr ⟨h, ?_⟩
    cases happly : edit.apply start with
    | none => exact fun _ hp => (List.not_mem_nil hp).elim
    | some d' =>
      rw [happly] at hrest
      exact ih (h.step hedit happly) hrest

theorem Roomy.joining {d : PlaybookDraft} {edit : Edit} {e : EdgeDraft} {others : List EdgeDraft}
    (h : Roomy d) (hedit : Appends d edit) (hjoining : joining d edit = some (e, others)) :
    HasRoom e.fromNodeId others := by
  cases edit with
  | addEdge newId fromNodeId =>
    rw [Interbellum.joining] at hjoining
    split_ifs at hjoining with hempty
    obtain ⟨rfl, rfl⟩ := Prod.mk.inj (Option.some.inj hjoining)
    exact h fromNodeId hempty
  | updateEdge index patch =>
    obtain ⟨edge, hedge, hpair⟩ := Option.map_eq_some_iff.mp hjoining
    obtain ⟨rfl, rfl⟩ := Prod.mk.inj hpair
    obtain ⟨hedge, hkept⟩ := Option.filter_eq_some_iff.mp hedge
    obtain ⟨hpicked, hzero⟩ := of_decide_eq_true hkept
    cases hsource : patch.fromNodeId with
    | none =>
      rw [hsource] at hpicked
      exact absurd rfl hpicked
    | some source =>
      rw [hsource, Option.getD_some] at hpicked
      rw [(@orderOf_updatedEdge (d.edges.eraseIdx index) _ _ _ hsource hzero).1]
      obtain ⟨-, hsources⟩ := hedit
      obtain ⟨hempty, -⟩ := (hsources edge hedge).resolve_left fun hnone => by
        rw [hsource] at hnone
        cases hnone
      exact ((h source hpicked).perm (perm_eraseIdx hedge)).of_cons hpicked fun he =>
        absurd (he.symm.trans hempty) hpicked
  | addNode | updateNode | removeNode | removeEdge | chooseRoot => cases hjoining

/-- From an empty form on, edits that only append let each new choice become the last one. -/
theorem choices_join_last_of_appends {edits : List Edit}
    (hedits : ∀ p ∈ history Frontend.emptyDraft edits, Appends p.1 p.2) :
    ∀ p ∈ history Frontend.emptyDraft edits, ∀ e others, joining p.1 p.2 = some (e, others) →
      JoinsLast e others := by
  have hempty : Roomy Frontend.emptyDraft := fun N _ e he => (List.not_mem_nil he).elim
  intro p hp e others hjoining
  have hroomy : Roomy p.1 := roomy_history hempty hedits p hp
  exact (joinsLast_iff_hasRoom hjoining).mpr (hroomy.joining (hedits p hp) hjoining)

/-- A node gets two choices and loses the first one; the third one ties with the second. -/
theorem choices_tie : ¬ ∀ (edits : List Edit), ∀ p ∈ history Frontend.emptyDraft edits,
    ∀ e others, joining p.1 p.2 = some (e, others) → JoinsLast e others := by
  intro hclaim
  have hjoins := hclaim [.addNode [1] .decision, .addEdge [2] [1], .addEdge [3] [1], .removeEdge 0,
    .addEdge [4] [1]] _ (.tail _ (.tail _ (.tail _ (.tail _ (.head _))))) _ _ rfl
  have hlarger := hjoins.larger (nextEdge [3] [1] [nextEdge [2] [1] []]) (List.mem_singleton_self _)
    rfl
  revert hlarger
  decide +kernel

end Interbellum
