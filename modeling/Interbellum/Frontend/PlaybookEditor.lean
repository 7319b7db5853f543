import Interbellum.Frontend.PlaybookDraft

/-!
# The playbook editor

The form starts empty or from a stored version, and each control changes it by one of the
operations below. New ids are given to the operation that needs one.
-/

namespace Interbellum.Frontend

open Ecma (Value natText)
open Utf16 (Text)

/-- `EMPTY_DRAFT` -/
def emptyDraft : PlaybookDraft := ⟨[], [], []⟩

/-! ## Nodes and edges of the form -/

/-- `Partial<Omit<NodeDraft, "id">>`; no control changes an id. -/
structure NodePatch where
  kind : Option PlaybookNodeKind := none
  title : Option Text := none
  description : Option Text := none
  terminalResolution : Option Text := none
  metadata : Option Text := none

structure EdgePatch where
  fromNodeId : Option Text := none
  toNodeId : Option Text := none
  label : Option Text := none
  description : Option Text := none
  sortOrder : Option Text := none

def newNodeDraft (seed : NodePatch) (newId : Text) : NodeDraft where
  id := newId
  kind := seed.kind.getD .decision
  title := seed.title.getD []
  description := seed.description.getD []
  terminalResolution := seed.terminalResolution.getD []
  metadata := seed.metadata.getD []

def newEdgeDraft (seed : EdgePatch) (newId : Text) : EdgeDraft where
  id := newId
  fromNodeId := seed.fromNodeId.getD []
  toNodeId := seed.toNodeId.getD []
  label := seed.label.getD []
  description := seed.description.getD []
  sortOrder := seed.sortOrder.getD (.ofString "0")

def NodeDraft.patched (node : NodeDraft) (patch : NodePatch) : NodeDraft where
  id := node.id
  kind := patch.kind.getD node.kind
  title := patch.title.getD node.title
  description := patch.description.getD node.description
  terminalResolution := patch.terminalResolution.getD node.terminalResolution
  metadata := patch.metadata.getD node.metadata

def EdgeDraft.patched (edge : EdgeDraft) (patch : EdgePatch) : EdgeDraft where
  id := edge.id
  fromNodeId := patch.fromNodeId.getD edge.fromNodeId
  toNodeId := patch.toNodeId.getD edge.toNodeId
  label := patch.label.getD edge.label
  description := patch.description.getD edge.description
  sortOrder := patch.sortOrder.getD edge.sortOrder

/-! ## Operations -/

def addNode (newId : Text) (kind : PlaybookNodeKind) (current : PlaybookDraft) : PlaybookDraft :=
  let node := newNodeDraft { kind := some kind } newId
  { current with
    nodes := current.nodes ++ [node]
    rootNodeId := if current.rootNodeId = [] ∧ current.nodes.length = 0 then node.id
      else current.rootNodeId }

def updateNode (index : ℕ) (patch : NodePatch) (current : PlaybookDraft) : PlaybookDraft :=
  { current with nodes := current.nodes.modify index fun node => node.patched patch }

/-- Fails when there is no such node. -/
def removeNode (index : ℕ) (current : PlaybookDraft) : Option PlaybookDraft :=
  current.nodes[index]?.map fun removed =>
    { rootNodeId := if current.rootNodeId = removed.id then [] else current.rootNodeId
      nodes := current.nodes.eraseIdx index
      edges := current.edges.filter fun edge =>
        edge.fromNodeId ≠ removed.id ∧ edge.toNodeId ≠ removed.id }

def outgoingCount (edges : List EdgeDraft) (fromNodeId : Text) : ℕ :=
  if fromNodeId = [] then 0 else (edges.filter fun edge => edge.fromNodeId = fromNodeId).length

/-- The edge that is added for a node, or for none. -/
def nextEdge (newId fromNodeId : Text) (edges : List EdgeDraft) : EdgeDraft :=
  newEdgeDraft
    { fromNodeId := some fromNodeId, sortOrder := some (natText (outgoingCount edges fromNodeId + 1)) }
    newId

def addEdge (newId fromNodeId : Text) (current : PlaybookDraft) : PlaybookDraft :=
  { current with edges := current.edges ++ [nextEdge newId fromNodeId current.edges] }

/-- What becomes of the updated edge; a choice without a place in an order gets the last one of
the node it is to leave. -/
def updatedEdge (others : List EdgeDraft) (patch : EdgePatch) (edge : EdgeDraft) : EdgeDraft :=
  let next := edge.patched patch
  match patch.fromNodeId with
  | some fromNodeId =>
    if edge.sortOrder = .ofString "0" then
      { next with sortOrder := natText (outgoingCount others fromNodeId + 1) }
    else next
  | none => next

def updateEdge (index : ℕ) (patch : EdgePatch) (current : PlaybookDraft) : PlaybookDraft :=
  { current with
    edges := current.edges.modify index (updatedEdge (current.edges.eraseIdx index) patch) }

def removeEdge (index : ℕ) (current : PlaybookDraft) : PlaybookDraft :=
  { current with edges := current.edges.eraseIdx index }

/-- The control for the root node. -/
def chooseRoot (rootNodeId : Text) (current : PlaybookDraft) : PlaybookDraft :=
  { current with rootNodeId }

inductive Edit where
  | addNode (newId : Text) (kind : PlaybookNodeKind)
  | updateNode (index : ℕ) (patch : NodePatch)
  | removeNode (index : ℕ)
  | addEdge (newId fromNodeId : Text)
  | updateEdge (index : ℕ) (patch : EdgePatch)
  | removeEdge (index : ℕ)
  | chooseRoot (rootNodeId : Text)

def Edit.apply : Edit → PlaybookDraft → Option PlaybookDraft
  | .addNode newId kind, current => some (Frontend.addNode newId kind current)
  | .updateNode index patch, current => some (Frontend.updateNode index patch current)
  | .removeNode index, current => Frontend.removeNode index current
  | .addEdge newId fromNodeId, current => some (Frontend.addEdge newId fromNodeId current)
  | .updateEdge index patch, current => some (Frontend.updateEdge index patch current)
  | .removeEdge index, current => some (Frontend.removeEdge index current)
  | .chooseRoot rootNodeId, current => some (Frontend.chooseRoot rootNodeId current)

/-! ## Loading -/

/-- `stringify` prints metadata, with an indentation of two. -/
def loadedNode (stringify : List (Text × Value) → Text) (node : PlaybookNode) : NodeDraft where
  id := node.id
  kind := node.kind
  title := node.title
  description := node.description
  terminalResolution := node.terminalResolution.getD []
  metadata := (node.metadata.map stringify).getD []

def loadedEdge (edge : PlaybookEdge) : EdgeDraft where
  id := edge.id
  fromNodeId := edge.fromNodeId
  toNodeId := edge.toNodeId
  label := edge.label
  description := edge.description.getD []
  sortOrder := edge.sortOrder.text

def draftFromDefinition (stringify : List (Text × Value) → Text) (definition : PlaybookGraphInput) :
    PlaybookDraft where
  rootNodeId := definition.rootNodeId.getD []
  nodes := definition.nodes.map (loadedNode stringify)
  edges := definition.edges.map loadedEdge

end Interbellum.Frontend
