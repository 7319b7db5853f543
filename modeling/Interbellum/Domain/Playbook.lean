import Interbellum.Domain.AppError
import Interbellum.Domain.Json
import Interbellum.Sorting.Insertion

/-!
# Playbooks, versions and their graphs

The playbook design domain: the logical playbook, its versions, and the decision graph of
nodes and edges each version owns. The fields follow the source; a Go pointer or a nil
slice of bytes is an `Option`.
-/

namespace Interbellum

inductive VersionStatus where
  | draft
  | published
  | archived
  deriving DecidableEq, Repr

def VersionStatus.text : VersionStatus → String
  | .draft => "draft"
  | .published => "published"
  | .archived => "archived"

/-- `unknown` is any string that is not one of the two kinds; a request may carry one. -/
inductive NodeKind where
  | decision
  | terminal
  | unknown (raw : String)
  deriving DecidableEq, Repr

def NodeKind.valid : NodeKind → Bool
  | .decision => true
  | .terminal => true
  | .unknown _ => false

structure Playbook where
  id : UUID
  name : String
  description : String
  alertType : String
  createdAt : Time
  updatedAt : Time
  deriving DecidableEq, Repr

structure Version where
  id : UUID
  playbookID : UUID
  version : Nat
  status : VersionStatus
  rootNodeID : Option UUID
  createdAt : Time
  publishedAt : Option Time
  deriving DecidableEq, Repr

def Version.isDraft (v : Version) : Bool := v.status = .draft

structure Node where
  id : UUID
  kind : NodeKind
  title : String
  description : String
  terminalResolution : Option String
  metadata : Option Json
  deriving DecidableEq

structure Edge where
  id : UUID
  fromNodeID : UUID
  toNodeID : UUID
  label : String
  description : Option String
  sortOrder : Int
  deriving DecidableEq

structure Graph where
  rootNodeID : Option UUID
  nodes : List Node
  edges : List Edge
  deriving DecidableEq

structure Definition where
  version : Version
  graph : Graph
  deriving DecidableEq

/-- The input for creating a playbook together with its initial draft version. -/
structure NewPlaybook where
  name : String
  description : String
  alertType : String
  graph : Graph
  deriving DecidableEq

namespace Graph

def nodeByID (g : Graph) (id : UUID) : Option Node := g.nodes.find? (fun n => n.id = id)

def edgeByID (g : Graph) (id : UUID) : Option Edge := g.edges.find? (fun e => e.id = id)

/-- The comparison at which the insertion sort stops moving `b` to the left of `a`. -/
def inOrder (a b : Edge) : Bool :=
  a.sortOrder < b.sortOrder || (a.sortOrder = b.sortOrder && a.label ≤ b.label)

/-- Move `b` to the left through the sorted part, given from its right end. -/
def shiftLeft (b : Edge) : List Edge → List Edge
  | [] => [b]
  | a :: rest => if inOrder a b then b :: a :: rest else a :: shiftLeft b rest

def sortEdges (edges : List Edge) : List Edge :=
  (edges.foldl (fun sorted b => shiftLeft b sorted) []).reverse

def outgoingEdges (g : Graph) (nodeID : UUID) : List Edge :=
  sortEdges (g.edges.filter (fun e => e.fromNodeID = nodeID))

theorem shiftLeft_eq (b : Edge) (sorted : List Edge) :
    shiftLeft b sorted = Insertion.shift inOrder b sorted := by
  induction sorted with
  | nil => rfl
  | cons a rest ih => rw [shiftLeft, Insertion.shift, ih]

/-- The loops over the slice, which swap neighbours in place. -/
theorem sortEdges_eq (edges : List Edge) : sortEdges edges = Insertion.sort inOrder edges := by
  simp only [sortEdges, Insertion.sort_eq, shiftLeft_eq]

theorem sortEdges_perm (edges : List Edge) : (sortEdges edges).Perm edges := by
  rw [sortEdges_eq]
  exact Insertion.sort_perm edges

@[simp] theorem mem_outgoingEdges {g : Graph} {nodeID : UUID} {e : Edge} :
    e ∈ g.outgoingEdges nodeID ↔ e ∈ g.edges ∧ e.fromNodeID = nodeID := by
  rw [outgoingEdges, (sortEdges_perm _).mem_iff, List.mem_filter, decide_eq_true_eq]

end Graph

end Interbellum
