import Interbellum.Domain.Playbook
import Interbellum.Http.Objects

/-!
# Graphs in requests

`GraphInput` is what the body of a draft `PUT` is decoded into.
-/

namespace Interbellum.Http

open Decoder (string int uuid rawMap pointer slice struct field)
open JsonText (Doc)

structure Node where
  id : UUID
  kind : String
  title : String
  description : String
  terminalResolution : Option String
  metadata : Option (List (String × Doc))

structure Edge where
  id : UUID
  fromNodeID : UUID
  toNodeID : UUID
  label : String
  description : Option String
  sortOrder : ℤ

structure GraphInput where
  rootNodeID : Option UUID
  nodes : Option (List Node)
  edges : Option (List Edge)

variable (parse : String → Option UUID)

def nodeFields : List (Field Node) :=
  [field "id" (uuid parse) Node.id fun n v => { n with id := v },
   field "kind" string Node.kind fun n v => { n with kind := v },
   field "title" string Node.title fun n v => { n with title := v },
   field "description" string Node.description fun n v => { n with description := v },
   field "terminal_resolution" (pointer string) Node.terminalResolution
     fun n v => { n with terminalResolution := v },
   field "metadata" rawMap Node.metadata fun n v => { n with metadata := v }]

def node : Decoder Node := struct "httpdto.Node" ⟨UUID.nil, "", "", "", none, none⟩ (nodeFields parse)

def edgeFields : List (Field Edge) :=
  [field "id" (uuid parse) Edge.id fun e v => { e with id := v },
   field "from_node_id" (uuid parse) Edge.fromNodeID fun e v => { e with fromNodeID := v },
   field "to_node_id" (uuid parse) Edge.toNodeID fun e v => { e with toNodeID := v },
   field "label" string Edge.label fun e v => { e with label := v },
   field "description" (pointer string) Edge.description fun e v => { e with description := v },
   field "sort_order" int Edge.sortOrder fun e v => { e with sortOrder := v }]

def edge : Decoder Edge :=
  struct "httpdto.Edge" ⟨UUID.nil, UUID.nil, UUID.nil, "", none, 0⟩ (edgeFields parse)

def graphFields : List (Field GraphInput) :=
  [field "root_node_id" (pointer (uuid parse)) GraphInput.rootNodeID
     fun g v => { g with rootNodeID := v },
   field "nodes" (slice "[]httpdto.Node" (node parse)) GraphInput.nodes
     fun g v => { g with nodes := v },
   field "edges" (slice "[]httpdto.Edge" (edge parse)) GraphInput.edges
     fun g v => { g with edges := v }]

def graphInput : Decoder GraphInput :=
  struct "httpdto.GraphInput" ⟨none, none, none⟩ (graphFields parse)

/-! ## To the domain -/

/-- A string as a kind. -/
def nodeKind (s : String) : NodeKind :=
  if s = "decision" then .decision else if s = "terminal" then .terminal else .unknown s

def Node.toNode (n : Node) : Interbellum.Node where
  id := n.id
  kind := nodeKind n.kind
  title := n.title
  description := n.description
  terminalResolution := n.terminalResolution
  metadata := marshalObject n.metadata

def Edge.toEdge (e : Edge) : Interbellum.Edge where
  id := e.id
  fromNodeID := e.fromNodeID
  toNodeID := e.toNodeID
  label := e.label
  description := e.description
  sortOrder := e.sortOrder

def GraphInput.toGraph (g : GraphInput) : Graph where
  rootNodeID := g.rootNodeID
  nodes := (g.nodes.getD []).map Node.toNode
  edges := (g.edges.getD []).map Edge.toEdge

end Interbellum.Http
