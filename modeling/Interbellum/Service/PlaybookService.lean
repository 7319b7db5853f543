import Interbellum.Postgres.PlaybookRepository

/-!
# The playbook service

Checks of what a client sends, and the repository behind them.
-/

namespace Interbellum

namespace PlaybookService

/-- The checks of one node, in order; `seen` are the ids of the nodes before it. -/
def validateNode (seen : List UUID) (i : Nat) (n : Node) : Except AppError Unit :=
  if n.id = UUID.nil then .error (.validation "nodes[%d].id is required" [.int i])
  else if n.id ∈ seen then
    .error (.validation "nodes[%d].id %s is duplicated" [.int i, .uuid n.id])
  else
    match n.kind with
    | .unknown raw =>
      .error (.validation "nodes[%d].kind %q must be %q or %q"
        [.int i, .str raw, .str "decision", .str "terminal"])
    | .decision | .terminal =>
      if n.title = "" then .error (.validation "nodes[%d].title is required" [.int i])
      else .ok ()

def validateEdge (seen : List UUID) (i : Nat) (e : Edge) : Except AppError Unit :=
  if e.id = UUID.nil then .error (.validation "edges[%d].id is required" [.int i])
  else if e.id ∈ seen then
    .error (.validation "edges[%d].id %s is duplicated" [.int i, .uuid e.id])
  else if e.label = "" then .error (.validation "edges[%d].label is required" [.int i])
  else if e.fromNodeID = UUID.nil ∨ e.toNodeID = UUID.nil then
    .error (.validation "edges[%d] requires both from_node_id and to_node_id" [.int i])
  else .ok ()

/-- Check the items one after the other, counting from `i`. -/
def validateAll {α : Type} (id : α → UUID) (check : List UUID → Nat → α → Except AppError Unit) :
    List UUID → Nat → List α → Except AppError Unit
  | _, _, [] => .ok ()
  | seen, i, item :: rest => do
    check seen i item
    validateAll id check (id item :: seen) (i + 1) rest

def validateGraphInput (g : Graph) : Except AppError Unit := do
  validateAll Node.id validateNode [] 0 g.nodes
  validateAll Edge.id validateEdge [] 0 g.edges

/-- Go on only when the check passes. -/
def checked {β : Type} (check : Except AppError Unit) (k : Svc β) : Svc β :=
  match check with
  | .error e => throw e
  | .ok () => k

def validateNew (input : NewPlaybook) : Except AppError Unit :=
  if input.name = "" then .error (.validation "name is required" [])
  else if input.alertType = "" then .error (.validation "alert_type is required" [])
  else validateGraphInput input.graph

def create (playbookID versionID : UUID) (now : Time) (input : NewPlaybook) :
    Svc (Playbook × Definition) :=
  checked (validateNew input) (PlaybookRepository.create playbookID versionID now input)

def replaceGraph (versionID : UUID) (g : Graph) : Svc Definition :=
  checked (validateGraphInput g) (PlaybookRepository.replaceGraph versionID g)

end PlaybookService

end Interbellum
