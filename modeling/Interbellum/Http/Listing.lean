import Interbellum.Http.Handlers
import Interbellum.Text.Query

/-!
# Lists of playbooks

The answers to `GET /api/v1/playbooks` and `GET /api/v1/playbooks/{playbookId}`. A version appears
in them by its summary, without its graph.
-/

namespace Interbellum.Http

open Query (Bytes)

namespace Response

structure Playbook where
  id : UUID
  name : String
  description : String
  alertType : String
  createdAt : Time
  updatedAt : Time

structure PlaybookVersionSummary where
  id : UUID
  version : ℕ
  status : String
  createdAt : Time
  publishedAt : Option Time
  deriving DecidableEq

structure PlaybookWithVersions extends Playbook where
  versions : List PlaybookVersionSummary

structure PlaybookList where
  items : List Playbook

def toPlaybook (p : Interbellum.Playbook) : Playbook where
  id := p.id
  name := p.name
  description := p.description
  alertType := p.alertType
  createdAt := p.createdAt
  updatedAt := p.updatedAt

def toPlaybookList (playbooks : List Interbellum.Playbook) : PlaybookList :=
  ⟨playbooks.map toPlaybook⟩

def toSummary (v : Version) : PlaybookVersionSummary where
  id := v.id
  version := v.version
  status := v.status.text
  createdAt := v.createdAt
  publishedAt := v.publishedAt

def toPlaybookWithVersions (result : Interbellum.Playbook × List Version) :
    PlaybookWithVersions where
  toPlaybook := toPlaybook result.1
  versions := result.2.map toSummary

end Response

/-- `GET /api/v1/playbooks`. The database refuses a filter that is not UTF-8. -/
def listPlaybooks (query : Bytes) : Svc Response.PlaybookList :=
  match String.fromUTF8? ⟨(Query.get "alert_type" query).toArray⟩ with
  | some alertType => Response.toPlaybookList <$> PlaybookRepository.list alertType
  | none => throw .internal

/-- `GET /api/v1/playbooks/{playbookId}` -/
def getPlaybook (parse : String → Option UUID) (playbookID : String) :
    Svc Response.PlaybookWithVersions :=
  match pathUUID parse "playbookId" playbookID with
  | .error e => throw e
  | .ok id => Response.toPlaybookWithVersions <$> PlaybookRepository.get id

end Interbellum.Http
