import Interbellum.Http.Listing

/-!
# What the start screen offers

For an alert the screen lists the playbooks of its type, fetches each of them for its versions,
and offers the published ones.
-/

namespace Interbellum.Frontend

open Http.Response (PlaybookWithVersions PlaybookVersionSummary)
open Query (Bytes ascii utf8 encodeURIComponent)

/-- The query of `listPlaybooks`: without a type there is no filter. -/
def listQuery (alertType : String) : Bytes :=
  if alertType = "" then [] else utf8 "alert_type" ++ ascii '=' :: encodeURIComponent alertType

/-- A published version of a playbook that matches the type of the alert. -/
structure Candidate where
  playbookId : UUID
  playbookName : String
  playbookDescription : String
  version : PlaybookVersionSummary
  deriving DecidableEq

/-- The sort is stable, newest version first. -/
def candidatesOf (playbook : PlaybookWithVersions) : List Candidate :=
  ((playbook.versions.filter fun v => v.status = "published").insertionSort
    fun a b => b.version ≤ a.version).map fun version =>
      { playbookId := playbook.id
        playbookName := playbook.name
        playbookDescription := playbook.description
        version := version }

def candidates (detailed : List PlaybookWithVersions) : List Candidate :=
  detailed.flatMap candidatesOf

theorem get_listQuery (alertType : String) :
    Query.get "alert_type" (listQuery alertType) = utf8 alertType := by
  rw [listQuery]
  split_ifs with hempty
  · rw [hempty]
    rfl
  · have hname : utf8 "alert_type" = Query.encode (utf8 "alert_type") := by decide +kernel
    rw [hname]
    exact Query.get_pair _ _

/-- The server filters by the type that the screen asks for. -/
theorem listPlaybooks_listQuery (alertType : String) : Http.listPlaybooks (listQuery alertType) =
    Http.Response.toPlaybookList <$> PlaybookRepository.list alertType := by
  rw [Http.listPlaybooks, get_listQuery, Query.fromUTF8_utf8]

end Interbellum.Frontend
