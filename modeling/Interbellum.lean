import Interbellum.Domain.GraphIssues
import Interbellum.Ecma.Stringify
import Interbellum.Guarantees.Candidates
import Interbellum.Guarantees.ChoiceOrder
import Interbellum.Guarantees.Chronology
import Interbellum.Guarantees.Clones
import Interbellum.Guarantees.CycleSearch
import Interbellum.Guarantees.DeadBranches
import Interbellum.Guarantees.Deadlocks
import Interbellum.Guarantees.DeskActions
import Interbellum.Guarantees.DraftForm
import Interbellum.Guarantees.EditorRuns
import Interbellum.Guarantees.Evidence
import Interbellum.Guarantees.EvidenceForm
import Interbellum.Guarantees.History
import Interbellum.Guarantees.Ingestion
import Interbellum.Guarantees.LateAnswers
import Interbellum.Guarantees.Linearizable
import Interbellum.Guarantees.LockOrder
import Interbellum.Guarantees.NewChoices
import Interbellum.Guarantees.Overlay
import Interbellum.Guarantees.Progress
import Interbellum.Guarantees.Publications
import Interbellum.Guarantees.Retries
import Interbellum.Guarantees.RetryKeys
import Interbellum.Guarantees.TornReads
import Interbellum.Guarantees.VersionNumbers
