import ExtraCodeowners.Guardrails
import ExtraCodeowners.PublishFence
import ExtraCodeowners.AuthorityCoverage
import ExtraCodeowners.World
import ExtraCodeowners.EpochIntegrity
import ExtraCodeowners.Priority
import ExtraCodeowners.Deliveries
import ExtraCodeowners.Rechecks
import ExtraCodeowners.Tokens
import ExtraCodeowners.Resumption
import ExtraCodeowners.BrokenRepositories
import ExtraCodeowners.Comparison
import ExtraCodeowners.Specs
import ExtraCodeowners.WebhookErrors
import ExtraCodeowners.BudgetConservation
import ExtraCodeowners.ReviewFilter
import ExtraCodeowners.DeadPatterns
import ExtraCodeowners.Rendering
import ExtraCodeowners.Wakeups
import ExtraCodeowners.ReleaseHistory
import ExtraCodeowners.DcoSound
import ExtraCodeowners.CursorMigration
import ExtraCodeowners.CheckRuns
import ExtraCodeowners.CheckOutput
import ExtraCodeowners.DiscoverySound
import ExtraCodeowners.OwnerNames
import ExtraCodeowners.JsonNesting
import ExtraCodeowners.ReleaseTags
import ExtraCodeowners.CommitLog
import ExtraCodeowners.SchemaVariants
import ExtraCodeowners.LinkRendering
import ExtraCodeowners.HeadSafety
import ExtraCodeowners.Passes
import ExtraCodeowners.Election
import ExtraCodeowners.RequestSafety
