import CodeWeave.Lib.Runs
import CodeWeave.Lib.Overwrite
import CodeWeave.Defs.Intelligence.Diagnostics
import CodeWeave.Defs.Index.ScanLaws
import CodeWeave.Defs.Workspace.PendingLoss
import CodeWeave.Defs.Workspace.CommitAgreement
import CodeWeave.Defs.Workspace.PathSpelling
import CodeWeave.Defs.Workspace.Vouched
import CodeWeave.Defs.Workspace.Stamps
import CodeWeave.Defs.Workspace.ChangeRecords
import CodeWeave.Defs.Workspace.Incremental
import CodeWeave.Defs.Workspace.PollingLaws
import CodeWeave.Defs.Workspace.Replacements
import CodeWeave.Defs.Workspace.RunChanges
import CodeWeave.Defs.Workspace.Baselines
import CodeWeave.Defs.Intelligence.References
import CodeWeave.Defs.Workspace.Contents
import CodeWeave.Defs.Workspace.DiffContinuations
import CodeWeave.Lib.Codes
import CodeWeave.Defs.Index.RefreshTruth
import CodeWeave.Defs.Workspace.Admission
import CodeWeave.Defs.Workspace.Relocation
import CodeWeave.Defs.Bash.OutputLaws
import CodeWeave.Defs.Bash.SupervisorLaws
import CodeWeave.Defs.Workspace.GitOptions
import CodeWeave.Defs.Index.SearchLaws
import CodeWeave.Defs.FallbackLaws
import CodeWeave.Defs.Index.OrderLaws
import CodeWeave.Defs.Index.SliceLaws
import CodeWeave.Defs.Workspace.RangeReplacement
import CodeWeave.Defs.Workspace.FetchLaws
import CodeWeave.Defs.Workspace.KeptEndings
import CodeWeave.Defs.Workspace.AnchoredInsert
import CodeWeave.Defs.Intelligence.RenameLaws
import CodeWeave.Defs.Intelligence.PositionLaws
import CodeWeave.Defs.Intelligence.WorkspaceEditLaws
import CodeWeave.Defs.Intelligence.UriLaws
import CodeWeave.Defs.Intelligence.PercentDecoding
import CodeWeave.Defs.Intelligence.FrameLaws
import CodeWeave.Defs.Index.QualifiedNames
import CodeWeave.Defs.Repository.DiffLaws
import CodeWeave.Defs.Repository.UntrackedLaws
import CodeWeave.Defs.Repository.PorcelainLaws
import CodeWeave.Defs.State.GitObservations
import CodeWeave.Defs.OccurrenceLaws
import CodeWeave.Defs.Workspace.HandleLaws
import CodeWeave.Defs.Workspace.TruncationLaws
import CodeWeave.Defs.Workspace.CachedScans
import CodeWeave.Defs.Workspace.ValidationLaws
import CodeWeave.Defs.Workspace.ScopeSpellings
import CodeWeave.Defs.Bash.LoneInserts
import CodeWeave.Defs.Workspace.CodeRetrieve
import CodeWeave.Defs.Requests.SchemaLaws
import CodeWeave.Defs.Requests.NarrowEdits
import CodeWeave.Defs.Locking.LockOrder
import CodeWeave.Defs.Cli.TokenFileLaws
