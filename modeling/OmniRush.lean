import OmniRush.Lib.JsonRoundTrip
import OmniRush.Lib.Pax
import OmniRush.Lib.Bytes
import OmniRush.Lib.Machine
import OmniRush.Proofs.Commit
import OmniRush.Proofs.Recover
import OmniRush.Proofs.Crash
import OmniRush.Proofs.Uploads
import OmniRush.Proofs.SignOut
import OmniRush.Archive.Manifest
import OmniRush.Archive.Capture
import OmniRush.Proofs.QueueRoundTrip
import OmniRush.Lib.Patch
import OmniRush.Proofs.Baseline
import OmniRush.Proofs.Continue
import OmniRush.Proofs.SealTamper
import OmniRush.Proofs.RunLifecycle
import OmniRush.Proofs.SchedulePointer
import OmniRush.Proofs.LayerRoot
import OmniRush.Proofs.LayerOverlay
import OmniRush.Proofs.TarWriter
import OmniRush.Proofs.UploadRun
import OmniRush.Proofs.UploadCost
import OmniRush.Proofs.StateTransitions
import OmniRush.Proofs.EventLog
import OmniRush.Proofs.Occupancy
import OmniRush.Proofs.GitPolicy
import OmniRush.Proofs.PoolRoles
import OmniRush.Proofs.PoolRequests
import OmniRush.Proofs.ZipRoundTrip
import OmniRush.Proofs.Approvals
import OmniRush.Proofs.McpEnvironment
import OmniRush.Proofs.BoxRequest
import OmniRush.Proofs.ImportContent
import OmniRush.Proofs.StepSchedule
import OmniRush.Proofs.TurnNumbering
import OmniRush.Proofs.OneCompaction
import OmniRush.Proofs.TouchedDurable
import OmniRush.Proofs.Occurrences
import OmniRush.Proofs.SpoolBounds
import OmniRush.Proofs.ReservedRoots
import OmniRush.Proofs.DrainOrder
import OmniRush.Proofs.WorkQueue
import OmniRush.Proofs.EditorSaves
import OmniRush.Proofs.MissedOccurrence
import OmniRush.Proofs.ReaperReports
import OmniRush.Proofs.MarkCommands
import OmniRush.Proofs.EditorDiff
import OmniRush.Proofs.TurnEvent
import OmniRush.Proofs.BaseForgets
import OmniRush.Proofs.ImageRefs
import OmniRush.Proofs.SnapshotGate
import OmniRush.Proofs.SandboxCommand
import OmniRush.Proofs.UploadFormat
import OmniRush.Proofs.TurnOverlap
import OmniRush.Proofs.StoredApprovals
import OmniRush.Proofs.PoolParking
import OmniRush.Proofs.PathOrder
import OmniRush.Proofs.SseFrames
import OmniRush.Proofs.Columns
import OmniRush.Proofs.HashCache
import OmniRush.Proofs.UploadMigration
import OmniRush.Proofs.GlobExpansion
import OmniRush.Proofs.DirtyScans
import OmniRush.Proofs.BoxTar
import OmniRush.Proofs.SpoolAccounts
