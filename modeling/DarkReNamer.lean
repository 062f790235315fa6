import DarkReNamer.Admission.Accounts
import DarkReNamer.Admission.ImportLines
import DarkReNamer.Admission.SortPaths.Agree
import DarkReNamer.ConfirmationDisplay.Pair
import DarkReNamer.IconRequests.Delivery
import DarkReNamer.Preferences.Acknowledged
import DarkReNamer.Preferences.Writer.Lossless
import DarkReNamer.Preview.Incremental
import DarkReNamer.Rename.Attempts.Exhausted
import DarkReNamer.Rename.Cancellation
import DarkReNamer.Rename.Confirmation
import DarkReNamer.Rename.Journal.Codec.Damage
import DarkReNamer.Rename.Journal.Codec.Preflight
import DarkReNamer.Rename.Journal.FileJournal.Cleanup
import DarkReNamer.Rename.Planner.Overlap
import DarkReNamer.Rename.Schedule.Shape.Built
import DarkReNamer.UiLayout.Columns.Exact
import DarkReNamer.UiLayout.MainLayout.Disagreement
import DarkReNamer.UiLayout.Prompt.Containment
import DarkReNamer.Workbench.Append.Tracking
import DarkReNamer.Workbench.Exporting
import DarkReNamer.Workbench.Padding
import DarkReNamer.Workbench.Replacing
import DarkReNamer.Workbench.Settled
import DarkReNamer.Rename.Recovery.Evidence
import DarkReNamer.Rename.Recovery.FailClosed
import DarkReNamer.Interaction.Interpret
import DarkReNamer.Rename.WindowsBackend.Host
import DarkReNamer.Rename.Planner.Complete
import DarkReNamer.Rename.Schedule.Complete
import DarkReNamer.Rename.Executor.Complete
import DarkReNamer.Rename.Rearrangement
import DarkReNamer.Interaction.Retrace
import DarkReNamer.Rename.Journal.FileJournal.Reopened
import DarkReNamer.Rename.Restart
import DarkReNamer.Rename.SafeRuntime.Lifetime
import DarkReNamer.Bytes.Trailer
import DarkReNamer.Preferences.Record.Exact
