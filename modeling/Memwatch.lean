import Memwatch.Adapter.Protections
import Memwatch.Adapter.Snapshot
import Memwatch.Find.Exact
import Memwatch.Find.Progress
import Memwatch.Freezer.ArrayBounds
import Memwatch.Freezer.Errors
import Memwatch.Freezer.Overlaps
import Memwatch.Freezer.Rewrite
import Memwatch.Freezer.Settle
import Memwatch.Freezer.Writer
import Memwatch.Main.CommandLine
import Memwatch.Main.Signals
import Memwatch.Search.DataSearch
import Memwatch.Search.Delete
import Memwatch.Search.Flags
import Memwatch.Search.Limit
import Memwatch.Search.Lockstep
import Memwatch.Search.Recheck
import Memwatch.Search.Reversed
import Memwatch.Search.Width
import Memwatch.Shell.Access
import Memwatch.Shell.Attach
import Memwatch.Shell.Backed
import Memwatch.Shell.Delete
import Memwatch.Shell.Enable
import Memwatch.Shell.Interactive
import Memwatch.Shell.Pause
import Memwatch.Shell.Printed
import Memwatch.Shell.Trim
import Memwatch.Shell.Unchanged
import Memwatch.Shell.Unnamed
import Memwatch.Shell.WatchedRead
