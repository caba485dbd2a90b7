import Difz.Acl.Container
import Difz.Acl.Portable
import Difz.Command.Main
import Difz.Extent.Allocated
import Difz.Extent.Seek
import Difz.Filter.Match
import Difz.Hardlink.Rebase
import Difz.Machine.Patch
import Difz.Machine.Timestamp
import Difz.Machine.WindowsAcl
import Difz.Metadata.NativeName
import Difz.Metadata.Normalize
import Difz.Platform.Growth
import Difz.Platform.Names
import Difz.Restore.Acl
import Difz.Restore.Attributes
import Difz.Restore.Exchange
import Difz.Restore.Plan
import Difz.Restore.Snapshot
import Difz.Stage.Atomic
import Difz.Stage.Directories
import Difz.Stage.NewFile
import Difz.Tree.Omission
import Difz.Tree.Soundness
import Difz.Walk.Groups
import Difz.Walk.Inverse
import Difz.Walk.Removal
import Difz.Walk.Restored
import Difz.Wire.Writer
import Difz.Zig.Create
import Difz.Zig.Select
