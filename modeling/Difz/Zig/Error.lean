import Difz.Tree.Header

/-!
# Error names

An error of the native program is a name and nothing else; the Rust crates nest the errors of one
module in those of another. `TreePatch.Error.name` and its parts forget the nesting.
-/

namespace Difz

namespace Zig

inductive Error
  | outOfMemory
  -- patches
  | limitExceeded
  | unexpectedEndOfInput
  | invalidMagic
  | unsupportedVersion
  | patchHashMismatch
  | readerTooOld
  | unsupportedFlags
  | invalidRule
  | invalidOperation
  | invalidPath
  | invalidPayload
  | omittedMetadataPresent
  | trailingData
  | sourceHashMismatch
  | targetHashMismatch
  | missingSourceEntry
  | sourceKindMismatch
  | patchTooLarge
  -- metadata
  | invalidOmitMask
  | emptyFamily
  | unknownFamily
  | duplicateFamily
  | invalidNsec
  | badMetadata
  | emptyName
  | invalidLogicalName
  | reservedTransportName
  | invalidRawName
  | invalidHardlink
  | invalidAceName
  | duplicateXattr
  | duplicateAce
  | emptyNativeAcl
  | zeroLengthHole
  | holeOverflow
  | truncatedMetadata
  | trailingMetadata
  -- snapshots
  | emptyPath
  | invalidUtf8
  | absolutePath
  | backslashSeparator
  | nulByte
  | invalidComponent
  | drivePrefix
  | pathsNotSorted
  | duplicatePath
  | missingParent
  | parentNotDirectory
  | invalidMode
  | invalidEntryData
  | symlinkEscapesRoot
  | tooManyEntries
  | pathTooLong
  | invalidHardlinkRelation
  | invalidSparseExtent
  -- filters
  | emptyPattern
  | compileFailed
  -- file patches
  | truncated
  | sizeMismatch
  | windowTooLarge
  | compressionFailed
  | decompressionFailed
  | resourceLimitExceeded
  deriving DecidableEq, Repr

end Zig

def Metadata.Error.name : Metadata.Error → Zig.Error
  | .invalidOmitMask => .invalidOmitMask
  | .emptyFamily => .emptyFamily
  | .unknownFamily => .unknownFamily
  | .duplicateFamily => .duplicateFamily
  | .invalidNsec => .invalidNsec
  | .badMetadata => .badMetadata
  | .emptyName => .emptyName
  | .invalidLogicalName => .invalidLogicalName
  | .reservedTransportName => .reservedTransportName
  | .invalidRawName => .invalidRawName
  | .invalidHardlink => .invalidHardlink
  | .invalidAceName => .invalidAceName
  | .outOfMemory => .outOfMemory
  | .duplicateXattr => .duplicateXattr
  | .duplicateAce => .duplicateAce
  | .emptyNativeAcl => .emptyNativeAcl
  | .zeroLengthHole => .zeroLengthHole
  | .holeOverflow => .holeOverflow
  | .truncatedMetadata => .truncatedMetadata
  | .trailingMetadata => .trailingMetadata

def Directory.Error.name : Directory.Error → Zig.Error
  | .emptyPath => .emptyPath
  | .invalidUtf8 => .invalidUtf8
  | .absolutePath => .absolutePath
  | .backslashSeparator => .backslashSeparator
  | .nulByte => .nulByte
  | .invalidComponent => .invalidComponent
  | .drivePrefix => .drivePrefix
  | .pathsNotSorted => .pathsNotSorted
  | .duplicatePath => .duplicatePath
  | .missingParent => .missingParent
  | .parentNotDirectory => .parentNotDirectory
  | .invalidMode => .invalidMode
  | .invalidEntryData => .invalidEntryData
  | .symlinkEscapesRoot => .symlinkEscapesRoot
  | .tooManyEntries => .tooManyEntries
  | .pathTooLong => .pathTooLong
  | .invalidHardlinkRelation => .invalidHardlinkRelation
  | .invalidSparseExtent => .invalidSparseExtent

def PathFilter.Error.name : PathFilter.Error → Zig.Error
  | .emptyPattern => .emptyPattern
  | .outOfMemory => .outOfMemory
  | .path error => error.name

def File.Error.name : File.Error → Zig.Error
  | .outOfMemory => .outOfMemory
  | .invalidMagic => .invalidMagic
  | .truncated => .truncated
  | .sizeMismatch => .sizeMismatch
  | .sourceHashMismatch => .sourceHashMismatch
  | .targetHashMismatch => .targetHashMismatch
  | .windowTooLarge => .windowTooLarge
  | .compressionFailed => .compressionFailed
  | .decompressionFailed => .decompressionFailed
  | .resourceLimitExceeded => .resourceLimitExceeded

def TreePatch.Error.name : TreePatch.Error → Zig.Error
  | .limitExceeded => .limitExceeded
  | .unexpectedEndOfInput => .unexpectedEndOfInput
  | .invalidMagic => .invalidMagic
  | .unsupportedVersion => .unsupportedVersion
  | .patchHashMismatch => .patchHashMismatch
  | .readerTooOld => .readerTooOld
  | .unsupportedFlags => .unsupportedFlags
  | .invalidRule => .invalidRule
  | .invalidOperation => .invalidOperation
  | .invalidPath => .invalidPath
  | .invalidPayload => .invalidPayload
  | .omittedMetadataPresent => .omittedMetadataPresent
  | .trailingData => .trailingData
  | .outOfMemory => .outOfMemory
  | .metadata error => error.name
  | .snapshot error => error.name
  | .filter error => error.name
  | .file error => error.name
  | .sourceHashMismatch => .sourceHashMismatch
  | .targetHashMismatch => .targetHashMismatch
  | .missingSourceEntry => .missingSourceEntry
  | .sourceKindMismatch => .sourceKindMismatch

end Difz
