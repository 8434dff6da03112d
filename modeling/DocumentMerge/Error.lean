import DocumentMerge.Archive.Error
import DocumentMerge.Image.Format
import DocumentMerge.Markup.Error

/-!
# Why a merge fails

The causes for which a template cannot be opened, filled or saved.  An error that comes from a
layer below keeps that layer's error: its wording ends the wording of the whole, and a report may
go on to give it once more (`Error.causes`).
-/

namespace DocumentMerge

/-- Why a file cannot be used as an image. -/
inductive ImageError where
  /-- The path does not end in the name of a file. -/
  | noFileName
  | unreadable (cause : DiskError)
  | unknownFormat
  /-- The header gives no size. -/
  | noSize (format : ImageFormat)
  deriving DecidableEq, Repr

def ImageError.message : ImageError → Text
  | .noFileName => "path has no file name".toList
  | .unreadable cause => cause.message
  | .unknownFormat => "unknown image format".toList
  | .noSize format => "unreadable ".toList ++ format.name ++ " header".toList

/-- Why the result cannot be written. -/
inductive ExportError where
  | alreadyOpen
  | noWorkingCopy
  | archive (cause : ArchiveError)
  | copy (destination : Text) (cause : DiskError)
  deriving DecidableEq, Repr

def ExportError.message : ExportError → Text
  | .alreadyOpen => "working copy is already open".toList
  | .noWorkingCopy => "no working copy for this document".toList
  | .archive cause => cause.message
  | .copy destination cause => destination ++ ": ".toList ++ cause.message

/-- Why a configuration cannot be used. -/
inductive ConfigError where
  | directoryMissing (path : Text)
  | notADirectory (path : Text)
  /-- No file can be made in the directory. -/
  | notWritable (path : Text) (cause : DiskError)
  deriving DecidableEq, Repr

def ConfigError.message : ConfigError → Text
  | .directoryMissing path => "temporary directory '".toList ++ path ++ "' does not exist".toList
  | .notADirectory path => "temporary path '".toList ++ path ++ "' is not a directory".toList
  | .notWritable path cause =>
    "temporary directory '".toList ++ path ++ "' is not writable: ".toList ++ cause.message

/-- Why a call on a document or a segment fails. -/
inductive Error where
  | documentNotFound (path : Text)
  | archiveOpen (path : Text) (cause : ArchiveError)
  | missingEntry (name : Text)
  /-- The document has no tag of a variable. -/
  | variableNotFound (key : Text)
  | segmentNotFound (name : Text)
  | segmentNotDeclared (name : Text)
  | segmentVariableNotFound (segment key : Text)
  | childNotFound (segment child : Text)
  | nestingTooDeep (name : Text) (limit : Nat)
  | image (path : Text) (cause : ImageError)
  | notExported (cause : ExportError)
  | propertyNotFound (key : Text)
  | config (cause : ConfigError)
  | unknownCharset (label : Text)
  | io (cause : DiskError)
  | archive (cause : ArchiveError)
  | markup (cause : Markup.Error)
  /-- The byte range of a property cuts a character. -/
  | brokenProperty
  /-- A text is not JSON, or not the JSON that is wanted. -/
  | json
  deriving DecidableEq, Repr

namespace Error

def message : Error → Text
  | .documentNotFound path => "Document not found: ".toList ++ path
  | .archiveOpen path cause =>
    "Error while opening '".toList ++ path ++ "': ".toList ++ cause.message
  | .missingEntry name => "Missing archive entry: ".toList ++ name
  | .variableNotFound key => "var ".toList ++ key ++ " not found in the document".toList
  | .segmentNotFound name => '\'' :: name ++ "' segment not found in the document".toList
  | .segmentNotDeclared name => name ++ " cannot be parsed, has it been set yet?".toList
  | .segmentVariableNotFound segment key =>
    "var ".toList ++ key ++ " not found in ".toList ++ segment
  | .childNotFound segment child =>
    "child ".toList ++ child ++ " does not exist in ".toList ++ segment
  | .nestingTooDeep name limit =>
    "Segment '".toList ++ name ++ "' is nested deeper than ".toList ++ Text.ofNat limit
      ++ " levels".toList
  | .image path cause => "Invalid image '".toList ++ path ++ "': ".toList ++ cause.message
  | .notExported cause => "Error during file export: ".toList ++ cause.message
  | .propertyNotFound key =>
    "Custom property '".toList ++ key ++ "' not found in meta.xml".toList
  | .config cause => "Invalid configuration: ".toList ++ cause.message
  | .unknownCharset label => "Unknown charset: ".toList ++ label
  | .io cause => "IO error: ".toList ++ cause.message
  | .archive cause => "Archive error: ".toList ++ cause.message
  | .markup cause => "XML parsing error: ".toList ++ cause.message
  | .brokenProperty => "XML parsing error: range inside a character".toList
  | .json => "JSON error: unexpected data".toList

/-- The wording of the errors below an error. -/
def causes : Error → List Text
  | .io cause => [cause.message]
  | .archive cause => cause.message :: cause.causes
  | .markup cause => cause.message :: cause.causes
  | _ => []

end Error

end DocumentMerge
