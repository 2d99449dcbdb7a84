import Playscript.Binary64.Text
import Playscript.Status

/-!
# Fault — what can go wrong, and how it is reported

* `Fault.Kind` — the classes of faults, with their codes; `Kind.isRecoverable` holds of the four
  that a performance reports and then plays on;
* `Fault.Cause` — every cause by name; `Cause.kind` and `Cause.message` give its class and wording;
* `Fault` — a cause, with the line of the source where there is one.
-/

namespace Playscript

/-- The class of a fault. -/
inductive Fault.Kind where
  | notFound
  | notADirectory
  | corruptContainer
  | encoding
  | invalidManifest
  | invalidScript
  | io
  | terminal
  | malformedLine
  | invalidArgument
  | invalidColor
  | unknownRole
deriving DecidableEq, Repr

namespace Fault.Kind

def code : Kind → String
  | notFound => "NOT_FOUND"
  | notADirectory => "NOT_A_DIRECTORY"
  | corruptContainer => "CORRUPT_CONTAINER"
  | encoding => "ENCODING"
  | invalidManifest => "INVALID_MANIFEST"
  | invalidScript => "INVALID_SCRIPT"
  | io => "IO"
  | terminal => "TERMINAL"
  | malformedLine => "MALFORMED_LINE"
  | invalidArgument => "INVALID_ARGUMENT"
  | invalidColor => "INVALID_COLOR"
  | unknownRole => "UNKNOWN_ROLE"

/-- Faults of single lines, which are reported while everything else goes on. -/
def isRecoverable : Kind → Bool
  | malformedLine | invalidArgument | invalidColor | unknownRole => true
  | _ => false

end Fault.Kind

/-- Why something failed.  Paths are given as displayed, and `detail` is what the reader of the data
or the file system adds. -/
inductive Fault.Cause where
  -- A fault whose class and wording are given from outside.
  | stated (kind : Kind) (message : String)
  -- colours and directives
  | unknownColor (spec : String)
  | unknownColorSetting (name : String)
  | unknownStyle (name : String)
  | notSeconds (value : String)
  | invalidStatement (statement : String)
  | emptyDirective
  | recordWithoutText
  | unknownRole (id : String)
  | cannotAdvance (status : Status)
  -- registries, manifests and styles
  | registrySyntax (detail : String)
  | manifestSyntax (detail : String)
  | unknownDefaultStyle (name : String)
  | typingDelay (seconds : Binary64)
  -- A fault of a value that a manifest holds.
  | inManifest (cause : Cause)
  -- scripts written as documents
  | documentSyntax (detail : String)
  | documentWithoutLines
  | documentShape (found : String)
  | arrayLine
  | taggedLine (detail : String)
  | fieldNotText (key found : String)
  | lineShape (found : String)
  -- containers
  | headerTruncated
  | containerVersion (version : Nat)
  | algorithmId (id : Nat)
  | notAContainer
  | decompression (algorithm detail : String)
  | decodedNotText
  | scriptNotText (detail : String)
  | unknownAlgorithm (name : String)
  | levelOutOfRange (level : Nat) (algorithm : String) (low high : Nat)
  -- packages
  | packageSourceNotFound (path : String)
  | packageSourceNotDirectory (path : String)
  -- Something below the source, at the path `place`, cannot be listed.
  | packageWalk (source place detail : String)
  | packageEntry (detail : String)
  | entryOutside (path : String)
  | entryWithoutPath
  | entryThroughLink (entry link : String)
  | entryType (path type : String)
  -- files
  | fileNotFound (path : String)
  | fileAccess (path detail : String)
  | fileNotText (path : String)
  | scriptNotFound (path : String)
  | scriptUnreadable (path detail : String)
  | scriptFileNotText (path : String)
  | fileUnwritable (path detail : String)
  | logUnwritable (path detail : String)
  -- projects
  | noManifest (dir : String)
  | projectNotFound (dir : String)
  | projectNotDirectory (dir : String)
  -- A project directory whose real place cannot be told, for a reason of the given class.
  | projectUnresolved (kind : Kind) (dir detail : String)
  | outputInsideProject
  | manifestPath (path : String)
  | overwritesInput (path : String)
deriving Repr

namespace Fault.Cause

def kind : Cause → Kind
  | stated kind _ => kind
  | unknownColor _ | unknownColorSetting _ | unknownStyle _ => .invalidColor
  | notSeconds _ | cannotAdvance _ | typingDelay _ => .invalidArgument
  | invalidStatement _ | emptyDirective | recordWithoutText => .malformedLine
  | unknownRole _ => .unknownRole
  | registrySyntax _ | manifestSyntax _ | unknownDefaultStyle _ | inManifest _ => .invalidManifest
  | documentSyntax _ | documentWithoutLines | documentShape _ => .invalidScript
  | arrayLine | taggedLine _ | fieldNotText .. | lineShape _ => .malformedLine
  | headerTruncated | containerVersion _ | algorithmId _ | notAContainer => .corruptContainer
  | decompression .. | decodedNotText => .corruptContainer
  | scriptNotText _ => .encoding
  | unknownAlgorithm _ | levelOutOfRange .. => .invalidArgument
  | packageSourceNotFound _ => .notFound
  | packageSourceNotDirectory _ => .notADirectory
  | packageWalk .. => .io
  | packageEntry _ | entryOutside _ | entryWithoutPath => .corruptContainer
  | entryThroughLink .. | entryType .. => .corruptContainer
  | fileNotFound _ | scriptNotFound _ | noManifest _ | projectNotFound _ => .notFound
  | fileAccess .. | scriptUnreadable .. | fileUnwritable .. | logUnwritable .. => .io
  | fileNotText _ | scriptFileNotText _ => .encoding
  | projectNotDirectory _ => .notADirectory
  | projectUnresolved kind _ _ => kind
  | outputInsideProject | overwritesInput _ => .invalidArgument
  | manifestPath _ => .invalidManifest

def message : Cause → String
  | stated _ message => message
  | unknownColor spec => s!"Unknown color \"{spec}\"."
  | unknownColorSetting name => s!"Unknown color setting \"{name}\"."
  | unknownStyle name => s!"Unknown style \"{name}\"."
  | notSeconds value => s!"Expected a non-negative number of seconds, got \"{value}\"."
  | invalidStatement statement => s!"Invalid statement: /{statement}"
  | emptyDirective => "Empty directive after \"/\"."
  | recordWithoutText => "Structured line has no \"text\" field."
  | unknownRole id => s!"Unknown role \"{id}\"."
  | cannotAdvance status => s!"Cannot advance while playback is {status.name}."
  | registrySyntax detail => s!"Failed to parse role registry: {detail}"
  | manifestSyntax detail => s!"Failed to parse qd.json: {detail}"
  | unknownDefaultStyle name => s!"Unknown default style \"{name}\"."
  | typingDelay seconds => s!"Typing delay must be a non-negative number, got {seconds.plain}."
  | inManifest cause => cause.message
  | documentSyntax detail => s!"Failed to parse JSON script: {detail}"
  | documentWithoutLines => "JSON script object must carry a \"lines\" array."
  | documentShape found => s!"JSON script must be an array, got {found}."
  | arrayLine => "Array lines must be [role, text] string pairs."
  | taggedLine detail => s!"Invalid tagged line: {detail}"
  | fieldNotText key found => s!"Field \"{key}\" must be a string, got {found}."
  | lineShape found => s!"Unsupported line of type {found}."
  | headerTruncated => "Container header is truncated."
  | containerVersion version => s!"Unsupported container version {version}."
  | algorithmId id => s!"Unknown compression algorithm id {id}."
  | notAContainer => "Data is not a recognised compressed container."
  | decompression algorithm detail => s!"Failed to decompress {algorithm} data: {detail}"
  | decodedNotText => "Decoded script is not valid UTF-8."
  | scriptNotText detail => s!"Script is not valid UTF-8: {detail}"
  | unknownAlgorithm name => s!"Unknown compression algorithm \"{name}\"."
  | levelOutOfRange level algorithm low high =>
    s!"Compression level {level} is out of range for {algorithm} ({low}-{high})."
  | packageSourceNotFound path => s!"Package source not found: {path}"
  | packageSourceNotDirectory path => s!"Package source is not a directory: {path}"
  | packageWalk source place detail =>
    s!"Failed to walk \"{source}\": IO error for operation on {place}: {detail}"
  | packageEntry detail => s!"Failed to read package entry: {detail}"
  | entryOutside path => s!"Refusing package entry outside the destination: \"{path}\"."
  | entryWithoutPath => "Package entry has an empty path."
  | entryThroughLink entry link =>
    s!"Refusing to write package entry \"{entry}\" through the link \"{link}\"."
  | entryType path type => s!"Refusing package entry \"{path}\" of type {type}."
  | fileNotFound path => s!"File not found: {path}"
  | fileAccess path detail => s!"I/O error at \"{path}\": {detail}"
  | fileNotText path => s!"File is not valid UTF-8: {path}"
  | scriptNotFound path => s!"Script file not found: {path}"
  | scriptUnreadable path detail => s!"Failed to read \"{path}\": {detail}"
  | scriptFileNotText path => s!"Script is not valid UTF-8: {path}"
  | fileUnwritable path detail => s!"Failed to write \"{path}\": {detail}"
  | logUnwritable path detail => s!"Failed to open log file \"{path}\": {detail}"
  | noManifest dir => s!"No qd.json in \"{dir}\"."
  | projectNotFound dir => s!"Project directory not found: {dir}"
  | projectNotDirectory dir => s!"Project directory not found: {dir}"
  | projectUnresolved _ dir detail => s!"Project directory not found: {dir} ({detail})"
  | outputInsideProject => "Package output must not be inside the project directory."
  | manifestPath path => s!"Manifest path \"{path}\" must be relative to the project directory."
  | overwritesInput path => s!"Output would overwrite the input \"{path}\"."

end Fault.Cause

/-- A cause, and the line of the source that it concerns. -/
structure Fault where
  cause : Fault.Cause
  line : Option Nat
deriving Repr

namespace Fault

def of (cause : Cause) : Fault := ⟨cause, none⟩

def atLine (line : Nat) (cause : Cause) : Fault := ⟨cause, some line⟩

def kind (f : Fault) : Kind := f.cause.kind

def message (f : Fault) : String := f.cause.message

def code (f : Fault) : String := f.kind.code

def isRecoverable (f : Fault) : Bool := f.kind.isRecoverable

def display (f : Fault) : String := s!"{f.code}: {f.message}"

def inManifest (f : Fault) : Fault := { f with cause := .inManifest f.cause }

end Fault

end Playscript
