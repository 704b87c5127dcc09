import CodeSurvey.Host
import CodeSurvey.Json.Basic

/-!
# Warnings

What a survey tells about conditions that do not stop it.
-/
namespace CodeSurvey

/-- Why a stored document cannot be read or written. -/
inductive DocumentFault where
  | inaccessible (path : String) (fault : DiskFault)
  | malformed (path : String)
  deriving DecidableEq, Repr

namespace DocumentFault

def message : DocumentFault → String
  | .inaccessible path fault => "cannot access " ++ path ++ ": " ++ fault.message
  | .malformed path => "malformed JSON in " ++ path

end DocumentFault

/-- Why an entry of a store is not taken over. -/
inductive EntryFault where
  | undecodable
  | undecodableLegacy
  | noContentHash
  | unknownLayout
  deriving DecidableEq, Repr

namespace EntryFault

def message : EntryFault → String
  | .undecodable => "undecodable entry"
  | .undecodableLegacy => "undecodable legacy entry"
  | .noContentHash => "entry has no content hash"
  | .unknownLayout => "unrecognised entry layout"

end EntryFault

/-- What a walk of a tree stumbles over, and the place if it has a name. -/
structure WalkFault where
  place : Option String
  fault : DiskFault
  deriving DecidableEq, Repr

namespace WalkFault

def message (f : WalkFault) : String :=
  match f.place with
  | some place => "IO error for operation on " ++ place ++ ": " ++ f.fault.message
  | none => f.fault.message

end WalkFault

inductive Warning where
  | unlisted (path : Option String) (fault : WalkFault)
  | sizeUnknown (path : String) (fault : WalkFault)
  | oversized (path : String) (size limit : Nat)
  | unreadable (path : String) (fault : DiskFault)
  | unparsable (path : String)
  | truncated (path : String) (lines : Nat)
  | entryDiscarded (path : String) (fault : EntryFault)
  | storeNotObject
  | entriesNotObject
  | storeUpgraded (layout : String) (schemaVersion kept : Nat)
  | storeUnavailable (fault : DocumentFault)
  deriving DecidableEq, Repr

namespace Warning

def kind : Warning → String
  | .unlisted .. => "enumeration"
  | .sizeUnknown .. | .unreadable .. => "unreadable"
  | .oversized .. => "oversized"
  | .unparsable .. => "unparsable"
  | .truncated .. => "truncated"
  | .entryDiscarded .. | .storeNotObject | .entriesNotObject => "cache-entry-discarded"
  | .storeUpgraded .. => "cache-upgraded"
  | .storeUnavailable .. => "cache-unavailable"

def path? : Warning → Option String
  | .unlisted path _ => path
  | .sizeUnknown path _ | .oversized path .. | .unreadable path _ | .unparsable path
  | .truncated path _ | .entryDiscarded path _ => some path
  | .storeNotObject | .entriesNotObject | .storeUpgraded .. | .storeUnavailable _ => none

def message : Warning → String
  | .unlisted _ fault => fault.message
  | .sizeUnknown _ fault => "size unavailable: " ++ fault.message
  | .unreadable _ fault => fault.message
  | .unparsable _ => "extraction failed; file excluded from symbol output"
  | .oversized _ size limit => s!"{size} bytes exceeds the {limit} byte ceiling"
  | .truncated _ lines => s!"only the first {lines} lines were analysed"
  | .entryDiscarded _ fault => fault.message
  | .storeNotObject => "cache store is not a JSON object; starting empty"
  | .entriesNotObject => "cache entries are not a JSON object; starting empty"
  | .storeUpgraded layout schemaVersion kept =>
    s!"upgraded cache store from schema {layout} to {schemaVersion} ({kept} entries kept)"
  | .storeUnavailable fault => fault.message

def toJson (w : Warning) : Json :=
  .obj <| ("kind", .str w.kind) :: Json.member? "path" .str w.path? ++ [("message", .str w.message)]

end Warning

end CodeSurvey
