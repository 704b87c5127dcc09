import CodeSurvey.Digest.Blake3
import CodeSurvey.Digest.Sha256
import CodeSurvey.Extraction
import CodeSurvey.Text.Utf8

/-!
# The store of extractions

A store keeps what was extracted from each file, with a digest of the content it was extracted from.
An entry is used again only for the same content and the same version of the patterns.
-/
namespace CodeSurvey.Cache

/-- The digest of a file's bytes. -/
def contentHash (bytes : List UInt8) : String :=
  Digest.hex (Digest.Blake3.digest bytes)

/-- The digest that older stores keep, of the decoded text. -/
def legacyContentHash (text : List Char) : String :=
  String.ofList ((Digest.hex (Digest.Sha256.digest (Text.Utf8.encode text))).toList.take 16)

inductive HashKind where
  | blake3
  | legacySha256
  deriving DecidableEq, Repr

/-- How a file looks now. -/
structure Fingerprint where
  hash : String
  /-- The decoded text, for entries of older stores. -/
  text : List Char
  patternVersion : Nat
  deriving DecidableEq, Repr

structure Entry where
  contentHash : String
  hashKind : HashKind
  /-- Entries of older stores have none and fit every version. -/
  patternVersion : Option Nat
  parsedAt : String
  extraction : Extraction
  deriving DecidableEq, Repr

namespace Entry

def hashMatches (e : Entry) (f : Fingerprint) : Bool :=
  match e.hashKind with
  | .blake3 => e.contentHash == f.hash
  | .legacySha256 => e.contentHash == legacyContentHash f.text

/-- Whether the entry was made from what the fingerprint shows. -/
def isCurrent (e : Entry) (f : Fingerprint) : Bool :=
  e.patternVersion.all (· == f.patternVersion) && e.hashMatches f

def isLegacy (e : Entry) : Bool :=
  e.hashKind != .blake3 || e.patternVersion.isNone

end Entry

structure Store where
  createdAt : String
  entries : Table Entry
  deriving DecidableEq, Repr

namespace Store

def schemaVersion : Nat := 2

def empty (now : String) : Store :=
  ⟨now, []⟩

def get? (s : Store) (path : String) : Option Entry :=
  s.entries.get? path

/-- What was extracted from a file, if its entry is current. -/
def lookup? (s : Store) (path : String) (f : Fingerprint) : Option Extraction :=
  ((s.get? path).filter (·.isCurrent f)).map Entry.extraction

/-- Puts an extraction in the place of what was known of the file. -/
def insert (s : Store) (now path hash : String) (patternVersion : Nat) (x : Extraction) : Store :=
  { s with entries := s.entries.insert path ⟨hash, .blake3, some patternVersion, now, x⟩ }

/-- Whether a file has an entry of an older store, to be written anew. -/
def isLegacy (s : Store) (path : String) : Bool :=
  (s.get? path).any Entry.isLegacy

/-- Keeps the entries of the files that still exist. -/
def retain (s : Store) (live : String → Bool) : Store :=
  { s with entries := s.entries.filter fun e => live e.1 }

def size (s : Store) : Nat :=
  s.entries.length

/-- Drops the entries of the files that no longer exist, and tells how many these were. -/
def prune (s : Store) (live : String → Bool) : Store × Nat :=
  let kept := s.retain live
  (kept, s.size - kept.size)

end Store

end CodeSurvey.Cache
