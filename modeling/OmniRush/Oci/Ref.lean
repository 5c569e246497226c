import OmniRush.Lib.Bytes
import OmniRush.Lib.Cut

/-!
# Image references

`ref.go`. A text is its bytes, whatever they are. `strings.ToLower` is any function: it is only
asked whether it changes a repository, and nothing here depends on the answer.
-/

namespace OmniRush.Oci

/-- The bytes of a text of the source. -/
def ascii (text : String) : Bytes := text.toList.map fun c => c.toNat.toUInt8

def slash : UInt8 := 0x2f
def colon : UInt8 := 0x3a
def atSign : UInt8 := 0x40
def dot : UInt8 := 0x2e

/-- `unicode.IsSpace`, each character in UTF-8. -/
def spaces : List Bytes :=
  [[0x09], [0x0a], [0x0b], [0x0c], [0x0d], [0x20], [0xc2, 0x85], [0xc2, 0xa0],
    [0xe1, 0x9a, 0x80], [0xe2, 0x80, 0x80], [0xe2, 0x80, 0x81], [0xe2, 0x80, 0x82],
    [0xe2, 0x80, 0x83], [0xe2, 0x80, 0x84], [0xe2, 0x80, 0x85], [0xe2, 0x80, 0x86],
    [0xe2, 0x80, 0x87], [0xe2, 0x80, 0x88], [0xe2, 0x80, 0x89], [0xe2, 0x80, 0x8a],
    [0xe2, 0x80, 0xa8], [0xe2, 0x80, 0xa9], [0xe2, 0x80, 0xaf], [0xe2, 0x81, 0x9f],
    [0xe3, 0x80, 0x80]]

def trimSpace (s : Bytes) : Bytes := trim spaces s

structure Ref where
  registry : Bytes
  repo : Bytes
  tag : Bytes
  digest : Bytes
  deriving DecidableEq, Repr

inductive RefError where
  | empty
  | badDigest (digest : Bytes)
  | badRepository (repo : Bytes)
  deriving DecidableEq, Repr

def dockerHub : Bytes := ascii "registry-1.docker.io"

def dockerIo : Bytes := ascii "docker.io"

/-- `Ref.String`. -/
def Ref.string (r : Ref) : Bytes :=
  let host := if r.registry = dockerHub then dockerIo else r.registry
  host ++ slash :: r.repo ++ (if r.tag ≠ [] then colon :: r.tag else []) ++
    (if r.digest ≠ [] then atSign :: r.digest else [])

def isHexDigit (b : UInt8) : Bool := (0x30 ≤ b && b ≤ 0x39) || (0x61 ≤ b && b ≤ 0x66)

def sha256Prefix : Bytes := ascii "sha256:"

def validDigest (d : Bytes) : Bool :=
  sha256Prefix.isPrefixOf d && d.length = 71 && (d.drop 7).all isHexDigit

/-- The first part of a path is a registry, not a folder. -/
def isRegistry (first : Bytes) : Bool :=
  first.any (fun b => b = dot || b = colon) || first = ascii "localhost"

/-- Docker Hub has two other names. -/
def hubName (registry : Bytes) : Bytes :=
  if registry = dockerIo ∨ registry = ascii "index.docker.io" then dockerHub else registry

/-- The registry, and what comes after it. -/
def splitRegistry (s : Bytes) : Bytes × Bytes :=
  match cutFirst slash s with
  | some (first, rest) =>
      if rest ≠ [] ∧ isRegistry first then (hubName first, rest) else (dockerHub, s)
  | none => (dockerHub, s)

/-- What is before the tag, and the tag. -/
def splitTag (s : Bytes) : Bytes × Bytes :=
  match cutLast colon s with
  | some (before, tag) => if slash ∉ tag then (before, tag) else (s, [])
  | none => (s, [])

/-- A repository of Docker Hub without a folder is in `library`. -/
def qualify (registry repo : Bytes) : Bytes :=
  if registry = dockerHub ∧ slash ∉ repo then ascii "library/" ++ repo else repo

variable (toLower : Bytes → Bytes)

/-- The reference of a repository and a tag, if it is one. -/
def checkRepo (registry repo tag digest : Bytes) : Except RefError Ref :=
  if repo = [] ∨ repo.any (fun b => b = 0x20 || b = 0x09 || b = atSign) ∨ repo ≠ toLower repo then
    .error (.badRepository repo)
  else
    .ok ⟨registry, repo, if tag = [] ∧ digest = [] then ascii "latest" else tag, digest⟩

/-- `ParseRef` once the digest is off. -/
def parseName (s digest : Bytes) : Except RefError Ref :=
  let (registry, s) := splitRegistry s
  let (repo, tag) := splitTag s
  checkRepo toLower registry (qualify registry repo) tag digest

def parseRef (s : Bytes) : Except RefError Ref :=
  let s := trimSpace s
  if s = [] then .error .empty
  else
    match cutFirst atSign s with
    | some (s, digest) =>
        if validDigest digest then parseName toLower s digest else .error (.badDigest digest)
    | none => parseName toLower s []

end OmniRush.Oci
