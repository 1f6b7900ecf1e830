import Offside.Editor.Host

/-!
# URIs of documents

A URI has a scheme, an authority and a path, each of which may be absent, and behind the path parameters, a
query and a fragment, which do not matter here.  Blanks and controls in front of it and line breaks and tabs
inside it are dropped.

* `Uri.parse?` — the parts of a URI, `none` if the authority is not well formed;
* `Uri.filePath` — the path of the file that a URI stands for.
-/

set_option autoImplicit false

namespace Offside.Editor

/-- The parts of a URI that lead to a file, with percent signs read. -/
structure Uri where
  scheme : String
  authority : String
  path : String
  deriving DecidableEq, Repr

namespace Uri

/-- What a URI is read from: no blanks or controls in front, no tabs and line breaks. -/
def clean (cs : List Char) : List Char :=
  (cs.dropWhile fun c => decide (c.toNat ≤ 0x20)).filter fun c => c != '\t' && c != '\n' && c != '\r'

/-- The characters of schemes. -/
def inScheme (c : Char) : Bool :=
  c.isAlphanum || c == '+' || c == '-' || c == '.'

/-- The scheme in lower case and what follows its colon; without a scheme it is empty. -/
def splitScheme (cs : List Char) : List Char × List Char :=
  let front := cs.takeWhile (· != ':')
  match front, cs.dropWhile (· != ':') with
  | first :: _, _ :: rest =>
    if first.isAlpha && front.all inScheme then (front.map Char.toLower, rest) else ([], cs)
  | _, _ => ([], cs)

/-- Whether a character ends an authority. -/
def endsAuthority (c : Char) : Bool :=
  c == '/' || c == '?' || c == '#'

/-- The authority, which follows two slashes, and what is behind it. -/
def splitAuthority : List Char → List Char × List Char
  | '/' :: '/' :: cs => (cs.takeWhile fun c => !endsAuthority c, cs.dropWhile fun c => !endsAuthority c)
  | cs => ([], cs)

/-- Characters that are equivalent to a text with a delimiter of URIs in it. -/
def disguised : List Nat :=
  [0x2047, 0x2048, 0x2049, 0x2100, 0x2101, 0x2105, 0x2106, 0x2a74, 0xfe13, 0xfe16, 0xfe55, 0xfe56, 0xfe5f,
   0xfe6b, 0xff03, 0xff0f, 0xff1a, 0xff1f, 0xff20]

/-- The host of an authority with brackets, behind the last at sign.  The brackets stand around all of it, and
only a port, behind a colon, may follow them; `none` otherwise. -/
def bracketedHost? (authority : List Char) : Option (List Char) :=
  let place := (authority.reverse.takeWhile (· != '@')).reverse
  match place.takeWhile (· != '['), place.dropWhile (· != '[') with
  | [], _ :: inner =>
    let port := (inner.dropWhile (· != ']')).tail
    if port.isEmpty || port.head? == some ':' then some (inner.takeWhile (· != ']')) else none
  | _ :: _, _ :: _ => none
  | _, [] => some (place.takeWhile (· != ':'))

/-- Brackets come in pairs and leave an address as host, and no delimiter is disguised. -/
def isAuthority (cs : List Char) : Bool :=
  cs.contains '[' == cs.contains ']' &&
    (!cs.contains '[' || (bracketedHost? cs).any isAddress) &&
    !cs.any fun c => disguised.contains c.toNat

/-- The schemes whose paths may carry parameters. -/
def parameterSchemes : List String :=
  ["", "ftp", "hdl", "prospero", "http", "imap", "https", "shttp", "rtsp", "rtspu", "sip", "sips", "mms",
   "sftp", "tel"]

/-- A path without the parameters of its last segment. -/
def dropParameters (path : List Char) : List Char :=
  let last := (path.reverse.takeWhile (· != '/')).reverse
  path.take (path.length - last.length) ++ last.takeWhile (· != ';')

/-- What is left of a path without fragment, query and, if the scheme has them, parameters. -/
def dropTail (scheme path : List Char) : List Char :=
  let plain := (path.takeWhile (· != '#')).takeWhile (· != '?')
  if parameterSchemes.contains (String.ofList scheme) then dropParameters plain else plain

/-- A part of a URI with percent signs read. -/
def decoded (cs : List Char) : String :=
  Text.percentDecode (String.ofList cs)

/-- The parts of a URI; `none` if its authority is not well formed. -/
def parse? (s : String) : Option Uri :=
  let (scheme, rest) := splitScheme (clean s.toList)
  let (authority, path) := splitAuthority rest
  if isAuthority authority then some ⟨decoded scheme, decoded authority, decoded (dropTail scheme path)⟩
  else none

/-- A path that starts with the letter of a drive gets that letter in lower case and loses its slash. -/
def normalizeDrive (path : String) : String :=
  match path.toList with
  | '/' :: letter :: ':' :: more =>
    if letter.isAlpha then String.ofList (letter.toLower :: ':' :: more) else path
  | _ => path

/-- The path of the file that a URI stands for.  The authority of a file is the machine that has it. -/
def filePath (u : Uri) : String :=
  if u.scheme == "file" && u.authority != "" && u.path != "" then "//" ++ u.authority ++ u.path
  else normalizeDrive u.path

end Uri
end Offside.Editor
