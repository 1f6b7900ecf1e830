import Offside.Text.Lines
import Offside.Text.Percent

/-!
# Hosts in brackets

Brackets in the authority of a URI hold an address: eight groups of hexadecimal digits with colons between
them, where one run of groups may be left out and the last two groups may be written as a dotted quad; or an
address of a later version, which names that version.
-/

set_option autoImplicit false

namespace Offside.Editor

/-- A number below 256 in decimal digits, without zeros in front. -/
def isOctet (cs : List Char) : Bool :=
  !cs.isEmpty && cs.all Char.isDigit && decide (cs.length ≤ 3) &&
    (cs == ['0'] || cs.head? != some '0') &&
    decide (cs.foldl (fun n c => 10 * n + (c.toNat - 48)) 0 ≤ 255)

/-- Four octets with points between them. -/
def isDottedQuad (cs : List Char) : Bool :=
  let parts := Text.splitAt '.' cs
  parts.length == 4 && parts.all isOctet

/-- One to four hexadecimal digits. -/
def isGroup (cs : List Char) : Bool :=
  !cs.isEmpty && decide (cs.length ≤ 4) && cs.all fun c => (Text.hexValue? c).isSome

/-- The groups of an address; a dotted quad at the end counts as two. -/
def groups? (cs : List Char) : Option (List (List Char)) :=
  let parts := Text.splitAt ':' cs
  let last := parts.getLastD []
  if parts.length < 3 then none
  else if last.contains '.' then
    if isDottedQuad last then some (parts.dropLast ++ [['0'], ['0']]) else none
  else some parts

/-- Groups on one side of a gap; `outer` is the group at the end of the address, which is empty only if the
gap ends there as well. -/
def isSide (side : List (List Char)) (outer : Option (List Char)) : Bool :=
  side.all isGroup || (side.length == 1 && outer == some [])

/-- Eight groups, or fewer around one gap. -/
def areGroups (groups : List (List Char)) : Bool :=
  let inner := groups.tail.dropLast
  let front := groups.take (1 + (inner.takeWhile (· != [])).length)
  let back := groups.drop (front.length + 1)
  if inner.contains [] then
    isSide front groups.head? && isSide back groups.getLast? &&
      decide ((front.filter (· != [])).length + (back.filter (· != [])).length ≤ 7)
  else groups.length == 8 && groups.all isGroup

/-- An address of the sixth version, with an optional zone behind a percent sign. -/
def isSixthVersion (cs : List Char) : Bool :=
  let zone := cs.dropWhile (· != '%')
  (zone.isEmpty || (decide (2 ≤ zone.length) && !zone.tail.contains '%')) &&
    match groups? (cs.takeWhile (· != '%')) with
    | some groups => areGroups groups
    | none => false

/-- An address of a later version: its number in hexadecimal digits, a point and at least one character. -/
def isLaterVersion (cs : List Char) : Bool :=
  let isHex (c : Char) : Bool := (Text.hexValue? c).isSome
  match cs.dropWhile isHex with
  | '.' :: more => !(cs.takeWhile isHex).isEmpty && !more.isEmpty
  | _ => false

/-- What may stand between brackets. -/
def isAddress : List Char → Bool
  | 'v' :: version => isLaterVersion version
  | cs => isSixthVersion cs

end Offside.Editor
