/-!
# Bytes as text

Reading UTF-8 that may be damaged: each longest start of a character that does not go on, and each byte that
starts none, is read as one replacement character.  The reader looks at one byte at a time and remembers the
character that is under way.

* `decodeUtf8_append` — bytes that end a character can be read apart from those behind them.
-/

set_option autoImplicit false

namespace Offside.Text

/-- A character under way: how many bytes are missing, the least and the greatest next byte, and the bits
that have been read. -/
structure Pending where
  missing : Nat
  least : Nat
  greatest : Nat
  bits : Nat
  deriving DecidableEq, Repr

/-- The character that stands for damaged bytes. -/
def replacement : Char := '\uFFFD'

/-- What a byte at the start of a character gives, and the character that is then under way. -/
def startByte (b : Nat) : List Char × Option Pending :=
  if b < 0x80 then ([Char.ofNat b], none)
  else if b < 0xc2 then ([replacement], none)
  else if b < 0xe0 then ([], some ⟨1, 0x80, 0xbf, b - 0xc0⟩)
  else if b < 0xf0 then
    ([], some ⟨2, if b = 0xe0 then 0xa0 else 0x80, if b = 0xed then 0x9f else 0xbf, b - 0xe0⟩)
  else if b < 0xf5 then
    ([], some ⟨3, if b = 0xf0 then 0x90 else 0x80, if b = 0xf4 then 0x8f else 0xbf, b - 0xf0⟩)
  else ([replacement], none)

/-- What a byte gives while a character is under way; one that does not go on with it starts another. -/
def nextByte (p : Pending) (b : Nat) : List Char × Option Pending :=
  if p.least ≤ b ∧ b ≤ p.greatest then
    let bits := 64 * p.bits + (b - 0x80)
    if p.missing = 1 then ([Char.ofNat bits], none) else ([], some ⟨p.missing - 1, 0x80, 0xbf, bits⟩)
  else
    let r := startByte b
    (replacement :: r.1, r.2)

/-- What a byte gives, whether or not a character is under way. -/
def readByte (state : Option Pending) (b : UInt8) : List Char × Option Pending :=
  match state with
  | none => startByte b.toNat
  | some p => nextByte p b.toNat

/-- The text of bytes, from a state on, and the state behind them. -/
def readBytes (state : Option Pending) : List UInt8 → List Char × Option Pending
  | [] => ([], state)
  | b :: bs =>
    let first := readByte state b
    let more := readBytes first.2 bs
    (first.1 ++ more.1, more.2)

/-- The text of bytes. -/
def decodeUtf8 (bytes : List UInt8) : List Char :=
  let r := readBytes none bytes
  r.1 ++ (if r.2.isSome then [replacement] else [])

theorem readBytes_append (state : Option Pending) (front back : List UInt8) :
    readBytes state (front ++ back) =
      ((readBytes state front).1 ++ (readBytes (readBytes state front).2 back).1,
        (readBytes (readBytes state front).2 back).2) := by
  induction front generalizing state with
  | nil => rfl
  | cons b bs ih => simp [readBytes, ih]

theorem decodeUtf8_append {front : List UInt8} (back : List UInt8)
    (h : (readBytes none front).2 = none) :
    decodeUtf8 (front ++ back) = decodeUtf8 front ++ decodeUtf8 back := by
  simp [decodeUtf8, readBytes_append, h]

end Offside.Text
