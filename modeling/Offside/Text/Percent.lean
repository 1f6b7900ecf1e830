import Offside.Text.Utf8

/-!
# Percent encoding

File names inside a URI: letters, digits, `_`, `.`, `-`, `~` and the slash stand for themselves, every other
byte of the UTF-8 form is written as a percent sign and two upper-case hexadecimal digits.  Digits of either
case are read, and a percent sign without two of them stands for itself.
-/

set_option autoImplicit false

namespace Offside.Text

/-- Bytes that stand for themselves. -/
def isPlainByte (b : UInt8) : Bool :=
  let c := Char.ofNat b.toNat
  decide (b.toNat < 128) &&
    (c.isAlphanum || c == '_' || c == '.' || c == '-' || c == '~' || c == '/')

/-- An upper-case hexadecimal digit. -/
def upperHexDigit (n : Nat) : Char :=
  if n < 10 then Char.ofNat (48 + n) else Char.ofNat (55 + n)

/-- The number that a hexadecimal digit of either case stands for. -/
def hexValue? (c : Char) : Option Nat :=
  if c.isDigit then some (c.toNat - 48)
  else if decide ('a' ≤ c ∧ c ≤ 'f') then some (c.toNat - 87)
  else if decide ('A' ≤ c ∧ c ≤ 'F') then some (c.toNat - 55)
  else none

/-- One byte of a file name in a URI. -/
def percentByte (b : UInt8) : List Char :=
  if isPlainByte b then [Char.ofNat b.toNat]
  else ['%', upperHexDigit (b.toNat / 16), upperHexDigit (b.toNat % 16)]

/-- A file name as part of a URI. -/
def percentEncode (s : String) : String :=
  String.ofList (s.toUTF8.data.toList.flatMap percentByte)

/-- The bytes of a text in which a percent sign and two hexadecimal digits stand for a byte. -/
def percentBytes : List Char → List UInt8
  | '%' :: a :: b :: cs =>
    match hexValue? a, hexValue? b with
    | some x, some y => UInt8.ofNat (16 * x + y) :: percentBytes cs
    | _, _ => (String.singleton '%').toUTF8.data.toList ++ percentBytes (a :: b :: cs)
  | c :: cs => (String.singleton c).toUTF8.data.toList ++ percentBytes cs
  | [] => []

/-- The text that a part of a URI stands for; bytes that are no UTF-8 become replacement characters. -/
def percentDecode (s : String) : String :=
  String.ofList (decodeUtf8 (percentBytes s.toList))

theorem hexValue?_upperHexDigit : ∀ n < 16, hexValue? (upperHexDigit n) = some n := by
  decide

/-- The UTF-8 form of a character below 128 is its one byte. -/
theorem toUTF8_singleton {b : UInt8} (h : b.toNat < 128) :
    (String.singleton (Char.ofNat b.toNat)).toUTF8.data.toList = [b] := by
  have hvalid : b.toNat.isValidChar := Or.inl (by omega)
  have hcode : (Char.ofNat b.toNat).val.toNat = b.toNat := by
    rw [Char.ofNat, dif_pos hvalid]
    rfl
  have hsize : (Char.ofNat b.toNat).utf8Size = 1 := by
    rw [Char.utf8Size_eq_one_iff, UInt32.le_iff_toNat_le]
    have hlimit : (127 : UInt32).toNat = 127 := rfl
    omega
  rw [String.toUTF8_eq_toByteArray, String.toByteArray_singleton, List.utf8Encode_singleton,
    List.toList_data_toByteArray, String.utf8EncodeChar_eq_singleton hsize]
  congr 1
  apply UInt8.toNat_inj.1
  rw [UInt32.toNat_toUInt8, hcode, Nat.mod_eq_of_lt b.toNat_lt]

/-- Reading undoes the writing of a byte. -/
theorem percentBytes_percentByte (b : UInt8) (cs : List Char) :
    percentBytes (percentByte b ++ cs) = b :: percentBytes cs := by
  unfold percentByte
  split
  · rename_i h
    obtain ⟨hsmall, -⟩ := Bool.and_eq_true_iff.1 h
    have hpercent : Char.ofNat b.toNat ≠ '%' := by
      intro heq
      simp only [isPlainByte, heq, Bool.and_eq_true] at h
      exact absurd h.2 (by decide)
    rw [List.singleton_append, percentBytes, toUTF8_singleton (of_decide_eq_true hsmall), List.singleton_append]
    intro a b' cs' heq
    exact absurd heq hpercent
  · have hhigh := hexValue?_upperHexDigit (b.toNat / 16) (by have := b.toNat_lt; omega)
    have hlow := hexValue?_upperHexDigit (b.toNat % 16) (by omega)
    simp only [List.cons_append, List.nil_append, percentBytes, hhigh, hlow, Nat.div_add_mod]
    rw [UInt8.ofNat_toNat]

theorem percentBytes_percentEncode (s : String) :
    percentBytes (percentEncode s).toList = s.toUTF8.data.toList := by
  rw [percentEncode, String.toList_ofList]
  induction s.toUTF8.data.toList with
  | nil => rfl
  | cons b bs ih => rw [List.flatMap_cons, percentBytes_percentByte, ih]

/-- Different names are different in a URI. -/
theorem percentEncode_injective {s t : String} (h : percentEncode s = percentEncode t) : s = t := by
  have hbytes := percentBytes_percentEncode s
  rw [h, percentBytes_percentEncode] at hbytes
  exact (String.toByteArray_inj.1 (ByteArray.ext (Array.toList_inj.1 hbytes))).symm

end Offside.Text
