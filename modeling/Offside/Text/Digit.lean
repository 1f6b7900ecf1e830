/-!
# Decimal digits

A decimal digit is a character that some script uses to write the numbers zero to nine in positional
notation.  Every such script occupies ten consecutive code points, so the property is given by the code
point of each script's zero.

* `digitValue?` — the number a digit stands for;
* `digitValue?_lt` — that number is below ten.
-/

set_option autoImplicit false

namespace Offside.Text

/-- Code points of the digit zero of each script, in increasing order. -/
def zeros : List Nat :=
  [0x30, 0x660, 0x6f0, 0x7c0, 0x966, 0x9e6, 0xa66, 0xae6, 0xb66, 0xbe6, 0xc66, 0xce6, 0xd66, 0xde6,
   0xe50, 0xed0, 0xf20, 0x1040, 0x1090, 0x17e0, 0x1810, 0x1946, 0x19d0, 0x1a80, 0x1a90, 0x1b50, 0x1bb0,
   0x1c40, 0x1c50, 0xa620, 0xa8d0, 0xa900, 0xa9d0, 0xa9f0, 0xaa50, 0xabf0, 0xff10, 0x104a0, 0x10d30,
   0x11066, 0x110f0, 0x11136, 0x111d0, 0x112f0, 0x11450, 0x114d0, 0x11650, 0x116c0, 0x11730, 0x118e0,
   0x11950, 0x11c50, 0x11d50, 0x11da0, 0x16a60, 0x16ac0, 0x16b50, 0x1d7ce, 0x1d7d8, 0x1d7e2, 0x1d7ec,
   0x1d7f6, 0x1e140, 0x1e2f0, 0x1e950, 0x1fbf0]

/-- Offset of `n` in the run of ten code points that begins at `start`. -/
def offsetFrom (n start : Nat) : Option Nat :=
  if start ≤ n ∧ n < start + 10 then some (n - start) else none

/-- The number a decimal digit stands for; `none` for every other character. -/
def digitValue? (c : Char) : Option Nat :=
  zeros.findSome? (offsetFrom c.toNat)

/-- Membership in the class of decimal digits. -/
def isDigit (c : Char) : Bool :=
  (digitValue? c).isSome

theorem digitValue?_lt {c : Char} {d : Nat} (h : digitValue? c = some d) : d < 10 := by
  obtain ⟨_, _, hz⟩ := List.exists_of_findSome?_eq_some h
  unfold offsetFrom at hz
  split at hz <;> simp_all
  omega

end Offside.Text
