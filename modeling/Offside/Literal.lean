import Offside.Decimal.Writing
import Offside.Text.Quoted

/-!
# Literal values

The values that a program can write down directly.
-/

set_option autoImplicit false

namespace Offside

/-- A value written in a program. -/
inductive Literal where
  | null
  | boolean (b : Bool)
  | number (x : Float)
  | text (s : String)
  deriving Repr, Inhabited

/-- The form of a literal in a tree. -/
def Literal.tree : Literal → String
  | .null => "null"
  | .boolean true => "true"
  | .boolean false => "false"
  | .number x => Decimal.write Decimal.Style.tree x
  | .text s => Text.quoted s

/-- The form of a literal in a token listing. -/
def Literal.listing : Literal → String
  | .null => "None"
  | .boolean true => "True"
  | .boolean false => "False"
  | .number x => Decimal.write Decimal.Style.listing x
  | .text s => Text.quoted s

end Offside
