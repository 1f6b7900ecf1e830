/-!
# Problems

Everything that can be wrong with a program, as causes.  The wording of each is in `Problem.message`.
-/

set_option autoImplicit false

namespace Offside

/-- Why a program was refused or stopped. -/
inductive Problem where
  -- reading the text
  | unexpectedCharacter (c : Char)
  | unterminatedString
  -- reading statements
  | expected (what : String)
  | mixedIndentation
  | indentationUnit (found : Nat)
  | indentation (width found : Nat)
  | tooMany (limit : Nat) (what : String)
  | assignmentTarget
  -- binding names
  | ownInitializer
  | returnAtTopLevel
  | returnFromInitializer
  | thisOutsideClass
  | superOutsideClass
  | superWithoutSuperclass
  | inheritsFromItself
  -- running
  | undefinedVariable (name : String)
  | undefinedProperty (name : String)
  | superclassNotClass
  | noProperties
  | noFields
  | notCallable
  | argumentCount (arity found : Nat)
  | operandNotNumber
  | operandsNotNumbers
  | cannotAdd (left right : String)
  | unknownOperator (lexeme : String)
  | nativeFailure (name text : String)
  | stackOverflow
  /-- A problem in the words of the host. -/
  | stated (text : String)
  deriving DecidableEq, Repr, Inhabited

/-- The wording of a problem. -/
def Problem.message : Problem → String
  | unexpectedCharacter c =>
    if c = '=' then "Unexpected character '='. For comparison use '==' instead."
    else "Unexpected character '" ++ String.singleton c ++ "'."
  | unterminatedString => "Unterminated string."
  | expected what => "Expect " ++ what ++ "."
  | mixedIndentation => "Inconsistent indentation: mixed tabs and spaces."
  | indentationUnit found =>
    "Invalid indentation unit: use one tab or 1, 2 or 4 spaces, found " ++ toString found ++ "."
  | indentation width found =>
    "Invalid indentation: expected " ++ toString width ++ ", found " ++ toString found ++ "."
  | tooMany limit what => "Can't have more than " ++ toString limit ++ " " ++ what ++ "."
  | assignmentTarget => "Invalid assignment target."
  | ownInitializer => "Cannot read local variable in its own initializer."
  | returnAtTopLevel => "Cannot return from top-level code."
  | returnFromInitializer => "Cannot return a value from an initializer."
  | thisOutsideClass => "Cannot use 'this' outside of a class."
  | superOutsideClass => "Cannot use 'super' outside of a class."
  | superWithoutSuperclass => "Cannot use 'super' in a class with no superclass."
  | inheritsFromItself => "A class cannot inherit from itself."
  | undefinedVariable name => "Undefined variable '" ++ name ++ "'."
  | undefinedProperty name => "Undefined property '" ++ name ++ "'."
  | superclassNotClass => "Superclass must be a class."
  | noProperties => "Only instances have properties."
  | noFields => "Only instances have fields."
  | notCallable => "Can only call functions and classes."
  | argumentCount arity found =>
    "Expected " ++ toString arity ++ " arguments but got " ++ toString found ++ "."
  | operandNotNumber => "Operand must be a number."
  | operandsNotNumbers => "Operands must be numbers."
  | cannotAdd left right => "Can't add " ++ left ++ " to " ++ right ++ "."
  | unknownOperator lexeme => "Unknown operator '" ++ lexeme ++ "'."
  | nativeFailure name text => "Error in native function '" ++ name ++ "': " ++ text
  | stackOverflow => "Stack overflow."
  | stated text => text

end Offside
