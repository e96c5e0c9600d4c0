import Jaf.Span
import Jaf.Types

/-!
# Why analysis rejects a program

An error is a place and a cause. The wording of every cause is in `SemanticCause.message`.
-/

namespace Jaf

/-- Why a program is rejected. -/
inductive SemanticCause where
  | anonymousStruct
  | structRedefined (name : String)
  | nameRedefined (name : String)
  | unknownType (name : String)
  | unsupportedType (kind : TypeKind)
  | unnamedParameter
  | nestedFunction
  | notConstant
  | mismatch (expected found : ValueType)
  | unknownVariable (name : String)
  | unknownFunction (name : String)
  | badOperand (op : String) (type : ValueType)
  | notAssignable
  | argumentCount (name : String) (expected found : Nat)
  | notAStruct (type : ValueType)
  | noMember (struct field : String)
  | outsideFunction
  | unknownSlot (slot : Nat)
deriving DecidableEq, Repr

/-- The wording of a cause. -/
def SemanticCause.message : SemanticCause → String
  | anonymousStruct => "anonymous structs not supported"
  | structRedefined name => "redefinition of struct '" ++ name ++ "'"
  | nameRedefined name => "redefinition of '" ++ name ++ "'"
  | unknownType name => "failed to resolve typedef '" ++ name ++ "'"
  | unsupportedType kind => kind.text ++ " types not supported"
  | unnamedParameter => "function parameters must be named"
  | nestedFunction => "nested functions not supported"
  | notConstant => "initval is not constant"
  | mismatch expected found =>
    "type mismatch: expected " ++ expected.text ++ ", found " ++ found.text
  | unknownVariable name => "undefined identifier '" ++ name ++ "'"
  | unknownFunction name => "undefined function '" ++ name ++ "'"
  | badOperand op type => "invalid operand of type " ++ type.text ++ " for operator '" ++ op ++ "'"
  | notAssignable => "expression is not assignable"
  | argumentCount name expected found =>
    "'" ++ name ++ "' takes " ++ toString expected ++ " arguments but " ++ toString found
      ++ " were given"
  | notAStruct type => "member access on non-struct type " ++ type.text
  | noMember struct field => "no member named '" ++ field ++ "' in struct '" ++ struct ++ "'"
  | outsideFunction => "local declaration outside of a function"
  | unknownSlot slot =>
    "variable slot " ++ toString slot ++ " does not exist in the enclosing function"

/-- Whether a cause is about the types of operands rather than about names and declarations. -/
def SemanticCause.isTypeError : SemanticCause → Bool
  | mismatch _ _ | badOperand _ _ | notAStruct _ => true
  | _ => false

/-- Why a program is rejected, and where. -/
structure SemanticError where
  span : Span
  cause : SemanticCause
deriving DecidableEq, Repr

end Jaf
