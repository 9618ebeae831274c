import DesignTokens.Number.Writing
import DesignTokens.OrderedMap

set_option autoImplicit false

namespace DesignTokens

inductive Scalar where
  | text (value : String)
  | number (value : Binary64)
  deriving DecidableEq

namespace Scalar

-- Only the empty text is blank, and it compiles to nothing.
def isBlank : Scalar → Bool
  | .text s => s.isEmpty
  | .number _ => false

def toText : Scalar → String
  | .text s => s
  | .number n => n.toText

def finite? : Scalar → Option Binary64
  | .number n => if n.isFinite then some n else none
  | .text _ => none

end Scalar

inductive Token where
  | scalar (value : Scalar)
  | group (members : List (String × Token))
  | list (items : List Token)

abbrev Group := List (String × Token)

namespace Token

def scalar? : Token → Option Scalar
  | .scalar s => some s
  | _ => none

def isScalar (t : Token) : Bool := t.scalar?.isSome

def responsive (media : List (String × Scalar)) (default : Option Scalar) : Token :=
  let members := OrderedMap.ofList (media.map fun (name, value) => (name, Token.scalar value))
  .list (.group members :: (default.map Token.scalar).toList)

mutual

def Distinct : Token → Prop
  | .scalar _ => True
  | .group members => (OrderedMap.keys members).Nodup ∧ DistinctMembers members
  | .list items => DistinctItems items

def DistinctMembers : List (String × Token) → Prop
  | [] => True
  | (_, token) :: rest => token.Distinct ∧ DistinctMembers rest

def DistinctItems : List Token → Prop
  | [] => True
  | token :: rest => token.Distinct ∧ DistinctItems rest

end

end Token

def Group.Distinct (g : Group) : Prop := (Token.group g).Distinct

end DesignTokens
