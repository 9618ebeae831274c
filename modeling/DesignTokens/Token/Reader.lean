import DesignTokens.Fault
import DesignTokens.Json.Reader
import DesignTokens.Token.Basic
import DesignTokens.Yaml.Value

set_option autoImplicit false

namespace DesignTokens

mutual

def Token.ofJson : Json → Token
  | .null => .scalar (.text "")
  | .bool b => .scalar (.text (toString b))
  | .number n => .scalar (.number n)
  | .string s => .scalar (.text s)
  | .array items => .list (itemsOfJson items)
  | .object members => .group (OrderedMap.ofList (membersOfJson members))

def itemsOfJson : List Json → List Token
  | [] => []
  | item :: rest => Token.ofJson item :: itemsOfJson rest

def membersOfJson : List (String × Json) → List (String × Token)
  | [] => []
  | (key, value) :: rest => (key, Token.ofJson value) :: membersOfJson rest

end

/-- The value is judged first: what follows a value that is no group does not matter. -/
def Group.readJson (text : String) : Except Fault Group :=
  match Json.readFirst? text with
  | none => .error (.parse (.tokens .json false))
  | some (value, rest) =>
      match Token.ofJson value with
      | .group members =>
          if (Json.skipSpace rest).isEmpty then .ok members
          else .error (.parse (.tokens .json false))
      | _ => .error (.parse (.tokens .json true))

open Yaml

def Scalar.ofYaml : Yaml.Value → Scalar
  | .null => .text ""
  | .bool b => .text (toString b)
  | .integer n => .number (.nearest (n < 0) (n.natAbs * unitsPerOne) 1)
  | .number x => .number x
  | .text s => .text s

def keyOfYaml? : Yaml.Value → Option String
  | .integer n => some (toString n)
  | .number x => some x.toText
  | .text s => some s
  | .null | .bool _ => none

def readKey (d : Document) (node : Node) : Follow String := do
  match ← d.follow node with
  | .scalar tag plain text =>
      match (Value.ofScalar? tag plain text).bind keyOfYaml? with
      | some key => return key
      | none => failure
  | _ => failure

-- A tag of the document's own asks for a type that tokens do not have.
def refuseOwn (tag : Option Tag) : Follow Unit :=
  if tag.any Tag.isOwn then failure else return ()

def readScalar (tag : Option Tag) (plain : Bool) (text : String) : Follow Token :=
  match Value.ofScalar? tag plain text with
  | some v => return .scalar (.ofYaml v)
  | none => failure

-- Collections inside each other use up the depth; aliases alone do not.
def readToken (d : Document) : Nat → Node → Follow Token
  | 0, node => do
      match ← d.follow node with
      | .scalar tag plain text => readScalar tag plain text
      | _ => failure
  | depth + 1, node => do
      match ← d.follow node with
      | .scalar tag plain text => readScalar tag plain text
      | .sequence tag items =>
          refuseOwn tag
          return .list (← items.mapM (readToken d depth))
      | .mapping tag entries =>
          refuseOwn tag
          let members ← entries.mapM fun (key, value) => do
            let key ← readKey d key
            return (key, ← readToken d depth value)
          return .group (OrderedMap.ofList members)
      | .link _ => failure

def Group.readYaml (text : String) : Except Fault Group :=
  match Yaml.read text with
  | .document d =>
      match (readToken d Document.maxDepth d.root).run 0 with
      | some (.group members, _) => .ok members
      | some _ => .error (.parse (.tokens .yaml true))
      | none => .error (.parse (.tokens .yaml false))
  | .void | .broken => .error (.parse (.tokens .yaml false))

def Group.read : TokenFormat → String → Except Fault Group
  | .yaml => Group.readYaml
  | .json => Group.readJson

end DesignTokens
