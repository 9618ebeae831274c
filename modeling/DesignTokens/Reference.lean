import DesignTokens.Css.Sheet
import DesignTokens.Css.VarCall
import DesignTokens.Fault
import DesignTokens.Json.Value

set_option autoImplicit false

namespace DesignTokens

inductive Reference where
  | use (expression : String)
  | group (members : List (String × Reference))

abbrev References := List (String × Reference)

namespace Reference

mutual

def toJson : Reference → Json
  | .use expression => .string expression
  | .group members => .object (membersToJson members)

def membersToJson : List (String × Reference) → List (String × Json)
  | [] => []
  | (key, reference) :: rest => (key, toJson reference) :: membersToJson rest

end

def down? (key : String) : Reference → Option Reference
  | .use _ => none
  | .group members => OrderedMap.get? members key

def at? : List String → Reference → Option Reference
  | [], r => some r
  | key :: path, r => (r.down? key).bind (at? path)

def dotted? (references : References) (path : String) : Option Reference :=
  at? ((Text.splitAll '.' path.toList).map String.ofList) (.group references)

def resolve (s : Sheet) (expression : String) : Except Fault String :=
  match VarCall.read? expression with
  | none => .error (.parse (.notVarCall expression))
  | some call =>
      match OrderedMap.get? s.root call.name, call.fallback with
      | some value, _ => .ok value
      | none, some fallback => .ok fallback
      | none, none => .error (.noValue call.name)

end Reference

end DesignTokens
