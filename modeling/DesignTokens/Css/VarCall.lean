import DesignTokens.Css.Commas
import DesignTokens.Text.Cut

set_option autoImplicit false

namespace DesignTokens

structure VarCall where
  name : String
  fallback : Option String
  deriving DecidableEq

namespace VarCall

def body (text : List Char) : VarCall :=
  match Text.splitFirst? ',' text with
  | some (name, fallback) =>
      ⟨String.ofList (Text.trim name), some (String.ofList (Text.trim fallback))⟩
  | none => ⟨String.ofList (Text.trim text), none⟩

def read? (text : String) : Option VarCall := do
  let inner ← Text.after? "var(".toList (Text.trim text.toList)
  let call := body (← Text.before? [')'] inner)
  if "--".toList.isPrefixOf call.name.toList then some call else none

def write (call : VarCall) : String :=
  match call.fallback with
  | some fallback =>
      "var(" ++ call.name ++ ", " ++ String.ofList (Commas.spaced fallback.toList) ++ ")"
  | none => "var(" ++ call.name ++ ")"

end VarCall

end DesignTokens
