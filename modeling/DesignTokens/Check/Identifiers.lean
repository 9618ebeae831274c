import DesignTokens.Compile
import DesignTokens.Text.Basic

set_option autoImplicit false

namespace DesignTokens

def maxIdentifierLength : Nat := 255

def isIdentifier (s : String) : Bool :=
  !s.isEmpty && s.utf8ByteSize ≤ maxIdentifierLength && s.toList.all Text.isNameChar

def requireIdentifier (s : String) : Except Fault Unit :=
  if isIdentifier s then .ok () else .error (.badIdentifier s)

namespace Check

def identifier (field : String) (value : Option String) : Report :=
  match value with
  | some text =>
      if isIdentifier text then []
      else [{
        severity := .error
        code := "dstokens::validate::invalid-identifier"
        message := "Invalid " ++ field ++ " '" ++ text ++ "'"
        help := some identifierHelp }]
  | none => []

def identifiers (settings : Settings) : Report :=
  identifier "prefix" settings.pathPrefix ++ identifier "scope" settings.scope

end Check

end DesignTokens
