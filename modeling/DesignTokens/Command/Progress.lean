import DesignTokens.Project.Basic

set_option autoImplicit false

namespace DesignTokens

def counted (n : Nat) (one many : String) : String :=
  toString n ++ " " ++ if n = 1 then one else many

def verbWidth : Nat := 12

def rightAligned (width : Nat) (text : String) : String :=
  String.ofList (List.replicate (width - text.length) ' ') ++ text

def progressLine (verb message : String) : String := rightAligned verbWidth verb ++ " " ++ message

def findingLines (f : Finding) : List String :=
  f.text :: (f.help.map fun help => "  help: " ++ help).toList

namespace Progress

variable {m : Type → Type} [Monad m] [Workspace m]

def status (verb message : String) : ExceptT Fault m Unit :=
  Workspace.say (m := m) (progressLine verb message)

def findings (r : Report) : ExceptT Fault m Unit :=
  (r.flatMap findingLines).forM fun line => Workspace.say (m := m) line

def shown (p : Path) : ExceptT Fault m String := do
  return Path.shown (← Workspace.directory (m := m)) p

end Progress

end DesignTokens
