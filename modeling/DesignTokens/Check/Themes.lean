import DesignTokens.Check.Identifiers
import DesignTokens.Check.Media
import DesignTokens.Check.Paths

set_option autoImplicit false

namespace DesignTokens.Check

def theme (tokens : Group) (settings : Settings) : Report :=
  identifiers settings ++ media tokens settings ++ paths tokens

def accept (report : Report) : Except Fault Report :=
  match Report.firstError? report with
  | some finding => .error (.finding finding)
  | none => .ok report

structure NamedTheme where
  name : String
  compilation : Compilation

def clashes (first second : Compilation) : List String :=
  (first.nameEntries.filter fun (short, authored) =>
    match OrderedMap.get? second.nameEntries short with
    | some other => other != authored
    | none => false).map Prod.fst

def sharedNames (first second : String) (count : Nat) (sample : String) : Finding where
  severity := .warning
  code := "dstokens::validate::name-collision"
  message := "Themes '" ++ first ++ "' and '" ++ second ++ "' share " ++ toString count ++
    " minified name(s) for different properties (first: " ++ sample ++ ")"
  help := some "Give each theme a distinct \x60scope\x60 before concatenating their CSS"

def pair (first second : NamedTheme) : Report :=
  match clashes first.compilation second.compilation with
  | [] => []
  | short :: more => [sharedNames first.name second.name (more.length + 1) short]

def names : List NamedTheme → Report
  | [] => []
  | first :: rest => rest.flatMap (pair first) ++ names rest

end DesignTokens.Check
