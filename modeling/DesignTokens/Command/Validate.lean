import DesignTokens.Check.Themes
import DesignTokens.Command.Progress

set_option autoImplicit false

namespace DesignTokens.Validate

structure Arguments where
  path : Path
  -- Warnings fail the command too.
  strict : Bool
  deriving DecidableEq

def compileFinding (theme : String) (fault : Fault) : Finding where
  severity := .error
  code := fault.code
  message := fault.message
  subject := some theme
  help := fault.help

structure Checked where
  report : Report
  compiled : List Check.NamedTheme

/-- A theme whose checks have no error is compiled for what only shows then. -/
def checkTheme (manifest : Manifest) (t : LoadedTheme) : Checked :=
  let settings := manifest.settings t.theme
  let name := t.theme.name
  let report := Check.theme t.tokens settings
  let shown := report.map fun f => f.within name
  if Report.hasErrors report then ⟨shown, []⟩
  else match compile t.tokens settings with
    | .ok c => ⟨shown, [⟨name, c⟩]⟩
    | .error fault => ⟨shown ++ [compileFinding name fault], []⟩

def checkThemes (manifest : Manifest) (themes : List LoadedTheme) : Report :=
  let checked := themes.map (checkTheme manifest)
  checked.flatMap Checked.report ++ Check.names (checked.flatMap Checked.compiled)

variable {m : Type → Type} [Monad m] [Workspace m]

def check (path : Path) : ExceptT Fault m Report := do
  let project ← Project.locate path
  return checkThemes project.manifest (← project.load)

def summary (r : Report) : String :=
  counted (Report.count .error r) "error" "errors" ++ ", " ++
    counted (Report.count .warning r) "warning" "warnings"

def fails (strict : Bool) (r : Report) : Bool :=
  Report.hasErrors r || (strict && Report.hasWarnings r)

def run (a : Arguments) : ExceptT Fault m Unit := do
  Progress.status "Validating" (← Progress.shown a.path)
  let report ← check a.path
  Progress.findings report
  if fails a.strict report then
    Progress.status "Failed" (summary report)
    throw (.checksFailed (summary report))
  Progress.status "Finished" (summary report)

end DesignTokens.Validate
