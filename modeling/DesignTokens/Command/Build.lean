import DesignTokens.Check.Themes
import DesignTokens.Command.Progress

set_option autoImplicit false

namespace DesignTokens.Build

structure Arguments where
  path : Path
  output : Option Path
  deriving DecidableEq

variable {m : Type → Type} [Monad m] [Workspace m]

inductive FileKind where
  | css
  | object
  | references
  | names
  deriving DecidableEq

structure OutputFile where
  kind : FileKind
  path : Path
  text : String

def files (name : String) (c : Compilation) (output : Path) : List OutputFile :=
  let file (kind : FileKind) (ending text : String) : OutputFile :=
    ⟨kind, Path.join output (name ++ ending), text⟩
  [file .css ".css" c.css, file .object ".jss.json" c.object.indented,
    file .references ".refs.json" (Reference.toJson (.group c.references)).indented,
    file .names ".map.json"
      (Json.object (c.nameEntries.map fun e => (e.1, .string e.2))).indented]

def writeFault : FileKind → FileFault
  | .css => .cssNotWritten
  | _ => .jsonNotWritten

def writeFile (f : OutputFile) : ExceptT Fault m Path := do
  if ← Workspace.write (m := m) f.path f.text then return f.path
  else throw (.file f.path (writeFault f.kind))

/-- Checks come first; their findings are shown under the theme's name even where they fail it. -/
def checked (manifest : Manifest) (t : LoadedTheme) : ExceptT Fault m Compilation := do
  let settings := manifest.settings t.theme
  let report := Check.theme t.tokens settings
  Progress.findings (report.map fun f => f.within t.theme.name)
  match Check.accept report with
  | .error fault => throw fault
  | .ok _ =>
      match compile t.tokens settings with
      | .error fault => throw fault
      | .ok c => return c

structure Built where
  themes : List Check.NamedTheme
  written : List Path

def buildThemes (manifest : Manifest) (output : Path) :
    List LoadedTheme → ExceptT Fault m Built
  | [] => return ⟨[], []⟩
  | t :: rest => do
      let name := t.theme.name
      Progress.status "Compiling" (name ++ " (" ++ (← Progress.shown t.theme.source) ++ ")")
      let c ← checked manifest t
      let written ← (files name c output).mapM writeFile
      let others ← buildThemes manifest output rest
      return ⟨⟨name, c⟩ :: others.themes, written ++ others.written⟩

def run (arguments : Arguments) : ExceptT Fault m (List Path) := do
  let project ← Project.locate arguments.path
  let output := arguments.output.getD project.outputDirectory
  if project.manifest.themes.isEmpty then
    Progress.status "Warning" "manifest lists no themes"
    return []
  if !(← Workspace.isThere (m := m) output) then
    if !(← Workspace.makeDirectories (m := m) output) then
      throw (.file output .directoryNotCreated)
  let built ← buildThemes project.manifest output (← project.load)
  Progress.findings (Check.names built.themes)
  Progress.status "Finished"
    (counted built.themes.length "theme" "themes" ++ " to " ++ (← Progress.shown output))
  return built.written

end DesignTokens.Build
