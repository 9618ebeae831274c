import DesignTokens.Project.Manifest
import DesignTokens.Project.Path
import DesignTokens.Token.Reader

set_option autoImplicit false

namespace DesignTokens

def manifestName : String := "dstokens.yaml"

structure Project where
  root : Path
  manifest : Manifest

structure LoadedTheme where
  theme : Theme
  tokens : Group

variable {m : Type → Type} [Monad m] [Workspace m]

def readTokens (p : Path) : ExceptT Fault m Group := do
  match TokenFormat.ofPath? p with
  | none => throw (.parse (.unknownFormat p))
  | some format =>
      match ← Workspace.read (m := m) p with
      | none => throw (.file p .tokensNotRead)
      | some text =>
          match Group.read format text with
          | .ok tokens => return tokens
          | .error (.parse (.tokens format notGroup)) =>
              throw (.parse (.tokenFile p format notGroup))
          | .error fault => throw fault

namespace Project

def outputDirectory (project : Project) : Path := Path.join project.root project.manifest.output

def sourcePath (project : Project) (theme : Theme) : Path := Path.join project.root theme.source

def locate (p : Path) : ExceptT Fault m Project := do
  let (root, manifest) := if ← Workspace.isFile (m := m) p then ((Path.parent? p).getD ".", p)
    else (p, Path.join p manifestName)
  if !(← Workspace.isThere (m := m) manifest) then throw (.file manifest .noManifest)
  match ← Workspace.read (m := m) manifest with
  | none => throw (.file manifest .manifestNotRead)
  | some text =>
      match Manifest.read text with
      | .ok m => return ⟨root, m⟩
      | .error fault => throw fault

/-- All themes are read before any is compiled; the first that cannot be read is the fault. -/
def loadThemes (project : Project) : List Theme → ExceptT Fault m (List LoadedTheme)
  | [] => return []
  | theme :: rest => do
      let tokens ← readTokens (project.sourcePath theme)
      return ⟨theme, tokens⟩ :: (← project.loadThemes rest)

def load (project : Project) : ExceptT Fault m (List LoadedTheme) :=
  project.loadThemes project.manifest.themes

end Project

end DesignTokens
