import DesignTokens.Check.Identifiers
import DesignTokens.Command.Progress

set_option autoImplicit false

namespace DesignTokens.CompileFile

inductive Format where
  | css
  | object
  | references
  deriving DecidableEq

structure Arguments where
  file : Path
  pathPrefix : Option String
  scope : Option String
  media : List (String × String)
  format : Format
  deriving DecidableEq

def settings (a : Arguments) : Except Fault Settings := do
  if let some text := a.pathPrefix then requireIdentifier text
  if let some text := a.scope then requireIdentifier text
  return ⟨a.pathPrefix, a.scope, OrderedMap.ofList a.media⟩

def render (format : Format) (c : Compilation) : String :=
  match format with
  | .css => c.css
  | .object => c.object.indented
  | .references => (Reference.toJson (.group c.references)).indented

variable {m : Type → Type} [Monad m] [Workspace m]

def compiled (a : Arguments) (tokens : Group) : Except Fault Compilation := do
  compile tokens (← settings a)

def run (a : Arguments) : ExceptT Fault m String := do
  Progress.status "Compiling" (← Progress.shown a.file)
  let tokens ← readTokens a.file
  match compiled a tokens with
  | .error fault => throw fault
  | .ok c =>
      Progress.status "Finished" (counted c.nameEntries.length "property" "properties")
      return render a.format c

end DesignTokens.CompileFile
