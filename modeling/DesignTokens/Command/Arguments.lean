import DesignTokens.Command.Build
import DesignTokens.Command.CompileFile
import DesignTokens.Command.Usage
import DesignTokens.Command.Validate

set_option autoImplicit false

namespace DesignTokens

inductive Command where
  | build (arguments : Build.Arguments)
  | compile (arguments : CompileFile.Arguments)
  | validate (arguments : Validate.Arguments)
  deriving DecidableEq

namespace Usage

def readText (text : String) : Except UsageFault String := .ok text

def readPath (text : String) : Except UsageFault Path :=
  if text.isEmpty then .error .emptyPath else .ok text

def readMedia (text : String) : Except UsageFault (String × String) :=
  match Text.splitFirst? '=' text.toList with
  | none => .error .badMedia
  | some (name, query) =>
      let (name, query) := (Text.trim name, Text.trim query)
      if name.isEmpty || query.isEmpty then .error .badMedia
      else .ok (String.ofList name, String.ofList query)

def readFormat (text : String) : Except UsageFault CompileFile.Format :=
  match text with
  | "css" => .ok .css
  | "jss" => .ok .object
  | "refs" => .ok .references
  | _ => .error .unknownFormat

structure Given where
  verbose : Bool
  path : Option Path
  output : Option Path
  strict : Bool
  pathPrefix : Option String
  scope : Option String
  media : List (String × String)
  format : Option CompileFile.Format
  deriving DecidableEq

def Given.nothing : Given := ⟨false, none, none, false, none, none, [], none⟩

def verboseRule : Rule Given :=
  ⟨"verbose", some 'v', .flag (raise Given.verbose fun g => { g with verbose := true })⟩

def versionRule : Rule Given := ⟨"version", some 'V', .flag fun _ => .error .versionAsked⟩

def placePath : String → Change Given :=
  once Given.path (fun g p => { g with path := some p }) readPath

def rulesWith (options : List (Rule Given)) : Rules Given :=
  ⟨verboseRule :: helpRule :: options, placePath⟩

def buildRules : Rules Given := rulesWith [
  ⟨"output", some 'o',
    .value (once Given.output (fun g p => { g with output := some p }) readPath)⟩]

def compileRules : Rules Given := rulesWith [
  ⟨"prefix", none,
    .value (once Given.pathPrefix (fun g t => { g with pathPrefix := some t }) readText)⟩,
  ⟨"scope", none, .value (once Given.scope (fun g t => { g with scope := some t }) readText)⟩,
  ⟨"media", none, .value fun text g => do
    return { g with media := g.media ++ [← readMedia text] }⟩,
  ⟨"format", none, .value (once Given.format (fun g f => { g with format := some f }) readFormat)⟩]

def validateRules : Rules Given := rulesWith [
  ⟨"strict", none, .flag (raise Given.strict fun g => { g with strict := true })⟩]

def read (rules : Rules Given) (arguments : List String) : Except UsageFault Given :=
  readWords rules arguments (.start .nothing)

def commandNames : List String := ["build", "compile", "validate", "help"]

def helpAbout : List String → UsageFault
  | [] => .helpAsked
  | [name] => if commandNames.contains name then .helpAsked else .unknownCommand
  | _ => .unknownCommand

def readCommand (name : String) (arguments : List String) : Except UsageFault Command :=
  match name with
  | "build" => do
      let g ← read buildRules arguments
      return .build ⟨g.path.getD ".", g.output⟩
  | "compile" => do
      let g ← read compileRules arguments
      match g.path with
      | none => throw .missingFile
      | some file => return .compile ⟨file, g.pathPrefix, g.scope, g.media, g.format.getD .css⟩
  | "validate" => do
      let g ← read validateRules arguments
      return .validate ⟨g.path.getD ".", g.strict⟩
  | "help" => throw (helpAbout arguments)
  | _ => throw .unknownCommand

def options : List (Rule Given) := [verboseRule, helpRule, versionRule]

def withoutCommand (r : Reading Given) : UsageFault :=
  if r.values.verbose then .noCommand else .noArguments

def readFrom (r : Reading Given) : List String → Except UsageFault Command
  | [] => throw (withoutCommand r)
  | argument :: rest =>
      match Word.of argument with
      | .plain name => readCommand name rest
      | .long name value => do readFrom (← r.takeLong options name value) rest
      | .short names => do readFrom (← r.takeShort options names) rest
      | .dashes =>
          match rest with
          | [] => throw (withoutCommand r)
          | name :: _ =>
              throw (if commandNames.contains name then .unknownArgument else .unknownCommand)

end Usage

def Command.read (arguments : List String) : Except UsageFault Command :=
  Usage.readFrom (.start .nothing) arguments

end DesignTokens
