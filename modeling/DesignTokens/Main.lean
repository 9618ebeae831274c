import DesignTokens.Command.Arguments

set_option autoImplicit false

namespace DesignTokens

def succeeds {α : Type} (action : IO α) : IO Bool :=
  try
    discard action
    return true
  catch _ => return false

instance : Workspace IO where
  directory := return (← IO.currentDir).toString
  isFile p := succeeds (IO.FS.readBinFile p)
  isThere p := succeeds (IO.FS.realPath p)
  read p := do
    try return some (← IO.FS.readFile p)
    catch _ => return none
  makeDirectories p := succeeds (IO.FS.createDirAll p)
  write p text := succeeds (IO.FS.writeFile p text)
  say line := IO.eprintln line

def Command.run : Command → ExceptT Fault IO Unit
  | .build a => discard (Build.run a)
  | .compile a => do IO.println (← CompileFile.run a)
  | .validate a => Validate.run a

def usage : String := "Usage: dstokens [--verbose] build [PATH] [--output DIR]
       dstokens [--verbose] compile FILE [--prefix P] [--scope S] [--media NAME=QUERY]...
                [--format css|jss|refs]
       dstokens [--verbose] validate [PATH] [--strict]"

def UsageFault.text : UsageFault → String
  | .noArguments | .helpAsked => usage
  | .versionAsked => "dstokens 0.4.1"
  | .noCommand => "error: a command is required"
  | .unknownCommand => "error: unknown command"
  | .unknownArgument => "error: unexpected argument"
  | .repeated => "error: an option is given twice"
  | .flagWithValue => "error: a flag takes no value"
  | .missingValue => "error: an option lacks its value"
  | .emptyPath => "error: a path must not be empty"
  | .unknownFormat => "error: the format is css, jss or refs"
  | .badMedia => "error: expected NAME=QUERY"
  | .missingFile => "error: a token file is required"

end DesignTokens

open DesignTokens

def main (arguments : List String) : IO UInt32 := do
  match Command.read arguments with
  | .error fault =>
      if fault = .helpAsked || fault = .versionAsked then
        IO.println fault.text
        return 0
      IO.eprintln fault.text
      return 2
  | .ok command =>
      match ← (Command.run command).run with
      | .ok _ => return 0
      | .error fault =>
          IO.eprintln ("Error: " ++ fault.code ++ ": " ++ fault.message)
          if let some help := fault.help then IO.eprintln ("  help: " ++ help)
          return 1
