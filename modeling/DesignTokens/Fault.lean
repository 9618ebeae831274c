import DesignTokens.Check.Finding
import DesignTokens.Number.Writing

set_option autoImplicit false

namespace DesignTokens

inductive RangeFault where
  | notFinite
  | stepNotPositive
  | stepTooSmall
  | reversed
  | tooManySteps
  | stepLost
  deriving DecidableEq

def RangeFault.reason : RangeFault → String
  | .notFinite => "values must be finite"
  | .stepNotPositive => "step must be positive"
  | .stepTooSmall => "step must be at least 1e-10"
  | .reversed => "from must not exceed to"
  | .tooManySteps => "range expands to more than 10000 keys"
  | .stepLost => "step is too small for the magnitude of from"

inductive FileFault where
  | noManifest
  | manifestNotRead
  | tokensNotRead
  | cssNotWritten
  | jsonNotWritten
  | directoryNotCreated
  deriving DecidableEq

def FileFault.text : FileFault → String
  | .noManifest => "No manifest found"
  | .manifestNotRead => "Failed to read manifest"
  | .tokensNotRead => "Failed to read tokens"
  | .cssNotWritten => "Failed to write CSS"
  | .jsonNotWritten => "Failed to write JSON"
  | .directoryNotCreated => "Failed to create output directory"

inductive TokenFormat where
  | yaml
  | json
  deriving DecidableEq

def TokenFormat.groupNoun : TokenFormat → String
  | .yaml => "a mapping"
  | .json => "an object"

inductive ParseFault where
  | tokens (format : TokenFormat) (notGroup : Bool)
  | tokenFile (path : String) (format : TokenFormat) (notGroup : Bool)
  | unknownFormat (path : String)
  | manifest
  | notVarCall (expression : String)
  deriving DecidableEq

def invalidTree (notGroup : Bool) : String :=
  "Invalid token tree" ++ if notGroup then ": expected a mapping of tokens" else ""

def ParseFault.text : ParseFault → String
  | .tokens _ notGroup => invalidTree notGroup
  | .tokenFile path _ notGroup => path ++ ": " ++ invalidTree notGroup
  | .unknownFormat path => "Unsupported token file: " ++ path
  | .manifest => "Invalid manifest"
  | .notVarCall expression => "Not a var() reference: " ++ expression

def ParseFault.help : ParseFault → String
  | .tokens format _ | .tokenFile _ format _ =>
      "The top level must be " ++ format.groupNoun ++ " of token names"
  | .unknownFormat _ => "Token files must end in .yaml, .yml or .json"
  | .manifest => "Check dstokens.yaml syntax"
  | .notVarCall _ => "Expected var(--name) or var(--name, fallback)"

inductive Fault where
  | file (path : String) (fault : FileFault)
  | parse (fault : ParseFault)
  | notColor (text : String)
  | shadeBase (text : String) (lightness : Binary64)
  | range (first step last : Binary64) (fault : RangeFault)
  | unknownUnit (key : String)
  | noValue (name : String)
  | unknownMedia (name property : String)
  | badIdentifier (text : String)
  | finding (finding : Finding)
  | checksFailed (summary : String)
  deriving DecidableEq

def identifierHelp : String := "Use letters, digits, '_' or '-' (at most 255 characters)"

namespace Fault

def message : Fault → String
  | .file path fault => "IO error with " ++ path ++ ": " ++ fault.text
  | .parse fault => "Parse error: " ++ fault.text
  | .notColor text => "Invalid OKLCH colour: " ++ text
  | .shadeBase text lightness =>
      "Cannot derive shades from " ++ text ++ ": lightness " ++ lightness.toText ++
        "% is outside 1%..=99%"
  | .range first step last fault =>
      "Invalid unit range [" ++ first.toText ++ ", " ++ step.toText ++ ", " ++ last.toText ++
        "]: " ++ fault.reason
  | .unknownUnit key => "Unknown unit type: " ++ key
  | .noValue name => "No value or fallback available for " ++ name
  | .unknownMedia name property => "Unknown media '" ++ name ++ "' referenced by " ++ property
  | .badIdentifier text => "Validation error: Invalid CSS identifier: '" ++ text ++ "'"
  | .finding f => "Validation error: " ++ f.statement
  | .checksFailed summary => "Validation error: Validation failed with " ++ summary

def code : Fault → String
  | .file .. => "dstokens::io"
  | .parse _ => "dstokens::parse"
  | .notColor _ => "dstokens::format"
  | .shadeBase .. => "dstokens::shade_base"
  | .range .. => "dstokens::range"
  | .unknownUnit _ => "dstokens::unknown_unit"
  | .noValue _ => "dstokens::missing_default"
  | .unknownMedia .. => "dstokens::unknown_media"
  | .badIdentifier _ | .finding _ | .checksFailed _ => "dstokens::validate"

def help : Fault → Option String
  | .parse fault => some fault.help
  | .notColor _ => some "Use oklch(<L>[%] <C> <H>), e.g. oklch(62.8% 0.2577 29.23)"
  | .shadeBase .. =>
      some "Palette base colours need room for lighter and darker shades on both sides"
  | .unknownUnit _ =>
      some "Supported units: rem, em, px, percentage, vh, vw, vmin, vmax, ch, ex"
  | .unknownMedia .. => some "Declare the media name in the media registry before using it"
  | .badIdentifier _ => some identifierHelp
  | .finding f => f.help
  | .file .. | .range .. | .noValue _ | .checksFailed _ => none

end Fault

end DesignTokens
