import DesignTokens.Css.ValueType
import DesignTokens.Json.Value
import DesignTokens.OrderedMap

set_option autoImplicit false

namespace DesignTokens

abbrev Block := List (String × String)

structure Sheet where
  root : Block
  media : List (String × Block)
  deriving DecidableEq

namespace Sheet

def empty : Sheet := ⟨[], []⟩

def isEmpty (s : Sheet) : Bool := s.root.isEmpty && s.media.isEmpty

def declare (s : Sheet) (name value : String) : Sheet :=
  { s with root := OrderedMap.insert s.root name value }

def mediaKey (query : String) : String := "@media " ++ query

def declareUnder (s : Sheet) (query name value : String) : Sheet :=
  let key := mediaKey query
  let block := (OrderedMap.get? s.media key).getD []
  { s with media := OrderedMap.insert s.media key (OrderedMap.insert block name value) }

end Sheet

abbrev Registrations := List (String × Registration)

namespace Css

def declaration (d : String × String) : String := d.1 ++ ":" ++ d.2 ++ ";"

def rootRule (block : Block) : String :=
  ":root\x7b" ++ String.join (block.map declaration) ++ "\x7d"

def mediaRule (part : String × Block) : String := part.1 ++ "\x7b" ++ rootRule part.2 ++ "\x7d"

def propertyRule (entry : String × Registration) : String :=
  let (name, r) := entry
  "@property " ++ name ++ "\x7bsyntax:\"" ++ r.type.name ++ "\";inherits:" ++ toString r.inherits ++
    ";initial-value:" ++ r.initial ++ ";\x7d"

theorem propertyRule_mk (name : String) (r : Registration) :
    propertyRule (name, r) = "@property " ++ name ++ "\x7bsyntax:\"" ++ r.type.name ++
      "\";inherits:" ++ toString r.inherits ++ ";initial-value:" ++ r.initial ++ ";\x7d" := rfl

def text (registrations : Registrations) (s : Sheet) : String :=
  String.join (registrations.map propertyRule) ++ rootRule s.root ++
    String.join (s.media.map mediaRule)

def blockObject (block : Block) : Json := .object (block.map fun d => (d.1, .string d.2))

def propertyMember (entry : String × Registration) : String × Json :=
  ("@property " ++ entry.1,
    .object [("syntax", .string ("\"" ++ entry.2.type.name ++ "\"")),
      ("inherits", .bool entry.2.inherits), ("initialValue", .string entry.2.initial)])

def mediaMember (part : String × Block) : String × Json :=
  (part.1, .object [(":root", blockObject part.2)])

def sheet (registrations : Registrations) (s : Sheet) : Json :=
  .object (registrations.map propertyMember ++ (":root", blockObject s.root) ::
    s.media.map mediaMember)

def flat (s : Sheet) : Json :=
  .object (s.root.map (fun d => (d.1, .string d.2)) ++
    s.media.map fun part => (part.1, blockObject part.2))

def registrationObject (r : Registration) : Json :=
  .object [("syntax", .string r.type.name), ("inherits", .bool r.inherits),
    ("initialValue", .string r.initial)]

end Css

end DesignTokens
