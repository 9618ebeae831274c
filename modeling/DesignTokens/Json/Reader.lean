import DesignTokens.Json.Numeral
import DesignTokens.Json.Value
import DesignTokens.Text.Basic
import DesignTokens.Text.Cut

set_option autoImplicit false

namespace DesignTokens.Json

def isSpace (c : Char) : Bool := c == ' ' || c == '\n' || c == '\t' || c == '\r'

def skipSpace (text : List Char) : List Char := text.dropWhile isSpace

def maxDepth : Nat := 127

def unit? : List Char → Option (Nat × List Char)
  | a :: b :: c :: d :: rest =>
      if [a, b, c, d].all Text.isHexDigit then
        some ([a, b, c, d].foldl (fun n c => 16 * n + Text.hexValue c) 0, rest)
      else none
  | _ => none

def isHighSurrogate (n : Nat) : Bool := 0xd800 ≤ n && n ≤ 0xdbff

def isLowSurrogate (n : Nat) : Bool := 0xdc00 ≤ n && n ≤ 0xdfff

def unicodeEscape? (text : List Char) : Option (Char × List Char) := do
  let (high, rest) ← unit? text
  if isLowSurrogate high then none
  else if isHighSurrogate high then
    let (low, rest) ← unit? (← Text.after? ['\\', 'u'] rest)
    if isLowSurrogate low then
      some (Char.ofNat (0x10000 + (high - 0xd800) * 0x400 + (low - 0xdc00)), rest)
    else none
  else some (Char.ofNat high, rest)

def simpleEscape? : Char → Option Char
  | '"' => some '"'
  | '\\' => some '\\'
  | '/' => some '/'
  | 'b' => some '\x08'
  | 'f' => some '\x0c'
  | 'n' => some '\n'
  | 'r' => some '\r'
  | 't' => some '\t'
  | _ => none

def stringBody? : Nat → List Char → Option (List Char × List Char)
  | 0, _ | _, [] => none
  | fuel + 1, c :: rest =>
      match c, rest with
      | '"', rest => some ([], rest)
      | '\\', 'u' :: rest => do
          let (c, rest) ← unicodeEscape? rest
          let (cs, rest) ← stringBody? fuel rest
          return (c :: cs, rest)
      | '\\', e :: rest => do
          let c ← simpleEscape? e
          let (cs, rest) ← stringBody? fuel rest
          return (c :: cs, rest)
      | '\\', [] => none
      | c, rest =>
          if c.toNat < 0x20 then none
          else do
            let (cs, rest) ← stringBody? fuel rest
            return (c :: cs, rest)

def string? (fuel : Nat) (text : List Char) : Option (String × List Char) := do
  let (cs, rest) ← stringBody? fuel text
  return (String.ofList cs, rest)

mutual

def value? : Nat → Nat → List Char → Option (Json × List Char)
  | 0, _, _ => none
  | fuel + 1, depth, text =>
      match skipSpace text with
      | '"' :: rest => (string? fuel rest).map fun (s, rest) => (.string s, rest)
      | 't' :: 'r' :: 'u' :: 'e' :: rest => some (.bool true, rest)
      | 'f' :: 'a' :: 'l' :: 's' :: 'e' :: rest => some (.bool false, rest)
      | 'n' :: 'u' :: 'l' :: 'l' :: rest => some (.null, rest)
      | '[' :: rest =>
          if depth = 0 then none
          else match skipSpace rest with
            | ']' :: rest => some (.array [], rest)
            | rest => (items? fuel (depth - 1) rest).map fun (xs, rest) => (.array xs, rest)
      | '\x7b' :: rest =>
          if depth = 0 then none
          else match skipSpace rest with
            | '\x7d' :: rest => some (.object [], rest)
            | rest => (members? fuel (depth - 1) rest).map fun (ms, rest) => (.object ms, rest)
      | rest => do
          let (n, rest) ← Numeral.read? rest
          return (.number (← n.value?), rest)

def items? : Nat → Nat → List Char → Option (List Json × List Char)
  | 0, _, _ => none
  | fuel + 1, depth, text => do
      let (item, rest) ← value? fuel depth text
      match skipSpace rest with
      | ']' :: rest => return ([item], rest)
      | ',' :: rest =>
          let (more, rest) ← items? fuel depth rest
          return (item :: more, rest)
      | _ => none

def members? : Nat → Nat → List Char → Option (List (String × Json) × List Char)
  | 0, _, _ => none
  | fuel + 1, depth, text => do
      let (key, rest) ← string? fuel (← Text.after? ['"'] (skipSpace text))
      let (value, rest) ← value? fuel depth (← Text.after? [':'] (skipSpace rest))
      match skipSpace rest with
      | '\x7d' :: rest => return ((key, value) :: [], rest)
      | ',' :: rest =>
          let (more, rest) ← members? fuel depth rest
          return ((key, value) :: more, rest)
      | _ => none

end

/-- The value a text begins with. No character costs more than two nested calls. -/
def readFirst? (text : String) : Option (Json × List Char) :=
  let chars := text.toList
  value? (2 * chars.length + 2) maxDepth chars

def read? (text : String) : Option Json := do
  let (value, rest) ← readFirst? text
  if (skipSpace rest).isEmpty then some value else none

end DesignTokens.Json
