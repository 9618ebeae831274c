import DesignTokens.Text.Basic

set_option autoImplicit false

namespace DesignTokens.Commas

/-- Where the scanner stands. Quotes are honoured inside `url(...)` too. -/
structure Mode where
  quote : Option Char
  url : Bool
  escaped : Bool
  afterComma : Bool
  deriving DecidableEq

def Mode.plain : Mode := ⟨none, false, false, false⟩

-- Written text is kept in reverse.
def endsWithUrl : List Char → Bool
  | c :: b :: a :: _ => Text.sameIgnoringCase [a, b, c] ['u', 'r', 'l']
  | _ => false

def step (out : List Char) (mode : Mode) (c : Char) : List Char × Mode :=
  match mode.quote with
  | some quote =>
      if mode.escaped then (c :: out, { mode with escaped := false })
      else if c = '\\' then (c :: out, { mode with escaped := true })
      else if c = quote then (c :: out, { mode with quote := none })
      else (c :: out, mode)
  | none =>
      if mode.afterComma && isBlank c then (out, mode)
      else
        let mode := { mode with afterComma := false }
        if c = '"' || c = '\'' then (c :: out, { mode with quote := some c })
        else if c = '(' && !mode.url && endsWithUrl out then (c :: out, { mode with url := true })
        else if c = ')' && mode.url then (c :: out, { mode with url := false })
        else if c = ',' && !mode.url then
          (' ' :: ',' :: out.dropWhile isBlank, { mode with afterComma := true })
        else (c :: out, mode)

def scan (out : List Char) (mode : Mode) : List Char → List Char
  | [] => out.reverse
  | c :: rest => let (out, mode) := step out mode c; scan out mode rest

def spaced (text : List Char) : List Char := scan [] .plain (Text.trim text)

end DesignTokens.Commas
