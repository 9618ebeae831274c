import DesignTokens.Text.Basic
import DesignTokens.Yaml.Gap

set_option autoImplicit false

namespace DesignTokens.Yaml.Quoted

def escape? : Char → Option Char
  | '0' => some '\x00'
  | 'a' => some '\x07'
  | 'b' => some '\x08'
  | 't' | '\t' => some '\t'
  | 'n' => some '\n'
  | 'v' => some '\x0b'
  | 'f' => some '\x0c'
  | 'r' => some '\r'
  | 'e' => some '\x1b'
  | ' ' => some ' '
  | '"' => some '"'
  | '/' => some '/'
  | '\\' => some '\\'
  | 'N' => some '\u0085'
  | '_' => some '\u00a0'
  | 'L' => some '\u2028'
  | 'P' => some '\u2029'
  | _ => none

def escapeLength : Char → Nat
  | 'x' => 2
  | 'u' => 4
  | 'U' => 8
  | _ => 0

def escaped? (c : Cursor) : Option (Char × Cursor) := do
  let letter ← c.next?
  match escape? letter with
  | some char => some (char, c.skip 1)
  | none =>
      let size := escapeLength letter
      let digits := (c.rest.drop 1).take size
      if size = 0 || digits.length < size || !digits.all Text.isHexDigit then none
      else
        let code := digits.foldl (fun n d => 16 * n + Text.hexValue d) 0
        if (0xd800 ≤ code && code ≤ 0xdfff) || 0x10ffff < code then none
        else some (Char.ofNat code, c.skip (1 + size))

def run? (quote : Char) : Nat → List Char → Cursor → Option (List Char × Gap × Cursor)
  | 0, out, c => some (out, .none, c)
  | fuel + 1, out, c =>
      match c.rest with
      | [] => some (out, .none, c)
      | x :: rest =>
          if isGap x || isBreak x then some (out, .none, c)
          else if quote == '\'' && x == quote && rest.head? == some quote then
            run? quote fuel (quote :: out) (c.skip 2)
          else if x == quote then some (out, .none, c)
          else if quote == '"' && x == '\\' then
            if (c.skip 1).atBreak then some (out, .continued, (c.skip 1).skipBreak)
            else do
              let (char, c) ← escaped? (c.skip 1)
              run? quote fuel (char :: out) c
          else run? quote fuel (x :: out) (c.skip 1)

def body? (quote : Char) : Nat → List Char → Cursor → Option (List Char × Cursor)
  | 0, _, _ => none
  | fuel + 1, out, c => do
      if c.atDocumentMarker || c.rest.isEmpty then none
      else
        let (out, gap, c) ← run? quote fuel out c
        if c.nextIs quote then some (out.reverse, c.skip 1)
        else
          let (gap, c) ← Gap.read? 0 fuel gap c
          body? quote fuel (gap.text.reverse ++ out) c

def read? (quote : Char) (c : Cursor) : Option (String × Cursor) := do
  let (text, c) ← body? quote (c.rest.length + 1) [] (c.skip 1)
  return (String.ofList text, c)

end DesignTokens.Yaml.Quoted
