import DesignTokens.Text.Basic

set_option autoImplicit false

namespace DesignTokens.Yaml

def isBreak (c : Char) : Bool :=
  c == '\n' || c == '\r' || c == '\u0085' || c == '\u2028' || c == '\u2029'

def isGap (c : Char) : Bool := c == ' ' || c == '\t'

def isWordChar : Char → Bool := Text.isNameChar

def isAllowed (c : Char) : Bool :=
  let n := c.toNat
  n == 0x09 || n == 0x0a || n == 0x0d || (0x20 ≤ n && n ≤ 0x7e) || n == 0x85 ||
    (0xa0 ≤ n && n ≤ 0xd7ff) || (0xe000 ≤ n && n ≤ 0xfffd) || 0x10000 ≤ n

structure Cursor where
  rest : List Char
  index : Nat
  line : Nat
  column : Nat

namespace Cursor

def start (text : List Char) : Cursor := ⟨text, 0, 0, 0⟩

def next? (c : Cursor) : Option Char := c.rest.head?

def nextIs (c : Cursor) (wanted : Char) : Bool := c.next? == some wanted

def skip (c : Cursor) (n : Nat) : Cursor :=
  ⟨c.rest.drop n, c.index + n, c.line, c.column + n⟩

def skipWhile (p : Char → Bool) (c : Cursor) : Cursor := c.skip (c.rest.takeWhile p).length

def skipBreak (c : Cursor) : Cursor :=
  match c.rest with
  | '\r' :: '\n' :: rest => ⟨rest, c.index + 2, c.line + 1, 0⟩
  | b :: rest => if isBreak b then ⟨rest, c.index + 1, c.line + 1, 0⟩ else c
  | [] => c

def breakText (c : Cursor) : List Char :=
  match c.next? with
  | some b => if b == '\u2028' || b == '\u2029' then [b] else if isBreak b then ['\n'] else []
  | none => []

def endsWord : List Char → Bool
  | [] => true
  | c :: _ => isGap c || isBreak c

def atWordEnd (c : Cursor) : Bool := endsWord c.rest

def atGap (c : Cursor) : Bool := c.next?.any isGap

def atBreak (c : Cursor) : Bool := c.next?.any isBreak

def atLineEnd (c : Cursor) : Bool := c.rest.isEmpty || c.atBreak

def atMarker (c : Cursor) (mark : Char) : Bool :=
  match c.rest with
  | x :: y :: z :: rest =>
      c.column == 0 && x == mark && y == mark && z == mark && endsWord rest
  | _ => false

def atDocumentMarker (c : Cursor) : Bool := c.atMarker '-' || c.atMarker '.'

end Cursor

end DesignTokens.Yaml
