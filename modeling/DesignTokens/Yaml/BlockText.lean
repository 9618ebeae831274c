import DesignTokens.Yaml.Cursor

set_option autoImplicit false

namespace DesignTokens.Yaml.BlockText

inductive Chomping where
  | strip
  | clip
  | keep
  deriving DecidableEq

structure Header where
  chomping : Chomping
  -- Zero where the text itself shows the indentation.
  increment : Nat

def chomping? (c : Cursor) : Option Chomping :=
  match c.next? with
  | some '+' => some .keep
  | some '-' => some .strip
  | _ => none

def increment? (c : Cursor) : Option (Nat × Cursor) :=
  match c.next? with
  | some d =>
      if d.isDigit then
        if d == '0' then none else some (d.toNat - '0'.toNat, c.skip 1)
      else some (0, c)
  | none => some (0, c)

def header? (c : Cursor) : Option (Header × Cursor) := do
  let (header, c) ← match chomping? c with
    | some chomping =>
        let (increment, c) ← increment? (c.skip 1)
        some (Header.mk chomping increment, c)
    | none =>
        let (increment, c) ← increment? c
        match increment, chomping? c with
        | 0, _ | _, none => some (Header.mk .clip increment, c)
        | _, some chomping => some (Header.mk chomping increment, c.skip 1)
  let c := c.skipWhile isGap
  let c := if c.nextIs '#' then c.skipWhile fun x => !isBreak x else c
  if c.atLineEnd then some (header, c.skipBreak) else none

structure Lead where
  indent : Nat
  breaks : List Char
  cursor : Cursor

def lead? (indent : Nat) (parent : Int) : Nat → Nat → List Char → Cursor → Option Lead
  | 0, _, _, _ => none
  | fuel + 1, widest, breaks, c =>
      let room := if indent = 0 then c.rest.length else indent - c.column
      let c := c.skip ((c.rest.take room).takeWhile (· == ' ')).length
      let widest := max widest c.column
      if (indent = 0 || c.column < indent) && c.nextIs '\t' then none
      else if c.atBreak then lead? indent parent fuel widest (breaks ++ c.breakText) c.skipBreak
      else
        let found := if indent = 0 then max 1 (max widest (parent + 1).toNat) else indent
        some ⟨found, breaks, c⟩

def lines? (folded : Bool) (parent : Int) (chomping : Chomping) :
    Nat → List Char → List Char → Bool → Lead → Option (List Char × Cursor)
  | 0, _, _, _, _ => none
  | fuel + 1, out, before, afterBlank, lead =>
      let c := lead.cursor
      if c.column = lead.indent && !c.rest.isEmpty then do
        let blank := c.atGap
        let folds := folded && before == ['\n'] && !afterBlank && !blank
        let joint := if folds then if lead.breaks.isEmpty then [' '] else lead.breaks
          else before ++ lead.breaks
        let line := c.rest.takeWhile fun x => !isBreak x
        let c := c.skip line.length
        let before := c.breakText
        let lead ← lead? lead.indent parent fuel 0 [] c.skipBreak
        lines? folded parent chomping fuel (out ++ joint ++ line) before blank lead
      else
        let tail := match chomping with
          | .strip => []
          | .clip => before
          | .keep => before ++ lead.breaks
        some (out ++ tail, c)

def read? (folded : Bool) (parent : Int) (c : Cursor) : Option (String × Cursor) := do
  let fuel := c.rest.length + 2
  let (header, c) ← header? (c.skip 1)
  let indent := if header.increment = 0 then 0 else (max parent 0).toNat + header.increment
  let lead ← lead? indent parent fuel 0 [] c
  let (text, c) ← lines? folded parent header.chomping fuel [] [] false lead
  return (String.ofList text, c)

end DesignTokens.Yaml.BlockText
