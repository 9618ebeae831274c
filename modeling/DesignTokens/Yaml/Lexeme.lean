import DesignTokens.Yaml.BlockText
import DesignTokens.Yaml.Plain
import DesignTokens.Yaml.Quoted
import DesignTokens.Yaml.Tag

/-!
Lexemes of YAML text. Indentation becomes pairs of start and end lexemes. Whether a node is a key
shows only at the colon after it: the key's own lexemes are then put in front of the node.
-/

set_option autoImplicit false

namespace DesignTokens.Yaml

inductive Lexeme where
  | directive (directive : Directive)
  | documentStart
  | documentEnd
  | blockSequence
  | blockMapping
  | blockEnd
  | flowSequence
  | flowSequenceEnd
  | flowMapping
  | flowMappingEnd
  | item
  | comma
  | key
  | value
  | link (name : String)
  | anchor (name : String)
  | tag (tag : TagText)
  | scalar (plain : Bool) (text : String)
  | streamEnd
  deriving DecidableEq

/-- A node that a colon on the same line may still turn into a key. -/
structure Candidate where
  number : Nat
  index : Nat
  line : Nat
  column : Nat
  -- At the start of a mapping's line nothing but a key is allowed.
  required : Bool

structure Scan where
  cursor : Cursor
  lexemes : List Lexeme
  count : Nat
  -- Lexemes put in front of those with a number, the latest first.
  inserted : List (Nat × Lexeme)
  indent : Int
  indents : List Int
  -- One place for each open flow collection, the innermost first, and one for the block around.
  candidates : List (Option Candidate)
  keyAllowed : Bool
  done : Bool

namespace Scan

def start (text : List Char) : Scan := ⟨.start text, [], 0, [], -1, [], [none], true, false⟩

def inFlow (s : Scan) : Bool := 1 < s.candidates.length

def column (s : Scan) : Int := s.cursor.column

def emit (s : Scan) (l : Lexeme) : Scan :=
  { s with lexemes := l :: s.lexemes, count := s.count + 1 }

def emitMark (s : Scan) (l : Lexeme) (size : Nat) : Scan :=
  { s.emit l with cursor := s.cursor.skip size }

def allowKey (s : Scan) (allowed : Bool) : Scan := { s with keyAllowed := allowed }

def isStale (c : Cursor) (k : Candidate) : Bool := k.line < c.line || k.index + 1024 < c.index

def dropStale? (s : Scan) : Option Scan :=
  if s.candidates.any fun k => k.any fun k => isStale s.cursor k && k.required then none
  else some { s with candidates := s.candidates.map fun k => k.filter fun k => !isStale s.cursor k }

def setCandidate (s : Scan) (k : Option Candidate) : Scan :=
  { s with candidates := k :: s.candidates.drop 1 }

def candidate? (s : Scan) : Option Candidate := s.candidates.head?.join

def clearCandidate? (s : Scan) : Option Scan :=
  if s.candidate?.any (·.required) then none else some (s.setCandidate none)

def saveCandidate? (s : Scan) : Option Scan :=
  if s.keyAllowed then do
    let c := s.cursor
    let required := !s.inFlow && s.indent == s.column
    return (← s.clearCandidate?).setCandidate (some ⟨s.count, c.index, c.line, c.column, required⟩)
  else some s

def openBlock (s : Scan) (l : Lexeme) : Scan :=
  if !s.inFlow && s.indent < s.column then
    { s.emit l with indents := s.indent :: s.indents, indent := s.column }
  else s

def openBlockAt (s : Scan) (k : Candidate) : Scan :=
  if !s.inFlow && s.indent < (k.column : Int) then
    { s with
      inserted := (k.number, .blockMapping) :: s.inserted
      indents := s.indent :: s.indents
      indent := k.column }
  else s

def closeAll (column : Int) : List Int → Scan → Scan
  | [], s => s
  | outer :: rest, s =>
      if column < s.indent then
        closeAll column rest { s.emit .blockEnd with indent := outer, indents := rest }
      else s

def closeBlocks (s : Scan) (column : Int) : Scan :=
  if s.inFlow then s else closeAll column s.indents s

-- A byte order mark may start any line and takes up a column there.
def skipToLexeme : Nat → Scan → Scan
  | 0, s => s
  | fuel + 1, s =>
      let tabs := s.inFlow || !s.keyAllowed
      let c := s.cursor
      let c := if c.column == 0 && c.nextIs '\ufeff' then c.skip 1 else c
      let c := c.skipWhile fun x => x == ' ' || (tabs && x == '\t')
      let c := if c.nextIs '#' then c.skipWhile fun x => !isBreak x else c
      if c.atBreak then
        skipToLexeme fuel { s with cursor := c.skipBreak, keyAllowed := s.keyAllowed || !s.inFlow }
      else { s with cursor := c }

def endStream? (s : Scan) : Option Scan := do
  let s ← (s.closeBlocks (-1)).clearCandidate?
  return { (s.allowKey false).emit .streamEnd with done := true }

def readDirective? (s : Scan) : Option Scan := do
  let s ← (s.closeBlocks (-1)).clearCandidate?
  let (directive, c) ← directive? s.cursor
  return { (s.allowKey false).emit (.directive directive) with cursor := c }

def documentMark? (s : Scan) (l : Lexeme) : Option Scan := do
  return ((← (s.closeBlocks (-1)).clearCandidate?).allowKey false).emitMark l 3

def openFlow? (s : Scan) (l : Lexeme) : Option Scan := do
  let s ← s.saveCandidate?
  return ({ s with candidates := none :: s.candidates }.allowKey true).emitMark l 1

def closeFlow? (s : Scan) (l : Lexeme) : Option Scan := do
  let s ← s.clearCandidate?
  let s := if s.inFlow then { s with candidates := s.candidates.drop 1 } else s
  return (s.allowKey false).emitMark l 1

def comma? (s : Scan) : Option Scan := do
  return ((← s.clearCandidate?).allowKey true).emitMark .comma 1

def item? (s : Scan) : Option Scan := do
  if !s.inFlow && !s.keyAllowed then none
  else return ((← (s.openBlock .blockSequence).clearCandidate?).allowKey true).emitMark .item 1

def key? (s : Scan) : Option Scan := do
  if !s.inFlow && !s.keyAllowed then none
  else
    return ((← (s.openBlock .blockMapping).clearCandidate?).allowKey (!s.inFlow)).emitMark .key 1

def value? (s : Scan) : Option Scan :=
  match s.candidate? with
  | some k =>
      let s := s.openBlockAt k
      let s := { s with inserted := (k.number, .key) :: s.inserted }
      some (((s.setCandidate none).allowKey false).emitMark .value 1)
  | none =>
      if !s.inFlow && !s.keyAllowed then none
      else some (((s.openBlock .blockMapping).allowKey (!s.inFlow)).emitMark .value 1)

def anchor? (s : Scan) (lexeme : String → Lexeme) : Option Scan := do
  let s ← s.saveCandidate?
  let (name, c) ← anchorName? s.cursor
  return { (s.allowKey false).emit (lexeme name) with cursor := c }

def readTag? (s : Scan) : Option Scan := do
  let s ← s.saveCandidate?
  let (tag, c) ← tag? s.inFlow s.cursor
  return { (s.allowKey false).emit (.tag tag) with cursor := c }

def blockText? (s : Scan) (folded : Bool) : Option Scan := do
  let s ← s.clearCandidate?
  let (text, c) ← BlockText.read? folded s.indent s.cursor
  return { (s.allowKey true).emit (.scalar false text) with cursor := c }

def quoted? (s : Scan) (quote : Char) : Option Scan := do
  let s ← s.saveCandidate?
  let (text, c) ← Quoted.read? quote s.cursor
  return { (s.allowKey false).emit (.scalar false text) with cursor := c }

def plain? (s : Scan) : Option Scan := do
  let s ← s.saveCandidate?
  let r ← Plain.read? s.inFlow (s.indent + 1) s.cursor
  let s := (s.allowKey r.broken).emit (.scalar true (String.ofList r.text))
  return { s with cursor := r.cursor }

def indicators : List Char := "-?:,[]\x7b\x7d#&*!|>'\"%@\x60".toList

def lexeme? (s : Scan) : Option Scan :=
  let c := s.cursor
  match c.rest with
  | [] => s.endStream?
  | x :: rest =>
      let wordEnds := Cursor.endsWord rest
      if c.column == 0 && x == '%' then s.readDirective?
      else if c.atMarker '-' then s.documentMark? .documentStart
      else if c.atMarker '.' then s.documentMark? .documentEnd
      else if x == '[' then s.openFlow? .flowSequence
      else if x == '\x7b' then s.openFlow? .flowMapping
      else if x == ']' then s.closeFlow? .flowSequenceEnd
      else if x == '\x7d' then s.closeFlow? .flowMappingEnd
      else if x == ',' then s.comma?
      else if x == '-' && wordEnds then s.item?
      else if x == '?' && (s.inFlow || wordEnds) then s.key?
      else if x == ':' && (s.inFlow || wordEnds) then s.value?
      else if x == '*' then s.anchor? .link
      else if x == '&' then s.anchor? .anchor
      else if x == '!' then s.readTag?
      else if x == '|' && !s.inFlow then s.blockText? false
      else if x == '>' && !s.inFlow then s.blockText? true
      else if x == '\'' || x == '"' then s.quoted? x
      else if (!(isGap x) && !indicators.contains x) || (x == '-' && !(rest.head?.any isGap)) ||
          (!s.inFlow && (x == '?' || x == ':') && !wordEnds) then s.plain?
      else none

def next? (s : Scan) : Option Scan := do
  let s ← (skipToLexeme (s.cursor.rest.length + 1) s).dropStale?
  (s.closeBlocks s.column).lexeme?

def run? : Nat → Scan → Option Scan
  | 0, _ => none
  | fuel + 1, s => do if s.done then some s else run? fuel (← s.next?)

def insertInOrder (i : Nat × Lexeme) : List (Nat × Lexeme) → List (Nat × Lexeme)
  | [] => [i]
  | j :: rest => if i.1 ≤ j.1 then i :: j :: rest else j :: insertInOrder i rest

def inOrder (inserted : List (Nat × Lexeme)) : List (Nat × Lexeme) :=
  inserted.foldr insertInOrder []

def weave : Nat → List (Nat × Lexeme) → List Lexeme → List Lexeme
  | _, _, [] => []
  | number, inserted, l :: rest =>
      let (here, later) := inserted.span fun i => i.1 ≤ number
      here.map Prod.snd ++ l :: weave (number + 1) later rest

end Scan

def Lexeme.ofText? (text : String) : Option (List Lexeme) := do
  let chars := text.toList
  if !chars.all isAllowed then none
  else
    let s ← Scan.run? (chars.length + 2) (Scan.start chars)
    return Scan.weave 0 (Scan.inOrder s.inserted.reverse) s.lexemes.reverse

end DesignTokens.Yaml
