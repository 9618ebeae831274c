import DesignTokens.Yaml.Gap

set_option autoImplicit false

namespace DesignTokens.Yaml.Plain

def isFlowPunctuation (c : Char) : Bool :=
  c == ',' || c == '[' || c == ']' || c == '\x7b' || c == '\x7d'

def run? (flow : Bool) : Nat → List Char → Cursor → Option (List Char × Cursor)
  | 0, out, c => some (out, c)
  | fuel + 1, out, c =>
      match c.rest with
      | [] => some (out, c)
      | x :: rest =>
          if isGap x || isBreak x then some (out, c)
          else if flow && x == ':' && rest.head?.any (fun y => isFlowPunctuation y || y == '?') then
            none
          else if (x == ':' && Cursor.endsWord rest) || (flow && isFlowPunctuation x) then
            some (out, c)
          else run? flow fuel (x :: out) (c.skip 1)

structure Reading where
  text : List Char
  broken : Bool
  cursor : Cursor

def body? (flow : Bool) (indent : Int) : Nat → List Char → Gap → Cursor → Option Reading
  | 0, _, _, _ => none
  | fuel + 1, out, gap, c => do
      if c.atDocumentMarker || c.nextIs '#' then some ⟨out.reverse, gap.broken, c⟩
      else
        let (run, c) ← run? flow fuel [] c
        let (out, gap) := if run.isEmpty then (out, gap)
          else (run ++ gap.text.reverse ++ out, Gap.none)
        if !(c.atGap || c.atBreak) then some ⟨out.reverse, gap.broken, c⟩
        else
          let (gap, c) ← Gap.read? indent fuel gap c
          if !flow && (c.column : Int) < indent then some ⟨out.reverse, gap.broken, c⟩
          else body? flow indent fuel out gap c

def read? (flow : Bool) (indent : Int) (c : Cursor) : Option Reading :=
  body? flow indent (c.rest.length + 2) [] .none c

end DesignTokens.Yaml.Plain
