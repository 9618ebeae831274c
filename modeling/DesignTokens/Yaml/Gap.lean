import DesignTokens.Yaml.Cursor

set_option autoImplicit false

namespace DesignTokens.Yaml

structure Gap where
  blanks : List Char
  broken : Bool
  firstBreak : List Char
  moreBreaks : List Char

namespace Gap

def none : Gap := ⟨[], false, [], []⟩

def continued : Gap := ⟨[], true, [], []⟩

def text (g : Gap) : List Char :=
  if g.broken then
    if g.firstBreak == ['\n'] then if g.moreBreaks.isEmpty then [' '] else g.moreBreaks
    else g.firstBreak ++ g.moreBreaks
  else g.blanks

def read? (indent : Int) : Nat → Gap → Cursor → Option (Gap × Cursor)
  | 0, g, c => some (g, c)
  | fuel + 1, g, c =>
      if c.atGap then
        if g.broken && (c.column : Int) < indent && c.nextIs '\t' then Option.none
        else if g.broken then read? indent fuel g (c.skip 1)
        else read? indent fuel { g with blanks := g.blanks ++ c.rest.take 1 } (c.skip 1)
      else if c.atBreak then
        let g := if g.broken then { g with moreBreaks := g.moreBreaks ++ c.breakText }
          else ⟨[], true, c.breakText, g.moreBreaks⟩
        read? indent fuel g c.skipBreak
      else some (g, c)

end Gap

end DesignTokens.Yaml
