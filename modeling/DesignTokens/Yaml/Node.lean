import DesignTokens.Yaml.Lexeme

set_option autoImplicit false

namespace DesignTokens.Yaml

inductive Node where
  | link (slot : Nat)
  | scalar (tag : Option Tag) (plain : Bool) (text : String)
  | sequence (tag : Option Tag) (items : List Node)
  | mapping (tag : Option Tag) (entries : List (Node × Node))
  deriving Inhabited

structure Anchored where
  slot : Nat
  -- Position among the anchored nodes by where they begin.
  order : Nat
  node : Node

structure Grammar where
  lexemes : List Lexeme
  handles : List (String × Tag)
  slots : List (String × Nat)
  anchored : List Anchored
  begun : Nat
  -- Start and end of collections count apart.
  events : Nat

abbrev Rule := StateT Grammar Option

namespace Grammar

def start (lexemes : List Lexeme) : Grammar := ⟨lexemes, [], [], [], 0, 0⟩

def peek : Rule Lexeme := do
  match (← get).lexemes with
  | [] => failure
  | l :: _ => return l

def advance : Rule Unit := modify fun g => { g with lexemes := g.lexemes.drop 1 }

def accept (l : Lexeme) : Rule Bool := do
  if (← peek) = l then
    advance
    return true
  else return false

def event (n : Nat) : Rule Unit := modify fun g => { g with events := g.events + n }

structure Properties where
  anchor : Option (Nat × Nat)
  tag : Option Tag

/--
An anchor takes the slot that counts the names known so far. A name that is anchored again does not
raise the count, so the next new name takes over its slot.
-/
def anchorSlot (name : String) : Rule (Nat × Nat) := do
  let g ← get
  let slot := g.slots.length
  let known := g.slots.any fun s => s.1 == name
  let slots := if known then g.slots.map fun s => if s.1 == name then (name, slot) else s
    else g.slots ++ [(name, slot)]
  set { g with slots := slots, begun := g.begun + 1 }
  return (slot, g.begun)

def resolveTag (t : TagText) : Rule Tag := do
  if t.handle.isEmpty then return t.suffix
  else match (← get).handles.lookup t.handle with
    | some start => return start ++ t.suffix
    | none => failure

def properties : Rule Properties := do
  let anchor : Rule (Option String) := do
    match ← peek with
    | .anchor name =>
        advance
        return some name
    | _ => return none
  let tag : Rule (Option TagText) := do
    match ← peek with
    | .tag t =>
        advance
        return some t
    | _ => return none
  let first ← anchor
  let t ← tag
  let name ← if first.isNone && t.isSome then anchor else pure first
  let resolved ← match t with
    | some t => some <$> resolveTag t
    | none => pure none
  let slot ← match name with
    | some name => some <$> anchorSlot name
    | none => pure none
  return ⟨slot, resolved⟩

def keep (p : Properties) (node : Node) : Rule Node := do
  match p.anchor with
  | some (slot, order) => modify fun g => { g with anchored := ⟨slot, order, node⟩ :: g.anchored }
  | none => pure ()
  return node

def absent : Rule Node := do
  event 1
  return .scalar none true ""

def link (name : String) : Rule Node := do
  match (← get).slots.lookup name with
  | some slot =>
      event 1
      return .link slot
  | none => failure

def endsItem (l : Lexeme) : Bool := l = .item || l = .blockEnd

def endsLooseItem (l : Lexeme) : Bool := l = .item || l = .key || l = .value || l = .blockEnd

def endsBlockValue (l : Lexeme) : Bool := l = .key || l = .value || l = .blockEnd

def endsFlowKey (l : Lexeme) : Bool := l = .value || l = .comma || l = .flowMappingEnd

def endsPairKey (l : Lexeme) : Bool := l = .value || l = .comma || l = .flowSequenceEnd

def separator (first : Bool) : Rule Unit := do
  unless first do
    if !(← accept .comma) then failure

mutual

/--
A node. Block collections stand only where `block` allows, and a sequence without an indentation of
its own only where `loose` does, as the value of a key.
-/
def node (block loose : Bool) : Nat → Rule Node
  | 0 => failure
  | fuel + 1 => do
      match ← peek with
      | .link name =>
          advance
          link name
      | _ =>
          let p ← properties
          match ← peek with
          | .item =>
              if loose then
                event 2
                keep p (.sequence p.tag (← looseItems fuel))
              else content block p fuel
          | _ => content block p fuel

def content (block : Bool) (p : Grammar.Properties) : Nat → Rule Node
  | 0 => failure
  | fuel + 1 => do
      match ← peek, block with
      | .scalar plain text, _ =>
          advance
          event 1
          keep p (.scalar (p.tag.filter (· != Tag.mark)) plain text)
      | .flowSequence, _ =>
          advance
          event 2
          keep p (.sequence p.tag (← flowItems true fuel))
      | .flowMapping, _ =>
          advance
          event 2
          keep p (.mapping p.tag (← flowEntries true fuel))
      | .blockSequence, true =>
          advance
          event 2
          keep p (.sequence p.tag (← blockItems fuel))
      | .blockMapping, true =>
          advance
          event 2
          keep p (.mapping p.tag (← blockEntries fuel))
      | _, _ =>
          if p.anchor.isSome || p.tag.isSome then
            event 1
            keep p (.scalar p.tag true "")
          else failure

def blockItems : Nat → Rule (List Node)
  | 0 => failure
  | fuel + 1 => do
      match ← peek with
      | .item =>
          advance
          let first ← if endsItem (← peek) then absent else node true false fuel
          return first :: (← blockItems fuel)
      | .blockEnd =>
          advance
          return []
      | _ => failure

def looseItems : Nat → Rule (List Node)
  | 0 => failure
  | fuel + 1 => do
      match ← peek with
      | .item =>
          advance
          let first ← if endsLooseItem (← peek) then absent else node true false fuel
          return first :: (← looseItems fuel)
      | _ => return []

def blockEntries : Nat → Rule (List (Node × Node))
  | 0 => failure
  | fuel + 1 => do
      match ← peek with
      | .key =>
          advance
          let key ← if endsBlockValue (← peek) then absent else node true true fuel
          let value ← blockValue fuel
          return (key, value) :: (← blockEntries fuel)
      | .blockEnd =>
          advance
          return []
      | _ => failure

def blockValue : Nat → Rule Node
  | 0 => failure
  | fuel + 1 => do
      if ← accept .value then
        if endsBlockValue (← peek) then absent else node true true fuel
      else absent

def flowItems (first : Bool) : Nat → Rule (List Node)
  | 0 => failure
  | fuel + 1 => do
      if ← accept .flowSequenceEnd then return []
      else
        separator first
        match ← peek with
        | .key =>
            advance
            event 2
            let item ← pair fuel
            return item :: (← flowItems false fuel)
        | .flowSequenceEnd =>
            advance
            return []
        | _ =>
            let item ← node false false fuel
            return item :: (← flowItems false fuel)

-- A pair without a key loses its next lexeme.
def pair : Nat → Rule Node
  | 0 => failure
  | fuel + 1 => do
      let key ← if endsPairKey (← peek) then do
          advance
          absent
        else node false false fuel
      let value ← if ← accept .value then do
          let next ← peek
          if next = .comma || next = .flowSequenceEnd then absent else node false false fuel
        else absent
      return .mapping none [(key, value)]

def flowEntries (first : Bool) : Nat → Rule (List (Node × Node))
  | 0 => failure
  | fuel + 1 => do
      if ← accept .flowMappingEnd then return []
      else
        separator first
        match ← peek with
        | .key =>
            advance
            let key ← if endsFlowKey (← peek) then absent else node false false fuel
            let value ← flowValue fuel
            return (key, value) :: (← flowEntries false fuel)
        | .flowMappingEnd =>
            advance
            return []
        | _ =>
            let key ← node false false fuel
            let value ← absent
            return (key, value) :: (← flowEntries false fuel)

def flowValue : Nat → Rule Node
  | 0 => failure
  | fuel + 1 => do
      if ← accept .value then
        let next ← peek
        if next = .comma || next = .flowMappingEnd then absent else node false false fuel
      else absent

end

def directives (version : Bool) : Nat → Rule Unit
  | 0 => failure
  | fuel + 1 => do
      match ← peek with
      | .directive (.version major minor) =>
          if version || major ≠ 1 || (minor ≠ 1 && minor ≠ 2) then failure
          advance
          directives true fuel
      | .directive (.tag handle uri) =>
          let g ← get
          if g.handles.any fun h => h.1 == handle then failure
          set { g with handles := g.handles ++ [(handle, uri)] }
          advance
          directives version fuel
      | .documentStart => advance
      | _ => failure

def defaultHandles : List (String × Tag) := [("!", Tag.mark), ("!!", Tag.core "")]

def isDocumentEdge : Lexeme → Bool
  | .directive _ | .documentStart | .documentEnd | .streamEnd => true
  | _ => false

def root (fuel : Nat) : Rule (Option Node) := do
  let addDefaults : Rule Unit := modify fun g => { g with handles := g.handles ++ defaultHandles }
  match ← peek with
  | .streamEnd => return none
  | .directive _ | .documentStart =>
      directives false fuel
      addDefaults
      if isDocumentEdge (← peek) then some <$> absent else some <$> node true false fuel
  | _ =>
      addDefaults
      some <$> node true false fuel

end Grammar

structure Document where
  root : Node
  anchored : List Anchored
  events : Nat

inductive Reading where
  -- No document at all: blanks and comments.
  | void
  -- A fault, or more than one document.
  | broken
  | document (d : Document)

def isOver (lexemes : List Lexeme) : Bool :=
  lexemes.dropWhile (· == .documentEnd) == [.streamEnd]

def read (text : String) : Reading :=
  match Lexeme.ofText? text with
  | none => .broken
  | some lexemes =>
      match (Grammar.root (4 * lexemes.length + 4)).run (Grammar.start lexemes) with
      | none => .broken
      | some (none, _) => .void
      | some (some root, g) =>
          if isOver g.lexemes then .document ⟨root, g.anchored, g.events⟩ else .broken

def Document.target? (d : Document) (slot : Nat) : Option Node :=
  ((d.anchored.filter fun a => a.slot == slot).foldl
    (fun best a => match best with
      | some b => if b.order < a.order then some a else some b
      | none => some a) none).map Anchored.node

end DesignTokens.Yaml
