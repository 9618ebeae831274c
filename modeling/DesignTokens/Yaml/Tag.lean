import DesignTokens.Text.Basic
import DesignTokens.Yaml.Cursor

set_option autoImplicit false

namespace DesignTokens.Yaml

abbrev Tag := List UInt8

namespace Tag

def ofString (text : String) : Tag := text.toUTF8.toList

def mark : Tag := ofString "!"

def core (name : String) : Tag := ofString ("tag:yaml.org,2002:" ++ name)

def isOwn : Tag → Bool
  | [] => false
  | first :: rest => first == 0x21 && ByteArray.validateUTF8 ⟨rest.toArray⟩

end Tag

def wordAt (c : Cursor) : List Char := c.rest.takeWhile isWordChar

def anchorName? (c : Cursor) : Option (String × Cursor) :=
  let c := c.skip 1
  let name := wordAt c
  let c := c.skip name.length
  let ended := c.atWordEnd || c.next?.any fun x => "?:,]\x7d%@\x60".toList.contains x
  if name.isEmpty || !ended then none else some (String.ofList name, c)

def handle? (directive : Bool) (c : Cursor) : Option (List Char × Cursor) :=
  if !c.nextIs '!' then none
  else
    let word := wordAt (c.skip 1)
    let after := c.skip (1 + word.length)
    if after.nextIs '!' then some ('!' :: word ++ ['!'], after.skip 1)
    else if directive && !word.isEmpty then none
    else some ('!' :: word, after)

def octet? (c : Cursor) : Option (UInt8 × Cursor) :=
  match c.rest with
  | '%' :: a :: b :: _ =>
      if Text.isHexDigit a && Text.isHexDigit b then
        some ((16 * Text.hexValue a + Text.hexValue b).toUInt8, c.skip 3)
      else none
  | _ => none

def moreOctets? : Nat → Tag → Cursor → Option (Tag × Cursor)
  | 0, bytes, c => some (bytes, c)
  | n + 1, bytes, c => do
      let (byte, c) ← octet? c
      if 0x80 ≤ byte && byte < 0xc0 then moreOctets? n (bytes ++ [byte]) c else none

/--
The bytes of one character, each behind a percent sign. The first says how many there are; that
together they are a character is not asked for.
-/
def percentBytes? (c : Cursor) : Option (Tag × Cursor) := do
  let (byte, c) ← octet? c
  if byte < 0x80 then some ([byte], c)
  else if 0xc0 ≤ byte && byte < 0xe0 then moreOctets? 1 [byte] c
  else if 0xe0 ≤ byte && byte < 0xf0 then moreOctets? 2 [byte] c
  else if 0xf0 ≤ byte && byte < 0xf8 then moreOctets? 3 [byte] c
  else none

def isUriChar (verbatim : Bool) (c : Char) : Bool :=
  isWordChar c || ";/?:@&=+$.%!~*'()".toList.contains c || (verbatim && ",[]".toList.contains c)

def uriRun? (verbatim : Bool) : Nat → Tag → Cursor → Option (Tag × Cursor)
  | 0, out, c => some (out, c)
  | fuel + 1, out, c =>
      match c.next? with
      | some x =>
          if !isUriChar verbatim x then some (out, c)
          else if x == '%' then do
            let (bytes, c) ← percentBytes? c
            uriRun? verbatim fuel (out ++ bytes) c
          else uriRun? verbatim fuel (out ++ Tag.ofString (String.singleton x)) (c.skip 1)
      | none => some (out, c)

-- A tag ends at a null byte, whatever is spelled behind it.
def uri? (verbatim : Bool) (start : List Char) (c : Cursor) : Option (Tag × Cursor) := do
  let (bytes, after) ← uriRun? verbatim c.rest.length [] c
  if start.isEmpty && bytes.isEmpty then none
  else some ((Tag.ofString (String.ofList (start.drop 1)) ++ bytes).takeWhile (· != 0), after)

structure TagText where
  handle : String
  suffix : Tag
  deriving DecidableEq

def tag? (flow : Bool) (c : Cursor) : Option (TagText × Cursor) := do
  let (tag, c) ←
    if (c.skip 1).nextIs '<' then do
      let (suffix, c) ← uri? true [] (c.skip 2)
      if c.nextIs '>' then some (TagText.mk "" suffix, c.skip 1) else none
    else do
      let (handle, after) ← handle? false c
      if 1 < handle.length && handle.getLast? == some '!' then
        let (suffix, c) ← uri? false [] after
        some (TagText.mk (String.ofList handle) suffix, c)
      else
        let (suffix, c) ← uri? false handle after
        if suffix.isEmpty then some (TagText.mk "" Tag.mark, c)
        else some (TagText.mk "!" suffix, c)
  if c.atWordEnd || (flow && c.nextIs ',') then some (tag, c) else none

inductive Directive where
  | version (major minor : Nat)
  | tag (handle : String) (uri : Tag)
  deriving DecidableEq

def versionNumber? (c : Cursor) : Option (Nat × Cursor) :=
  let digits := c.rest.takeWhile Char.isDigit
  if digits.isEmpty || 9 < digits.length then none
  else some (digits.foldl (fun n d => 10 * n + (d.toNat - '0'.toNat)) 0, c.skip digits.length)

def directiveBody? (name : String) (c : Cursor) : Option (Directive × Cursor) := do
  match name with
  | "YAML" =>
      let (major, c) ← versionNumber? (c.skipWhile isGap)
      if !c.nextIs '.' then none
      else
        let (minor, c) ← versionNumber? (c.skip 1)
        some (.version major minor, c)
  | "TAG" =>
      let (handle, c) ← handle? true (c.skipWhile isGap)
      if !c.atGap then none
      else
        let (uri, c) ← uri? true [] (c.skipWhile isGap)
        if c.atWordEnd then some (.tag (String.ofList handle) uri, c) else none
  | _ => none

def directive? (c : Cursor) : Option (Directive × Cursor) := do
  let c := c.skip 1
  let name := wordAt c
  let c := c.skip name.length
  if name.isEmpty || !c.atWordEnd then none
  else
    let (directive, c) ← directiveBody? (String.ofList name) c
    let c := c.skipWhile isGap
    let c := if c.nextIs '#' then c.skipWhile fun x => !isBreak x else c
    if c.atLineEnd then some (directive, c.skipBreak) else none

end DesignTokens.Yaml
