import DesignTokens.Number.Decimal
import DesignTokens.Text.Basic
import DesignTokens.Text.Cut
import DesignTokens.Yaml.Node

set_option autoImplicit false

namespace DesignTokens.Yaml

inductive Value where
  | null
  | bool (value : Bool)
  | integer (value : Int)
  | number (value : Binary64)
  | text (value : String)
  deriving DecidableEq

namespace Value

def null? (text : String) : Option Value :=
  if ["null", "Null", "NULL", "~"].contains text then some .null else none

def bool? (text : String) : Option Value :=
  if ["true", "True", "TRUE"].contains text then some (.bool true)
  else if ["false", "False", "FALSE"].contains text then some (.bool false)
  else none

def hasLeadingZero (text : List Char) : Bool :=
  let digits := (Decimal.sign text).2
  1 < digits.length && digits.head? == some '0' && digits.all Char.isDigit

def digitsIn? (base : Nat) (text : List Char) : Option Nat :=
  if text.isEmpty || !text.all fun c => Text.isHexDigit c && Text.hexValue c < base then none
  else some (text.foldl (fun n c => base * n + Text.hexValue c) 0)

def bases : List (List Char × Nat) := [(['0', 'x'], 16), (['0', 'o'], 8), (['0', 'b'], 2)]

def magnitude? (text : List Char) : Option Nat :=
  match bases.findSome? fun (mark, base) => (Text.after? mark text).bind (digitsIn? base) with
  | some n => some n
  | none => digitsIn? 10 text

def integer? (text : List Char) : Option Int :=
  if hasLeadingZero text then none
  else
    let (negative, body) := Decimal.sign text
    (magnitude? body).map fun n => if negative then -(n : Int) else n

def fitsWord (n : Int) : Bool := -(twoTo 63 : Int) ≤ n && n < twoTo 64

-- Integers this large are taken for integers and refused; larger ones are read as numbers.
def fitsDoubleWord (n : Int) : Bool := -(twoTo 127 : Int) ≤ n && n < twoTo 128

def special? (text : String) : Option Binary64 :=
  if [".inf", ".Inf", ".INF", "+.inf", "+.Inf", "+.INF"].contains text then some (.infinite false)
  else if ["-.inf", "-.Inf", "-.INF"].contains text then some (.infinite true)
  else if [".nan", ".NaN", ".NAN"].contains text then some .nan
  else none

def number? (text : String) : Option Binary64 :=
  match special? text with
  | some x => some x
  | none => (Decimal.read? text.toList).filter Binary64.isFinite

inductive Found where
  | value (value : Value)
  | tooLarge
  | nothing

def foundInteger (text : String) : Found :=
  match integer? text.toList with
  | some n =>
      if fitsWord n then .value (.integer n) else if fitsDoubleWord n then .tooLarge else .nothing
  | none => .nothing

def ofPlain? (text : String) : Option Value :=
  if text.isEmpty then some .null
  else match null? text, bool? text, foundInteger text with
    | some v, _, _ | none, some v, _ | none, none, .value v => some v
    | none, none, .tooLarge => none
    | none, none, .nothing =>
        if hasLeadingZero text.toList then some (.text text)
        else match number? text with
          | some x => some (.number x)
          | none => some (.text text)

def ofScalar? (tag : Option Tag) (plain : Bool) (text : String) : Option Value :=
  match tag with
  | none => if plain then ofPlain? text else some (.text text)
  | some tag =>
      if tag.isOwn then none
      else if tag = Tag.core "null" then null? text
      else if tag = Tag.core "bool" then bool? text
      else if tag = Tag.core "int" then
        match foundInteger text with
        | .value v => some v
        | _ => none
      else if tag = Tag.core "float" then (number? text).map .number
      else if plain && tag.head? == Tag.mark.head? then ofPlain? text
      else some (.text text)

end Value

-- Counts the aliases followed so far.
abbrev Follow := StateT Nat Option

namespace Document

def maxDepth : Nat := 128

-- A hundred for each event, so that a short text cannot stand for an endless value.
def maxFollowed (d : Document) : Nat := 100 * d.events

def follow (d : Document) (node : Node) : Follow Node := do
  match node with
  | .link slot =>
      let followed := (← get) + 1
      set followed
      if d.maxFollowed < followed then failure
      match d.target? slot with
      | some (.link _) | none => failure
      | some node => return node
  | node => return node

end Document

end DesignTokens.Yaml
