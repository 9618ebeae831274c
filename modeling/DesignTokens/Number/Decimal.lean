import DesignTokens.Number.Binary64

set_option autoImplicit false

namespace DesignTokens.Decimal

def value (digits : List Char) : Nat :=
  digits.foldl (fun n c => 10 * n + (c.toNat - '0'.toNat)) 0

def digitRun (text : List Char) : List Char × List Char :=
  (text.takeWhile Char.isDigit, text.dropWhile Char.isDigit)

structure Mantissa where
  whole : List Char
  places : List Char
  rest : List Char

def mantissa? (text : List Char) : Option Mantissa :=
  let (whole, rest) := digitRun text
  let (places, rest) := match rest with
    | '.' :: rest => digitRun rest
    | rest => ([], rest)
  if whole.isEmpty && places.isEmpty then none else some ⟨whole, places, rest⟩

def Mantissa.toBinary64 (m : Mantissa) (negative : Bool) (exponent : Int) : Binary64 :=
  .ofDecimal negative (value (m.whole ++ m.places)) (exponent - m.places.length)

def unsigned? (text : List Char) : Option Binary64 :=
  match mantissa? text with
  | some m => if m.rest.isEmpty then some (m.toBinary64 false 0) else none
  | none => none

def sign : List Char → Bool × List Char
  | '-' :: rest => (true, rest)
  | '+' :: rest => (false, rest)
  | text => (false, text)

def integer? (text : List Char) : Option Int :=
  let (negative, digits) := sign text
  if digits.isEmpty || !digits.all Char.isDigit then none
  else some (if negative then -(value digits : Int) else value digits)

def exponent? : List Char → Option Int
  | [] => some 0
  | 'e' :: rest | 'E' :: rest => integer? rest
  | _ => none

def named? (negative : Bool) (text : List Char) : Option Binary64 :=
  match String.ofList (text.map Char.toLower) with
  | "inf" | "infinity" => some (.infinite negative)
  | "nan" => some .nan
  | _ => none

def read? (text : List Char) : Option Binary64 :=
  let (negative, body) := sign text
  match mantissa? body with
  | some m => (exponent? m.rest).map (m.toBinary64 negative)
  | none => named? negative body

end DesignTokens.Decimal
