import DesignTokens.Text.Basic
import DesignTokens.Text.Cut

set_option autoImplicit false

namespace DesignTokens

def namedColors : List String := [
  "aliceblue", "antiquewhite", "aqua", "aquamarine", "azure", "beige", "bisque", "black",
  "blanchedalmond", "blue", "blueviolet", "brown", "burlywood", "cadetblue", "chartreuse",
  "chocolate", "coral", "cornflowerblue", "cornsilk", "crimson", "cyan", "darkblue", "darkcyan",
  "darkgoldenrod", "darkgray", "darkgreen", "darkgrey", "darkkhaki", "darkmagenta",
  "darkolivegreen", "darkorange", "darkorchid", "darkred", "darksalmon", "darkseagreen",
  "darkslateblue", "darkslategray", "darkslategrey", "darkturquoise", "darkviolet", "deeppink",
  "deepskyblue", "dimgray", "dimgrey", "dodgerblue", "firebrick", "floralwhite", "forestgreen",
  "fuchsia", "gainsboro", "ghostwhite", "gold", "goldenrod", "gray", "green", "greenyellow",
  "grey", "honeydew", "hotpink", "indianred", "indigo", "ivory", "khaki", "lavender",
  "lavenderblush", "lawngreen", "lemonchiffon", "lightblue", "lightcoral", "lightcyan",
  "lightgoldenrodyellow", "lightgray", "lightgreen", "lightgrey", "lightpink", "lightsalmon",
  "lightseagreen", "lightskyblue", "lightslategray", "lightslategrey", "lightsteelblue",
  "lightyellow", "lime", "limegreen", "linen", "magenta", "maroon", "mediumaquamarine",
  "mediumblue", "mediumorchid", "mediumpurple", "mediumseagreen", "mediumslateblue",
  "mediumspringgreen", "mediumturquoise", "mediumvioletred", "midnightblue", "mintcream",
  "mistyrose", "moccasin", "navajowhite", "navy", "oldlace", "olive", "olivedrab", "orange",
  "orangered", "orchid", "palegoldenrod", "palegreen", "paleturquoise", "palevioletred",
  "papayawhip", "peachpuff", "peru", "pink", "plum", "powderblue", "purple", "rebeccapurple",
  "red", "rosybrown", "royalblue", "saddlebrown", "salmon", "sandybrown", "seagreen", "seashell",
  "sienna", "silver", "skyblue", "slateblue", "slategray", "slategrey", "snow", "springgreen",
  "steelblue", "tan", "teal", "thistle", "tomato", "turquoise", "violet", "wheat", "white",
  "whitesmoke", "yellow", "yellowgreen", "transparent", "currentcolor"]

inductive ValueType where
  | color
  | length
  | percentage
  | time
  | angle
  | integer
  | number
  | universal
  deriving DecidableEq

namespace ValueType

def name : ValueType → String
  | .color => "<color>"
  | .length => "<length>"
  | .percentage => "<percentage>"
  | .time => "<time>"
  | .angle => "<angle>"
  | .integer => "<integer>"
  | .number => "<number>"
  | .universal => "*"

def colorFunctions : List String := [
  "oklab(", "oklch(", "lab(", "lch(", "rgb(", "rgba(", "hsl(", "hsla(", "hwb(", "color(",
  "color-mix("]

def lengthUnits : List String := [
  "px", "em", "rem", "ex", "rex", "ch", "rch", "cap", "ic", "lh", "rlh", "vw", "vh", "vi", "vb",
  "vmin", "vmax", "svw", "svh", "lvw", "lvh", "dvw", "dvh", "cm", "mm", "q", "in", "pt"]

def timeUnits : List String := ["s", "ms"]

def angleUnits : List String := ["deg", "rad", "grad", "turn"]

def isColor (value : List Char) : Bool :=
  let lower := Text.lower value
  match lower with
  | '#' :: hex => [3, 4, 6, 8].contains hex.length && hex.all Text.isHexDigit
  | _ =>
      (lower.getLast? == some ')' && colorFunctions.any fun f => f.toList.isPrefixOf lower) ||
        namedColors.contains (String.ofList lower)

def unsigned : List Char → List Char
  | '-' :: rest => rest
  | '+' :: rest => rest
  | value => value

def isInteger (value : List Char) : Bool :=
  let digits := unsigned value
  !digits.isEmpty && digits.all Char.isDigit

def isNumber (value : List Char) : Bool :=
  let body := unsigned value
  body.any Char.isDigit && body.all (fun c => c.isDigit || c == '.') && body.count '.' ≤ 1

def isNumeral (c : Char) : Bool := c.isDigit || c == '.' || c == '-' || c == '+'

def hasUnit (units : List String) (value : List Char) : Bool :=
  let unit := value.dropWhile isNumeral
  isNumber (value.takeWhile isNumeral) && units.any fun u => Text.sameIgnoringCase unit u.toList

def ofTrimmed (value : List Char) : ValueType :=
  if isColor value then .color
  else if hasUnit lengthUnits value then .length
  else if hasUnit ["%"] value then .percentage
  else if hasUnit timeUnits value then .time
  else if hasUnit angleUnits value then .angle
  else if isInteger value then .integer
  else if isNumber value then .number
  else .universal

def of (value : String) : ValueType := ofTrimmed (Text.trim value.toList)

end ValueType

def contextFunctions : List String := ["var(", "env(", "attr("]

def isSelfContained (value : String) : Bool :=
  !contextFunctions.any fun f => Text.contains f.toList (Text.lower value.toList)

structure Registration where
  type : ValueType
  inherits : Bool
  initial : String
  deriving DecidableEq

def Registration.ofValue? (value : String) : Option Registration :=
  if isSelfContained value then some ⟨.of value, false, value⟩ else none

end DesignTokens
