import DesignTokens.Text.Cut

set_option autoImplicit false

namespace DesignTokens

inductive UsageFault where
  | noArguments
  | helpAsked
  | versionAsked
  | noCommand
  | unknownCommand
  | unknownArgument
  | repeated
  | flagWithValue
  | missingValue
  | emptyPath
  | unknownFormat
  | badMedia
  | missingFile
  deriving DecidableEq

namespace Usage

abbrev Change (α : Type) := α → Except UsageFault α

inductive Effect (α : Type) where
  | flag (set : Change α)
  | value (set : String → Change α)

structure Rule (α : Type) where
  long : String
  short : Option Char
  effect : Effect α

structure Rules (α : Type) where
  options : List (Rule α)
  place : String → Change α

inductive Word where
  | long (name : List Char) (value : Option String)
  | short (names : List Char)
  | dashes
  | plain (text : String)
  deriving DecidableEq

def Word.of (argument : String) : Word :=
  match argument.toList with
  | ['-', '-'] => .dashes
  | '-' :: '-' :: text =>
      match Text.splitFirst? '=' text with
      | some (name, value) => .long name (some (String.ofList value))
      | none => .long text none
  | '-' :: c :: text => .short (c :: text)
  | _ => .plain argument

inductive Pending (α : Type) where
  | nothing
  | option (set : String → Change α)
  | value (change : Change α)

def Pending.settle {α : Type} : Pending α → Change α
  | .nothing, values => .ok values
  | .option _, _ => .error .missingValue
  | .value change, values => change values

structure Reading (α : Type) where
  values : α
  pending : Pending α
  placeTaken : Bool

variable {α : Type}

namespace Reading

def start (values : α) : Reading α := ⟨values, .nothing, false⟩

def settled (r : Reading α) : Except UsageFault α := r.pending.settle r.values

/--
A value is looked at only when the next option or the end is met, so that an argument nobody knows is the fault
before a bad value is.
-/
def apply (r : Reading α) (change : Change α) : Except UsageFault (Reading α) := do
  let values ← change (← r.settled)
  return { r with values := values, pending := .nothing }

def await (r : Reading α) (set : String → Change α) : Except UsageFault (Reading α) := do
  return { r with values := ← r.settled, pending := .option set }

def takePlace (place : String → Change α) (text : String) (r : Reading α) :
    Except UsageFault (Reading α) := do
  if r.placeTaken then throw .unknownArgument
  return ⟨← r.settled, .value (place text), true⟩

def takeLong (options : List (Rule α)) (name : List Char) (value : Option String) (r : Reading α) :
    Except UsageFault (Reading α) :=
  match options.find? fun rule => rule.long.toList == name with
  | none => .error .unknownArgument
  | some rule =>
      match rule.effect, value with
      | .flag set, none => r.apply set
      | .flag _, some _ => .error .flagWithValue
      | .value set, some text => r.apply (set text)
      | .value set, none => r.await set

/-- Flags of one letter may stand together; the rest after an option with a value is its value. -/
def takeShort (options : List (Rule α)) : List Char → Reading α → Except UsageFault (Reading α)
  | [], r => .ok r
  | c :: rest, r =>
      match options.find? fun rule => rule.short == some c with
      | none => .error .unknownArgument
      | some rule =>
          match rule.effect, rest with
          | .flag set, rest => do takeShort options rest (← r.apply set)
          | .value set, [] => r.await set
          | .value set, '=' :: text => r.apply (set (String.ofList text))
          | .value set, text => r.apply (set (String.ofList text))

def takePlain (place : String → Change α) (text : String) (r : Reading α) :
    Except UsageFault (Reading α) :=
  match r.pending with
  | .option set => .ok { r with pending := .value (set text) }
  | _ => r.takePlace place text

end Reading

def readWords (rules : Rules α) : List String → Reading α → Except UsageFault α
  | [], r => r.settled
  | argument :: rest, r =>
      match Word.of argument with
      | .dashes => do (← rest.foldlM (fun r text => r.takePlace rules.place text) r).settled
      | .long name value => do readWords rules rest (← r.takeLong rules.options name value)
      | .short names => do readWords rules rest (← r.takeShort rules.options names)
      | .plain text => do readWords rules rest (← r.takePlain rules.place text)

def once {β : Type} (get : α → Option β) (set : α → β → α) (read : String → Except UsageFault β)
    (text : String) : Change α := fun values => do
  if (get values).isSome then throw .repeated
  return set values (← read text)

def raise (get : α → Bool) (set : α → α) : Change α := fun values =>
  if get values then .error .repeated else .ok (set values)

def helpRule : Rule α := ⟨"help", some 'h', .flag fun _ => .error .helpAsked⟩

end Usage

end DesignTokens
