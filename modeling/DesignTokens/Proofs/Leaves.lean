import DesignTokens.Proofs.Outline

/-!
The depth-first reading of a group: the sequence of its leaves, blank tokens and faults, each with its
path. Compiling a group does what performing this sequence does, so every fact about a run follows from
what a single entry of the sequence does.
-/

set_option autoImplicit false

namespace DesignTokens

structure Leaf where
  path : List String
  content : Content

inductive Event where
  | leaf (leaf : Leaf)
  | blank (path : List String)
  | fault (fault : Fault)

def Leaf.authored (settings : Settings) (l : Leaf) : String := authoredName settings l.path

def Content.value? : Content → Option String
  | .plain value => some value
  | .responsive tuple => tuple.default.map Scalar.toText

def Content.registration? : Content → Option Registration
  | .plain value => Registration.ofValue? value
  | .responsive _ => none

def mediaText? : Token → Option String
  | .scalar value => if value.isBlank then none else some value.toText
  | _ => none

def mediaValue? (settings : Settings) (entry : String × Token) : Option (String × String) := do
  return (← OrderedMap.get? settings.media entry.1, ← mediaText? entry.2)

def Content.mediaValues (settings : Settings) : Content → List (String × String)
  | .plain _ => []
  | .responsive tuple => tuple.media.filterMap (mediaValue? settings)

def writesOf {α : Type} (settings : Settings) (f : Content → Option α) (leaves : List Leaf) :
    List (String × α) :=
  leaves.filterMap fun l => (f l.content).map fun value => (l.authored settings, value)

def rootWrites (settings : Settings) (leaves : List Leaf) : List (String × String) :=
  writesOf settings Content.value? leaves

def registrationWrites (settings : Settings) (leaves : List Leaf) : Registrations :=
  writesOf settings Content.registration? leaves

def mediaWrites (settings : Settings) (leaves : List Leaf) : List (String × String × String) :=
  leaves.flatMap fun l =>
    (l.content.mediaValues settings).map fun w => (w.1, l.authored settings, w.2)

def Event.leaf? : Event → Option Leaf
  | .leaf l => some l
  | _ => none

def Outline.events (path : List String) : Outline → List Event
  | .nil => []
  | .leaf key content rest => .leaf ⟨path ++ [key], content⟩ :: rest.events path
  | .blank key rest => .blank (path ++ [key]) :: rest.events path
  | .faulty _ fault rest => .fault fault :: rest.events path
  | .group key members rest => members.events (path ++ [key]) ++ rest.events path

def Group.outline (tokens : Group) : Outline := .ofGroup false tokens

def Group.events (tokens : Group) : List Event := tokens.outline.events []

/-- The leaf sequence: every property to be declared, in the order of the walk. -/
def Group.leaves (tokens : Group) : List Leaf := tokens.events.filterMap Event.leaf?

namespace Compile

def perform (settings : Settings) : Event → Step Unit
  | .leaf l => (fun _ => ()) <$> content settings l.path l.content
  | .blank path => note (.blankToken (authoredName settings path))
  | .fault fault => throw fault

def performAll (settings : Settings) : List Event → Step Unit
  | [] => pure ()
  | e :: rest => do
      perform settings e
      performAll settings rest

theorem performAll_append (settings : Settings) (first second : List Event) :
    performAll settings (first ++ second) =
      (performAll settings first >>= fun _ => performAll settings second) := by
  induction first with
  | nil => simp [performAll]
  | cons e rest ih => simp [performAll, ih]

theorem walk_events (settings : Settings) (path : List String) (o : Outline) :
    (fun _ => ()) <$> walk settings path o = performAll settings (o.events path) := by
  induction o generalizing path with
  | nil => simp [walk, Outline.events, performAll]
  | leaf key c rest ih => simp [walk, Outline.events, performAll, perform, ← ih]
  | blank key rest ih => simp [walk, Outline.events, performAll, perform, ← ih]
  | faulty key fault rest ih => simp [walk, Outline.events, performAll, perform]
  | group key members rest ihm ihr =>
    simp [walk, Outline.events, performAll_append, ← ihm, ← ihr]

end Compile

end DesignTokens
