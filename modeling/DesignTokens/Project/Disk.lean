import DesignTokens.Project.Path

set_option autoImplicit false

namespace DesignTokens

abbrev Place := List String

structure Disk where
  directories : List Place
  files : List (Place × String)
  deriving DecidableEq

namespace Disk

def isDirectory (d : Disk) (p : Place) : Bool := p.isEmpty || d.directories.contains p

def file? (d : Disk) (p : Place) : Option String := d.files.lookup p

def isTaken (d : Disk) (p : Place) : Bool := d.isDirectory p || (d.file? p).isSome

inductive Obstacle where
  -- A directory that the path goes through is not there.
  | missing
  -- It goes through a file, or the disk does not take it.
  | refused
  deriving DecidableEq

def isName (name : String) : Bool := name.utf8ByteSize ≤ 255

def isPath (p : Path) : Bool := p.utf8ByteSize ≤ 4095 && !p.toList.contains '\x00'

def walk (d : Disk) : Place → List String → Except Obstacle Place
  | place, [] => .ok place
  | place, name :: rest =>
      if !d.isDirectory place then .error (if (d.file? place).isSome then .refused else .missing)
      else if name = "" || name = "." then walk d place rest
      else if name = ".." then walk d place.dropLast rest
      else if !isName name then .error .refused
      else walk d (place ++ [name]) rest

def names (p : Path) : List String := (Text.splitAll '/' p.toList).map String.ofList

def locate (d : Disk) (directory : Place) (p : Path) : Except Obstacle Place :=
  if !isPath p then .error .refused
  else if p.isEmpty then .error .missing
  else if Path.isAbsolute p then d.walk [] (names p).tail
  else d.walk directory (names p)

def locate? (d : Disk) (directory : Place) (p : Path) : Option Place :=
  (d.locate directory p).toOption

def withoutEndSlashes (p : Path) : Path :=
  match (p.toList.reverse.dropWhile (· == '/')).reverse with
  | [] => p
  | kept => String.ofList kept

def makeDirectory (d : Disk) (directory : Place) (p : Path) : Except Obstacle Disk := do
  if !isPath p then throw .refused
  let place ← d.locate directory (withoutEndSlashes p)
  if d.isTaken place then throw .refused
  return { d with directories := d.directories ++ [place] }

def holdsDirectory (d : Disk) (directory : Place) (p : Path) : Bool :=
  (d.locate? directory p).any d.isDirectory

/--
A directory and the parents it lacks, and whether it is there in the end. Parents that were made
stay, also where a later one is refused. A path with fewer characters is left at each step.
-/
def makeDirectories (directory : Place) : Nat → Path → Disk → Disk × Bool
  | 0, _, d => (d, false)
  | fuel + 1, p, d =>
      if p.isEmpty then (d, true)
      else match d.makeDirectory directory p, Path.parent? p with
        | .ok d, _ => (d, true)
        | .error .missing, some parent =>
            match makeDirectories directory fuel parent d with
            | (d, false) => (d, false)
            | (d, true) =>
                match d.makeDirectory directory p with
                | .ok d => (d, true)
                | .error _ => (d, d.holdsDirectory directory p)
        | .error _, _ => (d, d.holdsDirectory directory p)

def insertFile (files : List (Place × String)) (place : Place) (text : String) :
    List (Place × String) :=
  if (files.lookup place).isSome then
    files.map fun f => if f.1 = place then (place, text) else f
  else files ++ [(place, text)]

def write? (d : Disk) (directory : Place) (p : Path) (text : String) : Option Disk := do
  let place ← d.locate? directory p
  if d.isDirectory place || !d.isDirectory place.dropLast then none
  else some { d with files := insertFile d.files place text }

end Disk

structure Desk where
  disk : Disk
  directory : Path
  printed : List String
  deriving DecidableEq

namespace Desk

def place (d : Desk) : Place := (Path.parts d.directory).names.map String.ofList

def locate? (d : Desk) (p : Path) : Option Place := d.disk.locate? d.place p

def file? (d : Desk) (p : Path) : Option String := (d.locate? p).bind d.disk.file?

def update (change : Desk → Disk × Bool) : StateM Desk Bool := do
  let d ← get
  let (disk, done) := change d
  set { d with disk := disk }
  return done

instance : Workspace (StateM Desk) where
  directory := return (← get).directory
  isFile p := return ((← get).file? p).isSome
  isThere p := do
    let d ← get
    return (d.locate? p).any d.disk.isTaken
  read p := return (← get).file? p
  makeDirectories p := update fun d => Disk.makeDirectories d.place (p.length + 1) p d.disk
  write p text := update fun d =>
    match d.disk.write? d.place p text with
    | some disk => (disk, true)
    | none => (d.disk, false)
  say line := modify fun d => { d with printed := d.printed ++ [line] }

end Desk

end DesignTokens
