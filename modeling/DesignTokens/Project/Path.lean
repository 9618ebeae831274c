import DesignTokens.Fault
import DesignTokens.Text.Cut

set_option autoImplicit false

namespace DesignTokens

abbrev Path := String

namespace Path

def isAbsolute (p : Path) : Bool := p.toList.head? == some '/'

def join (base p : Path) : Path :=
  if isAbsolute p || base.isEmpty then p
  else if base.toList.getLast? == some '/' then base ++ p
  else base ++ "/" ++ p

def head : List Char → List Char × List Char
  | '/' :: rest => (['/'], rest)
  | ['.'] => (['.'], [])
  | '.' :: '/' :: rest => (['.'], '/' :: rest)
  | text => ([], text)

def isIdle (name : List Char) : Bool := name.isEmpty || name == ['.']

structure Parts where
  head : List Char
  names : List (List Char)

def parts (p : Path) : Parts :=
  let (first, rest) := head p.toList
  ⟨first, (Text.splitAll '/' rest).filter fun name => !isIdle name⟩

def components (p : Path) : List String :=
  let parts := parts p
  ((if parts.head.isEmpty then [] else [parts.head]) ++ parts.names).map String.ofList

def dropIdleEnd (names : List (List Char)) : List (List Char) :=
  (names.reverse.dropWhile isIdle).reverse

def joinNames (names : List (List Char)) : List Char := List.intercalate ['/'] names

def parent? (p : Path) : Option Path :=
  let (first, rest) := head p.toList
  match (dropIdleEnd (Text.splitAll '/' rest)).reverse with
  | [] => if first == ['.'] then some "" else none
  | _ :: before => some (String.ofList (first ++ joinNames (dropIdleEnd before.reverse)))

def fileName? (p : Path) : Option (List Char) :=
  match (parts p).names.getLast? with
  | some name => if name == ['.', '.'] then none else some name
  | none => none

def extension? (p : Path) : Option String := do
  let name ← fileName? p
  let (reversed, rest) := (name.reverse.takeWhile (· != '.'), name.reverse.dropWhile (· != '.'))
  if rest.length ≤ 1 then none else some (String.ofList reversed.reverse)

def below? (directory p : Path) : Option Path :=
  let base := components directory
  if base.isPrefixOf (components p) then
    let names := (parts p).names.length
    let (first, rest) := head p.toList
    let wanted := names - (base.length - (if first.isEmpty then 0 else 1))
    some (String.ofList (joinNames (dropIdleEnd (lastNames wanted (Text.splitAll '/' rest)))))
  else none
where
  lastNames (wanted : Nat) (names : List (List Char)) : List (List Char) :=
    let counted := (names.filter fun name => !isIdle name).length
    drop (counted - wanted) names
  drop : Nat → List (List Char) → List (List Char)
    | _, [] => []
    | 0, name :: rest => if isIdle name then drop 0 rest else name :: rest
    | n + 1, name :: rest => if isIdle name then drop (n + 1) rest else drop n rest

def shown (workingDirectory p : Path) : String :=
  match below? workingDirectory p with
  | some "" => "."
  | some rest => rest
  | none => p

end Path

def TokenFormat.ofPath? (p : Path) : Option TokenFormat :=
  match p.extension? with
  | some "yaml" | some "yml" => some .yaml
  | some "json" => some .json
  | _ => none

class Workspace (m : Type → Type) where
  directory : m Path
  isFile : Path → m Bool
  isThere : Path → m Bool
  -- None where there is no file or it is not text.
  read : Path → m (Option String)
  -- Missing parents too; false where a name is taken by a file.
  makeDirectories : Path → m Bool
  -- A file that is there is replaced; its directory must be there.
  write : Path → String → m Bool
  say : String → m Unit

end DesignTokens
