import DesignTokens.Compile
import DesignTokens.Project.Path
import DesignTokens.Text.Basic
import DesignTokens.Yaml.Value

set_option autoImplicit false

namespace DesignTokens

open Yaml

structure Theme where
  name : String
  source : Path
  pathPrefix : Option String
  scope : Option String
  media : List (String × String)
  deriving DecidableEq

structure Manifest where
  output : Path := "dist"
  media : List (String × String) := []
  themes : List Theme := []
  deriving DecidableEq

namespace Manifest

def settings (m : Manifest) (t : Theme) : Settings :=
  ⟨t.pathPrefix, t.scope, OrderedMap.overlay m.media t.media⟩

def find? (m : Manifest) (name : String) : Option Theme := m.themes.find? fun t => t.name == name

namespace Reader

def isAbsent (plain : Bool) (text : String) : Bool := plain && text.isEmpty

def text (d : Document) (node : Node) : Follow String := do
  match ← d.follow node with
  | .scalar _ _ text => return text
  | _ => failure

def text? (d : Document) (node : Node) : Follow (Option String) := do
  match ← d.follow node with
  | .scalar tag plain text =>
      let isNull := (Value.null? text).isSome
      if !plain then return some text
      else if tag = some (Tag.core "null") then
        if isNull then return none else failure
      else if tag.isSome then return some text
      else return if text.isEmpty || isNull then none else some text
  | _ => failure

def textMap (d : Document) (node : Node) : Follow (List (String × String)) := do
  match ← d.follow node with
  | .mapping _ entries =>
      return OrderedMap.ofList (← entries.mapM fun (key, value) => do
        let key ← text d key
        return (key, ← text d value))
  | .scalar _ plain text => if isAbsent plain text then return [] else failure
  | _ => failure

def fieldsByName (d : Document) (known : List String) :
    List (Node × Node) → Follow (List (String × Node))
  | [] => return []
  | (key, value) :: rest => do
      let name ← text d key
      let others ← fieldsByName d known rest
      if !known.contains name then return others
      else if OrderedMap.contains others name then failure
      else return (name, value) :: others

def fields (d : Document) (known : List String) (node : Node) : Follow (List (String × Node)) := do
  match ← d.follow node with
  | .mapping _ entries => fieldsByName d known entries
  | .scalar _ plain text => if isAbsent plain text then return [] else failure
  | _ => failure

def optional {α : Type} (fields : List (String × Node)) (name : String) (default : α)
    (read : Node → Follow α) : Follow α :=
  match OrderedMap.get? fields name with
  | some node => read node
  | none => return default

def required {α : Type} (fields : List (String × Node)) (name : String) (read : Node → Follow α) :
    Follow α :=
  match OrderedMap.get? fields name with
  | some node => read node
  | none => failure

def themeFields : List String := ["name", "source", "prefix", "scope", "medias"]

def theme (d : Document) (node : Node) : Follow Theme := do
  let fields ← fields d themeFields node
  return {
    name := ← required fields "name" (text d)
    source := ← required fields "source" (text d)
    pathPrefix := ← optional fields "prefix" none (text? d)
    scope := ← optional fields "scope" none (text? d)
    media := ← optional fields "medias" [] (textMap d) }

def themes (d : Document) (node : Node) : Follow (List Theme) := do
  match ← d.follow node with
  | .sequence _ items => items.mapM (theme d)
  | .scalar _ plain text => if isAbsent plain text then return [] else failure
  | _ => failure

def manifestFields : List String := ["output", "medias", "themes"]

def manifest (d : Document) : Follow Manifest := do
  let fields ← fields d manifestFields d.root
  return {
    output := ← optional fields "output" "dist" (text d)
    media := ← optional fields "medias" [] (textMap d)
    themes := ← optional fields "themes" [] (themes d) }

end Reader

/-- A text without a document is a manifest with nothing in it. -/
def read (source : String) : Except Fault Manifest :=
  if (Text.trim source.toList).isEmpty then .ok {}
  else match Yaml.read source with
    | .void => .ok {}
    | .broken => .error (.parse .manifest)
    | .document d =>
        match (Reader.manifest d).run 0 with
        | some (m, _) => .ok m
        | none => .error (.parse .manifest)

end Manifest

end DesignTokens
