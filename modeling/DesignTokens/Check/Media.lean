import DesignTokens.Compile

set_option autoImplicit false

namespace DesignTokens.Check

structure MediaUse where
  path : List String
  name : String
  deriving DecidableEq

mutual

def mediaUses (path : List String) (key : String) : Token → List MediaUse
  | .scalar _ => []
  | .group members =>
      match Role.scales? key members with
      | some _ => []
      | none => mediaUsesIn path members
  | .list items =>
      match Role.responsive? items with
      | some tuple => (OrderedMap.keys tuple.media).map (MediaUse.mk path)
      | none => mediaUsesAt path 0 items

def mediaUsesIn (path : List String) : List (String × Token) → List MediaUse
  | [] => []
  | (key, token) :: rest => mediaUses (path ++ [key]) key token ++ mediaUsesIn path rest

def mediaUsesAt (path : List String) (index : Nat) : List Token → List MediaUse
  | [] => []
  | token :: rest =>
      mediaUses (path ++ [toString index]) (toString index) token ++
        mediaUsesAt path (index + 1) rest

end

def dotted (path : List String) : String :=
  path.foldl (fun text key => if text.isEmpty then key else text ++ "." ++ key) ""

def unknownMedia (use : MediaUse) : Finding where
  severity := .error
  code := "dstokens::validate::unknown-media"
  message := "Unknown media '" ++ use.name ++ "'"
  subject := some (dotted use.path)
  help := some "Declare it under \x60medias\x60 or fix the name"

def unusedMedia (name : String) : Finding where
  severity := .warning
  code := "dstokens::validate::unused-media"
  message := "Media '" ++ name ++ "' is declared but never used"

def media (tokens : Group) (settings : Settings) : Report :=
  let uses := mediaUsesIn [] tokens
  (uses.filter fun use => !OrderedMap.contains settings.media use.name).map unknownMedia ++
    ((OrderedMap.keys settings.media).filter fun name => !uses.any (·.name == name)).map unusedMedia

end DesignTokens.Check
