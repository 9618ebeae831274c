set_option autoImplicit false

namespace DesignTokens.Letters

def alphabet : List Char := "abcdefghijklmnopqrstuvwxyzABCDEFGHIJKLMNOPQRSTUVWXYZ".toList

def letter (digit : Nat) : Char := alphabet.getD digit 'a'

-- Words of two or more letters are a shorter word followed by a letter.
def ofNat (n : Nat) : List Char :=
  if n < 52 then [letter n] else ofNat (n / 52 - 1) ++ [letter (n % 52)]

end DesignTokens.Letters

namespace DesignTokens

namespace ShortName

/--
The name of the property with a given number: letters and one digit. Under a scope the letters
follow the scope, and the first ten names have none.
-/
def ofCount (scope : Option String) (count : Nat) : String :=
  let digit := toString (count % 10)
  match scope, count / 10 with
  | none, tens => String.ofList (Letters.ofNat tens) ++ digit
  | some scope, 0 => scope ++ digit
  | some scope, tens + 1 => scope ++ String.ofList (Letters.ofNat tens) ++ digit

end ShortName

structure NameTable where
  scope : Option String
  authored : List String
  deriving DecidableEq

namespace NameTable

def empty (scope : Option String) : NameTable := ⟨scope, []⟩

def size (t : NameTable) : Nat := t.authored.length

def property (t : NameTable) (count : Nat) : String := "--" ++ ShortName.ofCount t.scope count

def assign (t : NameTable) (name : String) : String × NameTable :=
  match t.authored.idxOf? name with
  | some count => (t.property count, t)
  | none => (t.property t.size, { t with authored := t.authored ++ [name] })

def entries (t : NameTable) : List (String × String) :=
  t.authored.zipIdx.map fun (name, count) => (t.property count, name)

def short? (t : NameTable) (name : String) : Option String :=
  (t.authored.idxOf? name).map t.property

def authored? (t : NameTable) (short : String) : Option String :=
  (t.entries.find? fun entry => entry.1 == short).map Prod.snd

@[simp]
theorem authored_empty (scope : Option String) : (empty scope).authored = [] := rfl

@[simp]
theorem scope_assign (t : NameTable) (name : String) : (t.assign name).2.scope = t.scope := by
  unfold assign
  split <;> rfl

end NameTable

end DesignTokens
