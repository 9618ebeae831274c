set_option autoImplicit false

namespace DesignTokens

abbrev OrderedMap (α : Type) := List (String × α)

namespace OrderedMap

variable {α β : Type}

def keys (m : List (String × α)) : List String := m.map Prod.fst

def get? : List (String × α) → String → Option α
  | [], _ => none
  | (k, v) :: rest, key => if k = key then some v else get? rest key

def contains (m : List (String × α)) (key : String) : Bool := (keys m).contains key

def insert : List (String × α) → String → α → List (String × α)
  | [], key, value => [(key, value)]
  | (k, v) :: rest, key, value =>
      if k = key then (k, value) :: rest else (k, v) :: insert rest key value

def overlay (base top : List (String × α)) : List (String × α) :=
  top.foldl (fun m p => insert m p.1 p.2) base

def ofList (pairs : List (String × α)) : List (String × α) := overlay [] pairs

def Distinct (m : List (String × α)) : Prop := (keys m).Nodup

@[simp]
theorem get?_nil (key : String) : get? ([] : List (String × α)) key = none := rfl

theorem get?_insert (m : List (String × α)) (key other : String) (value : α) :
    get? (insert m key value) other = if key = other then some value else get? m other := by
  induction m with
  | nil => simp [insert, get?]
  | cons p rest ih => grind [insert, get?]

theorem keys_insert (m : List (String × α)) (key : String) (value : α) :
    keys (insert m key value) = if key ∈ keys m then keys m else keys m ++ [key] := by
  induction m with
  | nil => simp [insert, keys]
  | cons p rest ih => grind [insert, keys]

theorem Distinct.insert {m : List (String × α)} (h : Distinct m) (key : String) (value : α) :
    Distinct (OrderedMap.insert m key value) := by
  unfold Distinct at *
  rw [keys_insert]
  split <;> grind

end OrderedMap

end DesignTokens
