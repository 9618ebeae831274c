set_option autoImplicit false

namespace DesignTokens.Text

def after? : List Char → List Char → Option (List Char)
  | [], text => some text
  | _ :: _, [] => none
  | a :: start, b :: text => if a = b then after? start text else none

def before? (stop text : List Char) : Option (List Char) :=
  (after? stop.reverse text.reverse).map List.reverse

@[simp]
theorem after?_append (start text : List Char) : after? start (start ++ text) = some text := by
  induction start with
  | nil => rfl
  | cons c start ih => simp [after?, ih]

theorem after?_eq_some_iff (start text rest : List Char) :
    after? start text = some rest ↔ text = start ++ rest := by
  constructor
  · intro cut
    induction start generalizing text with
    | nil => exact Option.some.inj cut
    | cons c start ih =>
      cases text with
      | nil => cases cut
      | cons d text =>
        simp only [after?, Option.ite_none_right_eq_some] at cut
        rw [cut.1, ih text cut.2, List.cons_append]
  · rintro rfl
    exact after?_append start rest

theorem before?_eq_some_iff (stop text rest : List Char) :
    before? stop text = some rest ↔ text = rest ++ stop := by
  simp only [before?, Option.map_eq_some_iff, after?_eq_some_iff]
  constructor
  · rintro ⟨_, turned, rfl⟩
    simpa using congrArg List.reverse turned
  · rintro rfl
    exact ⟨rest.reverse, by simp, by simp⟩

theorem before?_append (text stop : List Char) : before? stop (text ++ stop) = some text :=
  (before?_eq_some_iff stop (text ++ stop) text).mpr rfl

def splitFirst? (separator : Char) (text : List Char) : Option (List Char × List Char) :=
  match text.dropWhile (· != separator) with
  | [] => none
  | _ :: rest => some (text.takeWhile (· != separator), rest)

def splitAll (separator : Char) : List Char → List (List Char)
  | [] => [[]]
  | c :: rest =>
      if c = separator then [] :: splitAll separator rest
      else match splitAll separator rest with
        | [] => [[c]]
        | piece :: pieces => (c :: piece) :: pieces

def contains (piece : List Char) : List Char → Bool
  | [] => piece.isEmpty
  | c :: rest => (after? piece (c :: rest)).isSome || contains piece rest

end DesignTokens.Text
