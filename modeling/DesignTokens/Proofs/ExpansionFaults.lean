import DesignTokens.Color.ShadeScale
import DesignTokens.Proofs.ContentOrigins

set_option autoImplicit false

namespace DesignTokens

def faultOf? {α : Type} : Except Fault α → Option Fault
  | .ok _ => none
  | .error fault => some fault

theorem faultOf?_map {α β : Type} (f : α → β) (x : Except Fault α) :
    faultOf? (x.map f) = faultOf? x := by
  cases x <;> rfl

theorem faultOf?_bind {α β : Type} {x : Except Fault α} {f : α → Except Fault β}
    {rest : Option Fault} (later : ∀ a, faultOf? (f a) = rest) :
    faultOf? (x >>= f) = (faultOf? x).or rest := by
  cases x with
  | ok a => exact later a
  | error fault => rfl

theorem faultOf?_bind_pure {α β : Type} (x : Except Fault α) (f : α → β) :
    faultOf? (x >>= fun a => pure (f a)) = faultOf? x := by
  cases x <;> rfl

theorem faultOf?_eq_none_iff {α : Type} (x : Except Fault α) :
    faultOf? x = none ↔ ∃ a, x = .ok a := by
  cases x <;> simp [faultOf?]

theorem faultOf?_eq_some_iff {α : Type} (x : Except Fault α) (fault : Fault) :
    faultOf? x = some fault ↔ x = .error fault := by
  cases x <;> simp [faultOf?]

theorem findSome?_cons_or {α β : Type} (f : α → Option β) (a : α) (rest : List α) :
    (a :: rest).findSome? f = (f a).or (rest.findSome? f) := by
  cases here : f a <;> simp [here]

namespace StepRange

theorem steps_fault {r : StepRange} {fault : Fault} (failed : r.steps = .error fault) :
    ∃ cause, fault = r.fault cause := by
  simp only [steps] at failed
  repeat' split at failed
  all_goals cases failed
  all_goals exact ⟨_, rfl⟩

theorem valuesFrom_fault {r : StepRange} {before : Option Binary64} {i left : Nat} {fault : Fault}
    (failed : r.valuesFrom before i left = .error fault) : ∃ cause, fault = r.fault cause := by
  induction left generalizing before i with
  | zero => cases failed
  | succ left ih =>
    rw [valuesFrom] at failed
    split at failed
    next => cases failed
    next =>
      split at failed
      next =>
        cases failed
        exact ⟨_, rfl⟩
      next =>
        rw [← faultOf?_eq_some_iff, faultOf?_bind_pure, faultOf?_eq_some_iff] at failed
        exact ih failed

theorem values_fault {r : StepRange} {fault : Fault} (failed : r.values = .error fault) :
    ∃ cause, fault = r.fault cause := by
  unfold values at failed
  cases counted : r.steps with
  | ok count => exact valuesFrom_fault (by simpa [counted, bind, Except.bind] using failed)
  | error other =>
    obtain rfl : other = fault := by simpa [counted, bind, Except.bind] using failed
    exact steps_fault counted

end StepRange

def ScaleUnit.Known (key : String) : Prop := ∃ unit ∈ all, unit.key = key

instance (key : String) : Decidable (ScaleUnit.Known key) :=
  inferInstanceAs (Decidable (∃ unit ∈ ScaleUnit.all, unit.key = key))

theorem ScaleUnit.faultOf?_ofKey (key : String) :
    faultOf? (ofKey key) = if Known key then none else some (.unknownUnit key) := by
  unfold ofKey
  cases found : all.find? fun unit => unit.key == key with
  | some unit =>
    have member := List.mem_of_find?_eq_some found
    have same : unit.key = key := by simpa using List.find?_some found
    have known : Known key := ⟨unit, member, same⟩
    simp only [faultOf?, if_pos known]
  | none =>
    have unknown : ¬ Known key := by simpa [Known] using found
    simp only [faultOf?, if_neg unknown]

namespace Scale

def entryFault? (entry : String × StepRange) : Option Fault :=
  if ScaleUnit.Known entry.1 then faultOf? entry.2.values else some (.unknownUnit entry.1)

theorem entryFault?_eq_none_iff (entry : String × StepRange) :
    entryFault? entry = none ↔
      ScaleUnit.Known entry.1 ∧ ∃ values, entry.2.values = .ok values := by
  unfold entryFault?
  by_cases known : ScaleUnit.Known entry.1
  · simp [known, faultOf?_eq_none_iff]
  · simp [known]

theorem entryFault?_cases {entry : String × StepRange} {fault : Fault}
    (failed : entryFault? entry = some fault) :
    (∃ cause, fault = entry.2.fault cause) ∨ fault = .unknownUnit entry.1 := by
  unfold entryFault? at failed
  split at failed
  next => exact .inl (StepRange.values_fault ((faultOf?_eq_some_iff _ fault).mp failed))
  next => exact .inr (Option.some.inj failed).symm

theorem faultOf?_of (r : StepRange) (suffix : String) :
    faultOf? (of r suffix) = faultOf? r.values :=
  faultOf?_bind_pure r.values _

-- The unit is looked up before the range is judged.
theorem faultOf?_each (config : List (String × StepRange)) :
    faultOf? (each config) = config.findSome? entryFault? := by
  induction config with
  | nil => rfl
  | cons entry rest ih =>
    obtain ⟨key, range⟩ := entry
    have sized (unit : ScaleUnit) : faultOf? (of range unit.suffix >>= fun scale =>
        each rest >>= fun others => pure ((key, scale) :: others)) =
          (faultOf? range.values).or (faultOf? (each rest)) := by
      rw [← faultOf?_of range unit.suffix]
      exact faultOf?_bind fun scale => faultOf?_bind_pure _ _
    rw [each, faultOf?_bind sized, ScaleUnit.faultOf?_ofKey, ih, findSome?_cons_or, entryFault?]
    by_cases known : ScaleUnit.Known key <;> simp [known]

theorem faultOf?_ofUnits (config : List (String × StepRange)) :
    faultOf? (ofUnits config) = config.findSome? entryFault? := by
  rw [← faultOf?_each]
  exact faultOf?_bind_pure (each config) _

end Scale

theorem Role.readable_of_swatch? {inPalette : Bool} {s : Scalar} {text : String}
    (swatch : swatch? inPalette s = some text) : ∃ color, Oklch.read? text = some color := by
  cases s with
  | number n => cases swatch
  | text value =>
    obtain ⟨⟨_, readable⟩, rfl⟩ : (inPalette = true ∧ (Oklch.read? value).isSome) ∧ value = text := by
      simpa [swatch?] using swatch
    exact Option.isSome_iff_exists.mp readable

theorem ShadeScale.faultOf?_of {text : String} {color : Oklch}
    (readable : Oklch.read? text = some color) :
    faultOf? (of text) =
      if HasRoom color.lightness then none else some (.shadeBase text color.lightness) := by
  have read : Oklch.read text = .ok color := by simp [Oklch.read, readable]
  unfold of
  rw [read]
  simp only [bind, Except.bind]
  by_cases room : HasRoom color.lightness
  · rw [if_pos room, if_pos room]
    rfl
  · rw [if_neg room, if_neg room]
    rfl

end DesignTokens
