import DesignTokens.Project.Disk

set_option autoImplicit false

namespace DesignTokens.Disk

def enter? (place : Place) (name : String) : Option Place :=
  if name = "" || name = "." then some place
  else if name = ".." then some place.dropLast
  else if isName name then some (place ++ [name]) else none

theorem walk_cons_eq_ok (d : Disk) (place : Place) (name : String) (rest : List String)
    (target : Place) :
    d.walk place (name :: rest) = .ok target ↔
      d.isDirectory place = true ∧
        ∃ next, enter? place name = some next ∧ d.walk next rest = .ok target := by
  rw [walk]
  unfold enter?
  cases d.isDirectory place with
  | false => simp
  | true =>
    by_cases idle : (name = "" || name = ".") = true
    · simp [idle]
    · by_cases up : name = ".."
      · simp [up]
      · cases isName name <;> simp [idle, up]

theorem walk_append_eq_ok (d : Disk) (place : Place) (first second : List String)
    (target : Place) :
    d.walk place (first ++ second) = .ok target ↔
      ∃ middle, d.walk place first = .ok middle ∧ d.walk middle second = .ok target := by
  induction first generalizing place with
  | nil => simp [walk]
  | cons name rest ih =>
    simp only [List.cons_append, walk_cons_eq_ok, ih]
    constructor
    · rintro ⟨inside, next, entered, middle, walked, led⟩
      exact ⟨middle, ⟨inside, next, entered, walked⟩, led⟩
    · rintro ⟨middle, ⟨inside, next, entered, walked⟩, led⟩
      exact ⟨inside, next, entered, middle, walked, led⟩

def origin (directory : Place) (p : Path) : Place := if Path.isAbsolute p then [] else directory

def steps (p : Path) : List String := if Path.isAbsolute p then (names p).tail else names p

theorem locate?_eq_some (d : Disk) (directory : Place) (p : Path) (place : Place) :
    d.locate? directory p = some place ↔
      isPath p = true ∧ p.isEmpty = false ∧ d.walk (origin directory p) (steps p) = .ok place := by
  have answered : d.locate? directory p = some place ↔ d.locate directory p = .ok place := by
    unfold locate?
    cases d.locate directory p <;> simp [Except.toOption]
  rw [answered, locate]
  unfold origin steps
  cases isPath p <;> cases p.isEmpty <;> cases Path.isAbsolute p <;> simp

structure Extends (d d' : Disk) : Prop where
  files : d'.files = d.files
  directories : ∀ place, d.isDirectory place = true → d'.isDirectory place = true

theorem Extends.refl (d : Disk) : d.Extends d := ⟨rfl, fun _ inside => inside⟩

theorem Extends.trans {d d' d'' : Disk} (first : d.Extends d') (second : d'.Extends d'') :
    d.Extends d'' :=
  ⟨second.files.trans first.files, fun place inside =>
    second.directories place (first.directories place inside)⟩

theorem walk_of_directories {d d' : Disk}
    (more : ∀ place, d.isDirectory place = true → d'.isDirectory place = true)
    (names : List String) {place target : Place} (led : d.walk place names = .ok target) :
    d'.walk place names = .ok target := by
  induction names generalizing place with
  | nil => exact led
  | cons name rest ih =>
    rw [walk_cons_eq_ok] at led ⊢
    obtain ⟨inside, next, entered, walked⟩ := led
    exact ⟨more place inside, next, entered, ih walked⟩

theorem locate?_of_directories {d d' : Disk}
    (more : ∀ place, d.isDirectory place = true → d'.isDirectory place = true)
    {directory : Place} {p : Path} {place : Place} (led : d.locate? directory p = some place) :
    d'.locate? directory p = some place := by
  rw [locate?_eq_some] at led ⊢
  exact ⟨led.1, led.2.1, walk_of_directories more _ led.2.2⟩

theorem locate?_congr {d d' : Disk} (same : d'.directories = d.directories) (directory : Place)
    (p : Path) : d'.locate? directory p = d.locate? directory p := by
  have inside (place : Place) : d'.isDirectory place = d.isDirectory place := by
    simp [isDirectory, same]
  apply Option.ext
  intro place
  constructor
  · exact locate?_of_directories fun place => by simp [inside]
  · exact locate?_of_directories fun place => by simp [inside]

theorem lookup_replaced (files : List (Place × String)) (place other : Place) (text : String) :
    (files.map fun f => if f.1 = place then (place, text) else f).lookup other =
      if other = place then (files.lookup place).map fun _ => text else files.lookup other := by
  induction files with
  | nil => simp
  | cons f rest ih =>
    obtain ⟨own, old⟩ := f
    rw [List.map_cons, List.lookup_cons, List.lookup_cons, List.lookup_cons, ih]
    by_cases here : own = place
    · subst here
      by_cases same : other = own
      · simp [same]
      · simp [same, beq_eq_false_iff_ne.mpr same]
    · by_cases same : other = place
      · subst same
        simp [here, beq_eq_false_iff_ne.mpr (Ne.symm here)]
      · simp [here, same]

theorem lookup_insertFile (files : List (Place × String)) (place other : Place) (text : String) :
    (insertFile files place text).lookup other =
      if other = place then some text else files.lookup other := by
  unfold insertFile
  cases found : files.lookup place with
  | some old => simp [lookup_replaced, found]
  | none =>
    rw [if_neg (by simp), List.lookup_append, List.lookup_cons, List.lookup_nil]
    grind

theorem write?_eq_some (d : Disk) (directory : Place) (p : Path) (text : String) (d' : Disk) :
    d.write? directory p text = some d' ↔
      ∃ place, d.locate? directory p = some place ∧ d.isDirectory place = false ∧
        d.isDirectory place.dropLast = true ∧
        d' = { d with files := insertFile d.files place text } := by
  unfold write?
  cases d.locate? directory p with
  | none => simp
  | some place =>
    cases here : d.isDirectory place
    next => cases above : d.isDirectory place.dropLast <;> simp [here, above, @eq_comm _ d']
    next => simp [here]

theorem write?_effect {d d' : Disk} {directory : Place} {p : Path} {text : String}
    (written : d.write? directory p text = some d') :
    ∃ own, d.locate? directory p = some own ∧ d'.directories = d.directories ∧
      ∀ place, d'.file? place = if place = own then some text else d.file? place := by
  obtain ⟨own, led, -, -, rfl⟩ := (write?_eq_some ..).mp written
  exact ⟨own, led, rfl, fun place => lookup_insertFile ..⟩

theorem makeDirectory_extends {d d' : Disk} {directory : Place} {p : Path}
    (made : d.makeDirectory directory p = .ok d') : d.Extends d' := by
  unfold makeDirectory at made
  simp only [bind, Except.bind, pure, Except.pure, throw, throwThe, MonadExceptOf.throw] at made
  split at made
  next => cases made
  next =>
    split at made
    next => cases made
    next place _ =>
      split at made
      next => cases made
      next =>
        obtain rfl := Except.ok.inj made
        refine ⟨rfl, fun other inside => ?_⟩
        simp only [isDirectory, List.contains_append, Bool.or_eq_true] at inside ⊢
        exact inside.imp_right .inl

theorem makeDirectories_extends (directory : Place) (fuel : Nat) (p : Path) (d : Disk) :
    d.Extends (makeDirectories directory fuel p d).1 := by
  induction fuel generalizing p d with
  | zero => exact .refl d
  | succ fuel ih =>
    rw [makeDirectories]
    split
    next => exact .refl d
    next =>
      split
      next d' _ made => exact makeDirectory_extends made
      next parent _ _ =>
        have parents := ih parent d
        split
        next d' without => rwa [without] at parents
        next d' there =>
          rw [there] at parents
          split
          next d'' made => exact parents.trans (makeDirectory_extends made)
          next => exact parents
      next => exact .refl d

theorem file?_of_extends {d d' : Disk} (more : d.Extends d') (place : Place) :
    d'.file? place = d.file? place := by
  simp [file?, more.files]

def writeAll? (d : Disk) (directory : Place) (writes : List (Path × String)) : Option Disk :=
  writes.foldlM (fun d w => d.write? directory w.1 w.2) d

theorem writeAll?_append (d : Disk) (directory : Place) (first second : List (Path × String)) :
    d.writeAll? directory (first ++ second) =
      (d.writeAll? directory first).bind fun d => d.writeAll? directory second := by
  simp [writeAll?, List.foldlM_append]

def lastAt? (d : Disk) (directory : Place) (writes : List (Path × String)) (place : Place) :
    Option String :=
  (writes.reverse.find? fun w => d.locate? directory w.1 == some place).map Prod.snd

theorem lastAt?_append (d : Disk) (directory : Place) (first second : List (Path × String))
    (place : Place) :
    d.lastAt? directory (first ++ second) place =
      (d.lastAt? directory second place).or (d.lastAt? directory first place) := by
  simp only [lastAt?, List.reverse_append, List.find?_append]
  cases second.reverse.find? fun w => d.locate? directory w.1 == some place <;> rfl

theorem lastAt?_congr {d d' : Disk} (same : d'.directories = d.directories) (directory : Place)
    (writes : List (Path × String)) (place : Place) :
    d'.lastAt? directory writes place = d.lastAt? directory writes place := by
  simp only [lastAt?, locate?_congr same]

theorem writeAll?_spec {d d' : Disk} {directory : Place} (writes : List (Path × String))
    (written : d.writeAll? directory writes = some d') :
    d'.directories = d.directories ∧
      (∀ w ∈ writes, ∃ place, d.locate? directory w.1 = some place) ∧
      ∀ place, d'.file? place = (d.lastAt? directory writes place).or (d.file? place) := by
  induction writes generalizing d with
  | nil =>
    obtain rfl : d = d' := by simpa [writeAll?] using written
    exact ⟨rfl, by simp, fun place => by simp [lastAt?]⟩
  | cons w rest ih =>
    obtain ⟨next, first, others⟩ : ∃ next, d.write? directory w.1 w.2 = some next ∧
        next.writeAll? directory rest = some d' := Option.bind_eq_some_iff.mp written
    obtain ⟨own, led, same, here⟩ := write?_effect first
    obtain ⟨directories, located, files⟩ := ih others
    simp only [locate?_congr same, lastAt?_congr same] at located files
    refine ⟨directories.trans same, ?_, ?_⟩
    · intro v member
      rcases List.mem_cons.mp member with rfl | later
      · exact ⟨own, led⟩
      · exact located v later
    · intro place
      have alone : d.lastAt? directory [w] place = if place = own then some w.2 else none := by
        by_cases same : place = own <;> simp [lastAt?, led, same, Ne.symm]
      rw [files, here, ← List.singleton_append, lastAt?_append, alone, Option.or_assoc]
      split <;> simp

end DesignTokens.Disk
