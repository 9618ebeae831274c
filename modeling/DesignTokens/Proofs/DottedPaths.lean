import DesignTokens.Proofs.PropertyNames
import DesignTokens.Proofs.PathChecks

set_option autoImplicit false

namespace DesignTokens

namespace Text

theorem splitAll_eq_splitOn (separator : Char) (text : List Char) :
    splitAll separator text = text.splitOn separator := by
  induction text with
  | nil => simp [splitAll, List.splitOn, List.splitOnP, List.splitOnPPrepend]
  | cons c rest ih =>
    rw [splitAll, ih, List.splitOn_cons_eq_if_modifyHead]
    by_cases same : c = separator
    · simp [same]
    · obtain ⟨piece, pieces, split⟩ := List.exists_cons_of_ne_nil (List.splitOn_ne_nil separator rest)
      simp [same, split]

theorem not_mem_of_mem_splitAll {separator : Char} {text piece : List Char}
    (member : piece ∈ splitAll separator text) : separator ∉ piece := by
  induction text generalizing piece with
  | nil => simp_all [splitAll]
  | cons c rest ih =>
    rw [splitAll] at member
    by_cases same : c = separator
    · rcases List.mem_cons.mp (by simpa [same] using member) with rfl | later
      · simp
      · exact ih later
    · cases split : splitAll separator rest with
      | nil =>
        obtain rfl : piece = [c] := by simpa [same, split] using member
        simpa using Ne.symm same
      | cons first pieces =>
        rcases List.mem_cons.mp (by simpa [same, split] using member) with rfl | later
        · have absent := ih (split ▸ List.mem_cons_self)
          simp [absent, Ne.symm same]
        · exact ih (split ▸ List.mem_cons_of_mem _ later)

theorem mem_intercalate_iff {c sep : Char} (other : c ≠ sep) (pieces : List (List Char)) :
    c ∈ [sep].intercalate pieces ↔ ∃ piece ∈ pieces, c ∈ piece := by
  induction pieces with
  | nil => simp
  | cons piece rest ih =>
    by_cases last : rest = []
    · simp [last]
    · simp [List.intercalate_cons_of_ne_nil last, ih, other]

end Text

namespace Reference

variable {references : References}

def keysOf (text : String) : List String :=
  (Text.splitAll '.' text.toList).map String.ofList

theorem keysOf_joined {path : List String} (solid : path ≠ [])
    (pointless : ∀ key ∈ path, '.' ∉ key.toList) : keysOf (Check.joined "." path) = path := by
  have pieces : (path.map String.toList) ≠ [] := by simpa using solid
  rw [Check.joined, keysOf, String.toList_intercalate, Text.splitAll_eq_splitOn]
  change ((['.'].intercalate (path.map String.toList)).splitOn '.').map String.ofList = path
  rw [List.splitOn_intercalate '.' (by simpa using pointless) pieces]
  simp [Function.comp_def]

theorem pointless_keysOf {text key : String} (member : key ∈ keysOf text) :
    '.' ∉ key.toList := by
  obtain ⟨piece, split, rfl⟩ := List.mem_map.mp member
  simpa using Text.not_mem_of_mem_splitAll split

theorem reached_cons {first : String} {reference : Reference} {rest : References} {path : List String}
    {expression : String}
    (reached : at? path (.group ((first, reference) :: rest)) = some (.use expression)) :
    (∃ tail, path = first :: tail ∧ at? tail reference = some (.use expression)) ∨
      at? path (.group rest) = some (.use expression) := by
  cases path with
  | nil => simp [at?] at reached
  | cons key tail =>
    by_cases same : first = key
    · exact .inl ⟨tail, by rw [same], by simpa [at?, down?, OrderedMap.get?_cons, same] using reached⟩
    · exact .inr (by simpa [at?, down?, OrderedMap.get?_cons, same] using reached)

theorem eq_of_at?_use {path : List String} {expression reached : String}
    (found : at? path (.use expression) = some (.use reached)) :
    path = [] ∧ expression = reached := by
  cases path with
  | nil => exact ⟨rfl, Reference.use.inj (Option.some.inj found)⟩
  | cons key rest => simp [at?, down?] at found

end Reference

theorem Mirrors.of_at? {settings : Settings} {short? : String → Option String}
    {base : List String} {o : Outline} {references : References}
    (mirrors : Mirrors settings short? base o references) {path : List String}
    {expression : String}
    (reached : Reference.at? path (.group references) = some (.use expression)) :
    ∃ name fallback, short? (authoredName settings (base ++ path)) = some name ∧
      expression = (VarCall.mk name fallback).write := by
  induction mirrors generalizing path with
  | nil base => cases path <;> simp [Reference.at?, Reference.down?] at reached
  | leaf base first content name given _ ih =>
    rcases Reference.reached_cons reached with ⟨tail, rfl, here⟩ | later
    · obtain ⟨rfl, rfl⟩ := Reference.eq_of_at?_use here
      exact ⟨name, content.value?, given, rfl⟩
    · exact ih later
  | blank base key _ ih => exact ih reached
  | group base first _ _ ihm ihr =>
    rcases Reference.reached_cons reached with ⟨tail, rfl, below⟩ | later
    · obtain ⟨name, fallback, given, written⟩ := ihm below
      exact ⟨name, fallback, by simpa using given, written⟩
    · exact ihr later

theorem VarCall.exists_stop (call : VarCall) : ∃ stop rest, Text.isNameChar stop = false ∧
    call.write.toList = "var(".toList ++ (call.name.toList ++ stop :: rest) := by
  rw [toList_write, inner]
  cases call.fallback with
  | none => exact ⟨')', [], by decide, rfl⟩
  | some text => exact ⟨',', ' ' :: Commas.spaced text.toList ++ [')'], by decide, by simp⟩

theorem eq_of_stops {tail other rest rest' : List Char} {stop stop' : Char}
    (inName : ∀ c ∈ tail, Text.isNameChar c = true)
    (inName' : ∀ c ∈ other, Text.isNameChar c = true)
    (stops : Text.isNameChar stop = false) (stops' : Text.isNameChar stop' = false)
    (same : tail ++ stop :: rest = other ++ stop' :: rest') : tail = other := by
  have cut := congrArg (List.takeWhile Text.isNameChar) same
  rwa [List.takeWhile_append_of_pos inName, List.takeWhile_append_of_pos inName',
    List.takeWhile_cons_of_neg (by simp [stops]), List.takeWhile_cons_of_neg (by simp [stops']),
    List.append_nil, List.append_nil] at cut

-- Whatever characters the scope has, it stands at the start of both names and cancels.
theorem NameTable.eq_of_write (T : NameTable) {a b m n : String} {first second : Option String}
    (givenA : T.short? a = some m) (givenB : T.short? b = some n)
    (same : (VarCall.mk m first).write = (VarCall.mk n second).write) : a = b := by
  obtain ⟨i, _, nameA⟩ := Option.map_eq_some_iff.mp givenA
  obtain ⟨j, _, nameB⟩ := Option.map_eq_some_iff.mp givenB
  obtain ⟨tail, inName, own⟩ := ShortName.exists_counted T.scope i
  obtain ⟨other, inName', own'⟩ := ShortName.exists_counted T.scope j
  have listA : m.toList = "--".toList ++ ((T.scope.getD "").toList ++ tail) := by
    rw [← nameA, NameTable.property, String.toList_append, own]
  have listB : n.toList = "--".toList ++ ((T.scope.getD "").toList ++ other) := by
    rw [← nameB, NameTable.property, String.toList_append, own']
  obtain ⟨stop, rest, stops, textA⟩ := VarCall.exists_stop ⟨m, first⟩
  obtain ⟨stop', rest', stops', textB⟩ := VarCall.exists_stop ⟨n, second⟩
  have texts := congrArg String.toList same
  simp only [textA, textB, listA, listB, List.append_assoc, List.append_cancel_left_eq] at texts
  obtain rfl := eq_of_stops inName inName' stops stops' texts
  obtain rfl : m = n := String.toList_inj.mp (by rw [listA, listB])
  exact T.short?_injective givenA givenB

theorem Check.point_mem_joined_iff (path : List String) :
    '.' ∈ (Check.joined "-" path).toList ↔ ∃ key ∈ path, '.' ∈ key.toList := by
  have other : '.' ≠ '-' := by decide
  rw [Check.joined, String.toList_intercalate]
  simpa using Text.mem_intercalate_iff other (path.map String.toList)

theorem Reference.ne_nil_of_at?_use {references : References} {path : List String}
    {expression : String} (reached : at? path (.group references) = some (.use expression)) :
    path ≠ [] := by
  rintro rfl
  simp [at?] at reached

theorem joined_eq_of_at? {tokens : Group} {settings : Settings} {c : Compilation}
    (compiled : compile tokens settings = .ok c) {path other : List String} {expression : String}
    (reached : Reference.at? path (.group c.references) = some (.use expression))
    (found : Reference.at? other (.group c.references) = some (.use expression)) :
    Check.joined "-" path = Check.joined "-" other := by
  obtain ⟨T, flat, mirrors⟩ := flat_mirrors_of_compile compiled
  obtain ⟨name, _, given, written⟩ := mirrors.of_at? reached
  obtain ⟨name', _, given', written'⟩ := mirrors.of_at? found
  rw [flat.short?_eq] at given given'
  have sameName := T.eq_of_write given given' (written.symm.trans written')
  rwa [List.nil_append, List.nil_append,
    authoredName_eq settings (Reference.ne_nil_of_at?_use reached),
    authoredName_eq settings (Reference.ne_nil_of_at?_use found),
    String.append_right_inj] at sameName

/--
A leaf of the references is found again by its path written with points exactly if none of its keys
has a point. With one, the text is cut inside that key and leads elsewhere or nowhere.
-/
theorem dotted_leaf_iff (tokens : Group) (settings : Settings) (c : Compilation)
    (compiled : compile tokens settings = .ok c) (path : List String) (expression : String)
    (reached : Reference.at? path (.group c.references) = some (.use expression)) :
    Reference.dotted? c.references (Check.joined "." path) = some (.use expression) ↔
      ∀ key ∈ path, '.' ∉ key.toList := by
  have cut : Reference.dotted? c.references (Check.joined "." path) =
      Reference.at? (Reference.keysOf (Check.joined "." path)) (.group c.references) := rfl
  rw [cut]
  constructor
  · intro found key member point
    -- One leaf, one property: its name has the point, but no key that was cut out has it.
    have same := joined_eq_of_at? compiled reached found
    have named := (Check.point_mem_joined_iff path).mpr ⟨key, member, point⟩
    rw [same, Check.point_mem_joined_iff] at named
    obtain ⟨piece, inside, pointed⟩ := named
    exact Reference.pointless_keysOf inside pointed
  · intro pointless
    rw [Reference.keysOf_joined (Reference.ne_nil_of_at?_use reached) pointless]
    exact reached

def Reference.expression? : Reference → Option String
  | .use expression => some expression
  | .group _ => none

def Group.halfSteps : Group :=
  [("units", .group [("rem", .list [
    .scalar (.number 0), .scalar (.number 0.5), .scalar (.number 0.5)])])]

-- The compiler makes the key 0.5 itself, and the look-up goes on below a key 0.
theorem dotted_leaf_halfSteps :
    ∃ c expression, compile .halfSteps .sample = .ok c ∧
      Reference.at? ["units", "rem", "0.5"] (.group c.references) = some (.use expression) ∧
      Reference.dotted? c.references "units.rem.0.5" ≠ some (.use expression) := by
  obtain ⟨c, compiled⟩ := exists_of_isOk .halfSteps .sample (by decide +kernel)
  have reads : ((compile .halfSteps .sample).toOption.bind fun c =>
      (Reference.at? ["units", "rem", "0.5"] (.group c.references)).bind
        Reference.expression?) = some "var(--d1, 0.5rem)" := by decide +kernel
  have reached : Reference.at? ["units", "rem", "0.5"] (.group c.references) =
      some (.use "var(--d1, 0.5rem)") := by
    rw [compiled] at reads
    change (Reference.at? _ (.group c.references)).bind _ = _ at reads
    obtain ⟨reference, found, text⟩ := Option.bind_eq_some_iff.mp reads
    cases reference with
    | use expression => rw [found, Option.some.inj text]
    | group members => cases text
  have missed := mt (dotted_leaf_iff _ _ c compiled _ _ reached).mp fun pointless =>
    pointless "0.5" (by decide) (by decide)
  exact ⟨c, _, compiled, reached, missed⟩

end DesignTokens
