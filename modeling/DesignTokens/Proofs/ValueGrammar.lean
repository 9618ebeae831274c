import DesignTokens.Proofs.ColorCalls
import DesignTokens.Proofs.NumeralTypes
import DesignTokens.Proofs.Words

set_option autoImplicit false

namespace DesignTokens

namespace ValueType

open Text Decimal

def Dimension (units : List String) (text : List Char) : Prop :=
  ∃ number unit, Signed Plain number ∧ (∃ u ∈ units, lower unit = lower u.toList) ∧ text = number ++ unit

def Colored (text : List Char) : Prop :=
  (∃ digits, text = '#' :: digits ∧ digits.length ∈ [3, 4, 6, 8] ∧ ∀ c ∈ digits, isHexDigit c = true) ∨
    (∃ function ∈ colorFunctions, function.toList <+: lower text ∧ text.getLast? = some ')') ∨
    ∃ name ∈ namedColors, lower text = name.toList

def Reads : ValueType → List Char → Prop
  | .color => Colored
  | .length => Dimension lengthUnits
  | .percentage => Dimension ["%"]
  | .time => Dimension timeUnits
  | .angle => Dimension angleUnits
  | .integer => Signed fun digits => digits ≠ [] ∧ AreDigits digits
  | .number => Signed fun body => Plain body ∧ '.' ∈ body
  | .universal => fun text => ¬ Colored text ∧
      (∀ units ∈ [lengthUnits, ["%"], timeUnits, angleUnits], ¬ Dimension units text) ∧ ¬ Signed Plain text

def tested : List ValueType := [.color, .length, .percentage, .time, .angle, .integer, .number]

def test : ValueType → List Char → Bool
  | .color => isColor
  | .length => hasUnit lengthUnits
  | .percentage => hasUnit ["%"]
  | .time => hasUnit timeUnits
  | .angle => hasUnit angleUnits
  | .integer => isInteger
  | .number => isNumber
  | .universal => fun _ => false

def firstOf (order : List ValueType) (text : List Char) : ValueType :=
  (order.find? fun kind => test kind text).getD .universal

theorem not_function_of_hash {text digits : List Char} (hash : lower text = '#' :: digits) :
    ∀ function ∈ colorFunctions, ¬ function.toList <+: lower text := by
  intro function listed opens
  obtain ⟨written, head⟩ := head_of_colorFunctions function listed
  obtain ⟨c, rest, split⟩ := List.exists_cons_of_ne_nil written
  rw [hash, split] at opens
  obtain ⟨rfl, _⟩ := List.cons_prefix_cons.mp opens
  exact head (by rw [split]; rfl)

theorem not_name_of_hash {text digits : List Char} (hash : lower text = '#' :: digits) :
    ∀ name ∈ namedColors, lower text ≠ name.toList := by
  intro name listed same
  have letters := List.all_eq_true.mp (letters_of_namedColors name listed) '#'
  rw [← same, hash] at letters
  exact absurd (letters List.mem_cons_self) (by decide)

theorem mem_namedColors_iff (text : List Char) :
    String.ofList text ∈ namedColors ↔ ∃ name ∈ namedColors, text = name.toList := by
  constructor
  · intro listed
    exact ⟨_, listed, String.toList_ofList.symm⟩
  · rintro ⟨name, listed, same⟩
    rwa [same, String.ofList_toList]

theorem isColor_iff (text : List Char) : isColor text = true ↔ Colored text := by
  rw [isColor, Colored]
  split
  next hex hash =>
    have noFunction : ¬ ∃ function ∈ colorFunctions, function.toList <+: lower text ∧
        text.getLast? = some ')' := by
      rintro ⟨function, listed, opens, _⟩
      exact not_function_of_hash hash function listed opens
    have noName : ¬ ∃ name ∈ namedColors, lower text = name.toList := by
      rintro ⟨name, listed, same⟩
      exact not_name_of_hash hash name listed same
    rw [or_iff_left noName, or_iff_left noFunction]
    obtain ⟨c, digits, rfl, first, rfl⟩ := List.map_eq_cons_iff.mp hash
    obtain rfl := (toLower_eq_iff (by decide) c).mp first
    have lengths : (digits.map Char.toLower).length = digits.length := List.length_map _
    simp [lengths, isHexDigit_toLower]
  next unhashed =>
    have noHash : ¬ ∃ digits, text = '#' :: digits ∧ digits.length ∈ [3, 4, 6, 8] ∧
        ∀ c ∈ digits, isHexDigit c = true := by
      rintro ⟨digits, rfl, _⟩
      exact unhashed (lower digits) rfl
    simp only [noHash, false_or, Bool.or_eq_true, Bool.and_eq_true, beq_iff_eq, getLast?_lower_iff,
      List.any_eq_true, List.isPrefixOf_iff_prefix, List.contains_iff_mem, mem_namedColors_iff]
    constructor
    · rintro (⟨closes, function, listed, opens⟩ | name)
      · exact .inl ⟨function, listed, opens, closes⟩
      · exact .inr name
    · rintro (⟨function, listed, opens, closes⟩ | name)
      · exact .inl ⟨closes, function, listed, opens⟩
      · exact .inr name

theorem isInteger_iff (text : List Char) : isInteger text = true ↔ Reads .integer text := by
  rw [Reads, signed_iff (fun rest digits c first => .inl (digits.2 c (List.mem_of_mem_head? first))), isInteger]
  simp [AreDigits]

theorem signed_plain_iff_reads (text : List Char) :
    Signed Plain text ↔ Reads .integer text ∨ Reads .number text := by
  constructor
  · rintro ⟨sign, body, isSign, plain, rfl⟩
    by_cases pointed : '.' ∈ body
    · exact .inr ⟨sign, body, isSign, ⟨plain, pointed⟩, rfl⟩
    · obtain ⟨c, member, _⟩ := plain.hasDigit
      refine .inl ⟨sign, body, isSign, ⟨List.ne_nil_of_mem member, fun d inside => ?_⟩, rfl⟩
      rcases plain.chars d inside with digit | rfl
      · exact digit
      · exact absurd inside pointed
  · rintro (⟨sign, body, isSign, ⟨written, digits⟩, rfl⟩ | ⟨sign, body, isSign, ⟨plain, _⟩, rfl⟩)
    · exact ⟨sign, body, isSign, plain_of_digits digits written, rfl⟩
    · exact ⟨sign, body, isSign, plain, rfl⟩

theorem head_of_colorFunctions_isLower :
    (colorFunctions.all fun function => function.toList.head?.any Char.isLower) = true := by
  decide

theorem not_isNumeral_of_colored {c : Char} {rest : List Char} (colored : Colored (c :: rest)) :
    isNumeral c = false := by
  rw [← Bool.not_eq_true]
  intro numeral
  have small : c.toLower.isLower = false := by
    rw [toLower_of_isNumeral numeral]
    exact isLower_of_isNumeral numeral
  rcases colored with ⟨digits, same, _⟩ | ⟨function, listed, opens, _⟩ | ⟨name, listed, same⟩
  · obtain rfl := (List.cons.inj same).1
    cases numeral
  · have head := List.all_eq_true.mp head_of_colorFunctions_isLower function listed
    cases letters : function.toList with
    | nil => simp [letters] at head
    | cons d behind =>
      rw [letters] at opens head
      obtain ⟨rfl, _⟩ := List.cons_prefix_cons.mp opens
      simp [small] at head
  · have letters := List.all_eq_true.mp (letters_of_namedColors name listed) c.toLower
    rw [← same, small] at letters
    exact absurd (letters List.mem_cons_self) (by decide)

def unitsOf : ValueType → List String
  | .length => lengthUnits
  | .percentage => ["%"]
  | .time => timeUnits
  | .angle => angleUnits
  | _ => []

def dimensions : List ValueType := [.length, .percentage, .time, .angle]

def ofParts (number unit : List Char) : ValueType :=
  if unit.isEmpty then if number.contains '.' then .number else .integer
  else (dimensions.find? fun kind => (unitsOf kind).contains (String.ofList unit)).getD .universal

-- No unit is empty, begins like a number or belongs to two types.
theorem units_apart : (dimensions.all fun kind => (unitsOf kind).all fun u =>
    (lower u.toList).head?.any (! isNumeral ·) && (ofParts [] (lower u.toList) == kind)) = true := by
  decide +kernel

theorem ofParts_unit {kind : ValueType} (dimension : kind ∈ dimensions) {u : String}
    (listed : u ∈ unitsOf kind) (number : List Char) :
    (lower u.toList).head?.any (! isNumeral ·) = true ∧ ofParts number (lower u.toList) = kind := by
  have apart := List.all_eq_true.mp (List.all_eq_true.mp units_apart kind dimension) u listed
  simp only [Bool.and_eq_true, beq_iff_eq] at apart
  refine ⟨apart.1, ?_⟩
  have written : (lower u.toList).isEmpty = false := by
    cases letters : lower u.toList with
    | nil => simp [letters] at apart
    | cons => rfl
  have same := apart.2
  rw [ofParts, written] at same ⊢
  exact same

theorem isNumeral_toLower {c : Char} (numeral : isNumeral c = true) : isNumeral c.toLower = true := by
  rwa [toLower_of_isNumeral numeral]

theorem head_of_lower {unit : List Char} (stops : (lower unit).head?.any (! isNumeral ·) = true) :
    unit.head?.any isNumeral = false := by
  cases unit with
  | nil => rfl
  | cons c rest =>
    rw [← Bool.not_eq_true]
    intro numeral
    have start : (! isNumeral c.toLower) = true := stops
    rw [isNumeral_toLower numeral] at start
    cases start

theorem cut_number {number unit : List Char} (signed : Signed Plain number)
    (stops : unit.head?.any isNumeral = false) :
    (number ++ unit).takeWhile isNumeral = number ∧ (number ++ unit).dropWhile isNumeral = unit := by
  obtain ⟨_, numerals⟩ := isNumeral_of_signed signed
  rw [List.takeWhile_append_of_pos numerals, List.dropWhile_append_of_pos numerals]
  cases unit with
  | nil => simp
  | cons c rest =>
    have stop : isNumeral c = false := stops
    simp [stop]

def IsParted (kind : ValueType) (text : List Char) : Prop :=
  text.head?.any isNumeral = true ∧
    kind = ofParts (text.takeWhile isNumeral) (lower (text.dropWhile isNumeral))

theorem head_of_signed {number : List Char} (signed : Signed Plain number) (unit : List Char) :
    (number ++ unit).head?.any isNumeral = true := by
  obtain ⟨written, numerals⟩ := isNumeral_of_signed signed
  obtain ⟨c, rest, rfl⟩ := List.exists_cons_of_ne_nil written
  exact numerals c List.mem_cons_self

theorem isParted_of_dimension {kind : ValueType} (dimension : kind ∈ dimensions) {text : List Char}
    (held : Dimension (unitsOf kind) text) : IsParted kind text := by
  obtain ⟨number, unit, signed, ⟨u, listed, same⟩, rfl⟩ := held
  obtain ⟨stops, type⟩ := ofParts_unit dimension listed number
  rw [← same] at stops type
  obtain ⟨front, behind⟩ := cut_number signed (head_of_lower stops)
  refine ⟨head_of_signed signed unit, ?_⟩
  rw [front, behind, type]

theorem isParted_of_signed {text : List Char} (signed : Signed Plain text) :
    IsParted (if text.contains '.' then .number else .integer) text := by
  obtain ⟨front, behind⟩ := cut_number signed (show ([] : List Char).head?.any isNumeral = false from rfl)
  have head := head_of_signed signed []
  rw [List.append_nil] at front behind head
  refine ⟨head, ?_⟩
  rw [front, behind]
  rfl

theorem contains_point_of_signed {body : List Char → Prop} {text : List Char} (signed : Signed body text) :
    ∃ rest, body rest ∧ ('.' ∈ text ↔ '.' ∈ rest) := by
  obtain ⟨sign, rest, isSign, held, rfl⟩ := signed
  refine ⟨rest, held, ?_⟩
  have pointless : '.' ∉ sign := by
    rcases isSign with rfl | rfl | rfl <;> decide
  simp [pointless]

theorem isParted_of_integer {text : List Char} (reads : Reads .integer text) : IsParted .integer text := by
  obtain ⟨digits, ⟨_, all⟩, point⟩ := contains_point_of_signed reads
  have pointless : '.' ∉ text := fun member => absurd (all '.' (point.mp member)) (by decide)
  have parted := isParted_of_signed ((signed_plain_iff_reads text).mpr (.inl reads))
  simpa [pointless] using parted

theorem isParted_of_number {text : List Char} (reads : Reads .number text) : IsParted .number text := by
  obtain ⟨body, ⟨_, pointed⟩, point⟩ := contains_point_of_signed reads
  have parted := isParted_of_signed ((signed_plain_iff_reads text).mpr (.inr reads))
  simpa [point.mpr pointed] using parted

theorem isParted_of_reads {kind : ValueType} {text : List Char} (reads : Reads kind text)
    (told : kind ≠ .universal) (numeric : kind ≠ .color) : IsParted kind text := by
  cases kind with
  | color => exact absurd rfl numeric
  | length => exact isParted_of_dimension (show ValueType.length ∈ dimensions by decide) reads
  | percentage => exact isParted_of_dimension (show ValueType.percentage ∈ dimensions by decide) reads
  | time => exact isParted_of_dimension (show ValueType.time ∈ dimensions by decide) reads
  | angle => exact isParted_of_dimension (show ValueType.angle ∈ dimensions by decide) reads
  | integer => exact isParted_of_integer reads
  | number => exact isParted_of_number reads
  | universal => exact absurd rfl told

theorem not_isParted_of_colored {kind : ValueType} {text : List Char} (colored : Colored text) :
    ¬ IsParted kind text := by
  rintro ⟨head, _⟩
  cases text with
  | nil => cases head
  | cons c rest =>
    have numeral : isNumeral c = true := head
    rw [not_isNumeral_of_colored colored] at numeral
    cases numeral

theorem not_reads_universal {kind : ValueType} {text : List Char} (reads : Reads kind text)
    (told : kind ≠ .universal) : ¬ Reads .universal text := by
  rintro ⟨colorless, unitless, numberless⟩
  cases kind with
  | color => exact colorless reads
  | length | percentage | time | angle => exact unitless _ (by simp) reads
  | integer => exact numberless ((signed_plain_iff_reads text).mpr (.inl reads))
  | number => exact numberless ((signed_plain_iff_reads text).mpr (.inr reads))
  | universal => exact told rfl

theorem reads_unique {a b : ValueType} {text : List Char} (readsA : Reads a text) (readsB : Reads b text) :
    a = b := by
  by_cases universalA : a = .universal
  · subst universalA
    by_contra other
    exact not_reads_universal readsB (Ne.symm other) readsA
  by_cases universalB : b = .universal
  · subst universalB
    exact absurd readsB (not_reads_universal readsA universalA)
  by_cases colorA : a = .color
  · subst colorA
    by_contra other
    exact not_isParted_of_colored readsA (isParted_of_reads readsB universalB (Ne.symm other))
  by_cases colorB : b = .color
  · subst colorB
    exact absurd (isParted_of_reads readsA universalA colorA) (not_isParted_of_colored readsB)
  rw [(isParted_of_reads readsA universalA colorA).2, (isParted_of_reads readsB universalB colorB).2]

theorem hasUnit_iff {kind : ValueType} (dimension : kind ∈ dimensions) (text : List Char) :
    hasUnit (unitsOf kind) text = true ↔ Dimension (unitsOf kind) text := by
  simp only [hasUnit, Bool.and_eq_true, isNumber_iff, List.any_eq_true, sameIgnoringCase, beq_iff_eq]
  constructor
  · rintro ⟨signed, unit⟩
    exact ⟨_, _, signed, unit, List.takeWhile_append_dropWhile.symm⟩
  · rintro ⟨number, unit, signed, ⟨u, listed, same⟩, rfl⟩
    obtain ⟨stops, _⟩ := ofParts_unit dimension listed number
    rw [← same] at stops
    obtain ⟨front, behind⟩ := cut_number signed (head_of_lower stops)
    rw [front, behind]
    exact ⟨signed, u, listed, same⟩

theorem test_iff {kind : ValueType} (told : kind ≠ .universal) (text : List Char) :
    test kind text = true ↔ Reads kind text ∨ (kind = .number ∧ Reads .integer text) := by
  have alone (other : kind ≠ .number) (same : test kind text = true ↔ Reads kind text) :
      test kind text = true ↔ Reads kind text ∨ (kind = .number ∧ Reads .integer text) := by
    rw [same]
    simp [other]
  cases kind with
  | color => exact alone (by decide) (isColor_iff text)
  | length => exact alone (by decide) (hasUnit_iff (show ValueType.length ∈ dimensions by decide) text)
  | percentage => exact alone (by decide) (hasUnit_iff (show ValueType.percentage ∈ dimensions by decide) text)
  | time => exact alone (by decide) (hasUnit_iff (show ValueType.time ∈ dimensions by decide) text)
  | angle => exact alone (by decide) (hasUnit_iff (show ValueType.angle ∈ dimensions by decide) text)
  | integer => exact alone (by decide) (isInteger_iff text)
  | number =>
    have numbers : test .number text = true ↔ Reads .integer text ∨ Reads .number text :=
      (isNumber_iff text).trans (signed_plain_iff_reads text)
    rw [numbers]
    simp [or_comm]
  | universal => exact absurd rfl told

theorem exists_reads (text : List Char) : ∃ kind, Reads kind text := by
  by_contra unread
  have unreadAs (kind : ValueType) : ¬ Reads kind text := fun reads => unread ⟨kind, reads⟩
  refine unreadAs .universal ⟨unreadAs .color, ?_, fun signed => ?_⟩
  · simp only [List.forall_mem_cons, List.not_mem_nil, false_imp_iff, implies_true, and_true]
    exact ⟨unreadAs .length, unreadAs .percentage, unreadAs .time, unreadAs .angle⟩
  · rcases (signed_plain_iff_reads text).mp signed with whole | pointed
    · exact unreadAs .integer whole
    · exact unreadAs .number pointed

theorem find?_eq_first {order : List ValueType} {p : ValueType → Bool} {a b : ValueType}
    (passes : ∀ kind ∈ order, p kind = true ↔ kind = a ∨ kind = b) (memberA : a ∈ order) (memberB : b ∈ order) :
    order.find? p = some (if order.idxOf b < order.idxOf a then b else a) := by
  induction order with
  | nil => cases memberA
  | cons kind rest ih =>
    have here := passes kind List.mem_cons_self
    by_cases first : kind = a
    · subst first
      simp [here]
    by_cases second : kind = b
    · subst second
      simp [here, first]
    · have behind := ih (fun other member => passes other (List.mem_cons_of_mem kind member))
        (List.mem_of_ne_of_mem (Ne.symm first) memberA) (List.mem_of_ne_of_mem (Ne.symm second) memberB)
      have fails : p kind = false := by
        rw [← Bool.not_eq_true, here]
        exact not_or.mpr ⟨first, second⟩
      rw [List.find?_cons_of_neg (by simp [fails]), behind, List.idxOf_cons_ne rest first,
        List.idxOf_cons_ne rest second]
      simp

theorem mem_tested_iff (kind : ValueType) : kind ∈ tested ↔ kind ≠ .universal := by
  cases kind <;> decide

/-- In any order the first test that holds is that of the type, unless numbers come before whole numbers. -/
theorem firstOf_of_reads {order : List ValueType} (perm : order.Perm tested) {kind : ValueType} {text : List Char}
    (reads : Reads kind text) : firstOf order text =
      if kind = .integer ∧ order.idxOf .number < order.idxOf .integer then .number else kind := by
  have told (other : ValueType) : other ∈ order ↔ other ≠ .universal :=
    perm.mem_iff.trans (mem_tested_iff other)
  by_cases universal : kind = .universal
  · subst universal
    have noOther : order.find? (fun other => test other text) = none := by
      apply List.find?_eq_none.mpr
      intro other member passes
      rcases (test_iff ((told other).mp member) text).mp passes with held | ⟨_, held⟩
      · exact (told other).mp member (reads_unique held reads)
      · cases reads_unique held reads
    simp [firstOf, noOther]
  have passes (other : ValueType) (member : other ∈ order) : test other text = true ↔
      other = kind ∨ other = if kind = .integer then .number else kind := by
    rw [test_iff ((told other).mp member)]
    constructor
    · rintro (held | ⟨rfl, held⟩)
      · exact .inl (reads_unique held reads)
      · exact .inr (by rw [if_pos (reads_unique reads held)])
    · split
      next whole =>
        rintro (rfl | rfl)
        · exact .inl reads
        · exact .inr ⟨rfl, whole ▸ reads⟩
      next =>
        rintro (rfl | rfl) <;> exact .inl reads
  have instead : (if kind = .integer then .number else kind) ≠ ValueType.universal := by
    split
    next => decide
    next => exact universal
  have found := find?_eq_first passes ((told kind).mpr universal) ((told _).mpr instead)
  rw [firstOf, found, Option.getD_some]
  by_cases whole : kind = .integer
  · subst whole
    simp
  · simp [whole]

theorem firstOf_cons (kind : ValueType) (order : List ValueType) (text : List Char) :
    firstOf (kind :: order) text = if test kind text then kind else firstOf order text := by
  rw [firstOf, List.find?_cons]
  cases test kind text <;> rfl

theorem ofTrimmed_eq_firstOf (text : List Char) : ofTrimmed text = firstOf tested text := by
  simp only [tested, firstOf_cons]
  rfl

theorem ofTrimmed_of_reads {kind : ValueType} {text : List Char} (reads : Reads kind text) :
    ofTrimmed text = kind := by
  rw [ofTrimmed_eq_firstOf, firstOf_of_reads (List.Perm.refl tested) reads]
  exact if_neg fun swapped => absurd swapped.2 (by decide)

theorem ofTrimmed_eq_iff (text : List Char) (kind : ValueType) : ofTrimmed text = kind ↔ Reads kind text := by
  constructor
  · rintro rfl
    obtain ⟨kind, reads⟩ := exists_reads text
    rwa [ofTrimmed_of_reads reads]
  · exact ofTrimmed_of_reads

theorem eq_of_lower_numerals {text other : List Char} (same : lower other = lower text)
    (numerals : ∀ c ∈ text, isNumeral c = true) : other = text := by
  induction text generalizing other with
  | nil => exact List.map_eq_nil_iff.mp same
  | cons c text ih =>
    obtain ⟨d, rest, rfl, first, behind⟩ := List.map_eq_cons_iff.mp same
    have numeral := numerals c List.mem_cons_self
    obtain ⟨_, most⟩ := range_of_isNumeral numeral
    rw [toLower_of_isNumeral numeral] at first
    rw [(toLower_eq_iff (.inl (by omega)) d).mp first, ih behind fun e member =>
      numerals e (List.mem_cons_of_mem c member)]

theorem dimension_of_lower {units : List String} {text other : List Char} (held : Dimension units text)
    (same : lower other = lower text) : Dimension units other := by
  obtain ⟨number, unit, signed, ⟨u, listed, spelled⟩, rfl⟩ := held
  have parts : lower other = lower number ++ lower unit := same.trans List.map_append
  obtain ⟨front, behind, rfl, sameNumber, sameUnit⟩ := List.map_eq_append_iff.mp parts
  obtain rfl := eq_of_lower_numerals sameNumber (isNumeral_of_signed signed).2
  exact ⟨front, behind, signed, ⟨u, listed, Eq.trans sameUnit spelled⟩, rfl⟩

theorem reads_of_lower {kind : ValueType} (told : kind ≠ .universal) {text other : List Char}
    (reads : Reads kind text) (same : lower other = lower text) : Reads kind other := by
  have whole (signed : Signed Plain text) : other = text :=
    eq_of_lower_numerals same (isNumeral_of_signed signed).2
  cases kind with
  | color =>
    have colors : isColor other = isColor text := by rw [isColor, isColor, same]
    exact (isColor_iff other).mp (colors.trans ((isColor_iff text).mpr reads))
  | length | percentage | time | angle => exact dimension_of_lower reads same
  | integer => rwa [whole ((signed_plain_iff_reads text).mpr (.inl reads))]
  | number => rwa [whole ((signed_plain_iff_reads text).mpr (.inr reads))]
  | universal => exact absurd rfl told

theorem ofTrimmed_of_lower {text other : List Char} (same : lower other = lower text) :
    ofTrimmed other = ofTrimmed text := by
  by_cases told : ofTrimmed text = .universal
  · by_contra differs
    have reads := (ofTrimmed_eq_iff other _).mp rfl
    have back := reads_of_lower (fun universal => differs (universal.trans told.symm)) reads same.symm
    exact differs (ofTrimmed_of_reads back).symm
  · exact ofTrimmed_of_reads (reads_of_lower told ((ofTrimmed_eq_iff text _).mp rfl) same)

/--
A value has exactly the type whose grammar its text has, blanks around it taken off, and no text has the grammar
of two types. The tests give this type in any order that does not put numbers before whole numbers. Blanks
around a value and the case of its letters do not matter.
-/
theorem of_eq_iff_reads (value : String) :
    (∀ kind, of value = kind ↔ Reads kind (trim value.toList)) ∧
      (∀ text a b, Reads a text → Reads b text → a = b) ∧
      (∀ order : List ValueType, order.Perm tested → ∀ text, firstOf order text =
        if ofTrimmed text = .integer ∧ order.idxOf .number < order.idxOf .integer then .number
        else ofTrimmed text) ∧
      (∀ before after : String, Blanks before.toList → Blanks after.toList →
        of (before ++ value ++ after) = of value) ∧
      ∀ other : String, lower other.toList = lower value.toList → of other = of value := by
  refine ⟨fun kind => ofTrimmed_eq_iff _ kind, fun _ _ _ => reads_unique, fun order perm text => ?_,
    fun before after blankBefore blankAfter => ?_, fun other same => ?_⟩
  · exact firstOf_of_reads perm ((ofTrimmed_eq_iff text _).mp rfl)
  · rw [of, of, String.toList_append, String.toList_append, List.append_assoc,
      trim_between_blanks _ blankBefore blankAfter]
  · apply ofTrimmed_of_lower
    rw [lower_trim, lower_trim, same]

theorem of_eq_iff_reads_sample :
    of "+.5Px" = .length ∧ of "\t+.5Px  " = .length ∧ of "+.5pX" = .length ∧
      firstOf tested.reverse ['-', '7'] = .number := by
  obtain ⟨types, _, orders, blanks, letterCase⟩ := of_eq_iff_reads "+.5Px"
  have plain : Plain ([] ++ '.' :: ['5']) := plain_of_point (by simp [AreDigits]) (by simp)
  have length : of "+.5Px" = .length := (types .length).mpr
    ⟨"+.5".toList, "Px".toList, ⟨['+'], _, .inr (.inr rfl), plain, rfl⟩, ⟨"px", by decide, by decide⟩, by decide⟩
  refine ⟨length, ?_, ?_, ?_⟩
  · exact (blanks "\t" "  " (by simp [Blanks, isBlank]) (by simp [Blanks, isBlank])).trans length
  · exact (letterCase "+.5pX" (by decide)).trans length
  · exact orders tested.reverse (List.reverse_perm tested) ['-', '7']

end ValueType

end DesignTokens
