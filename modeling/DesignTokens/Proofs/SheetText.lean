import DesignTokens.Proofs.CallText
import DesignTokens.Proofs.LeafSequence

set_option autoImplicit false

namespace DesignTokens

namespace Text

theorem cut_at (sign : Char) {text text' rest rest' : List Char} (absent : sign ∉ text)
    (absent' : sign ∉ text') (same : text ++ sign :: rest = text' ++ sign :: rest') :
    text = text' ∧ rest = rest' := by
  have cut := congrArg (splitFirst? sign) same
  rw [splitFirst?_append sign text rest absent, splitFirst?_append sign text' rest' absent'] at cut
  exact Prod.mk.inj (Option.some.inj cut)

end Text

namespace Css

open Text

variable {α : Type}

/-- What is written can be told from whatever follows it. -/
def SelfDelimiting (Legible : α → Prop) (write : α → List Char) : Prop :=
  ∀ a b rest rest', Legible a → Legible b → write a ++ rest = write b ++ rest' →
    a = b ∧ rest = rest'

def Opens (Legible : α → Prop) (write : α → List Char) (tail : List Char) : Prop :=
  ∃ a rest, Legible a ∧ write a ++ rest = tail

theorem SelfDelimiting.flatMap {Legible : α → Prop} {write : α → List Char}
    (delimiting : SelfDelimiting Legible write) {tail tail' : List Char}
    (ends : ¬ Opens Legible write tail) (ends' : ¬ Opens Legible write tail') (as bs : List α)
    (legible : ∀ a ∈ as, Legible a) (legible' : ∀ b ∈ bs, Legible b)
    (same : as.flatMap write ++ tail = bs.flatMap write ++ tail') : as = bs ∧ tail = tail' := by
  induction as generalizing bs with
  | nil =>
    cases bs with
    | nil => exact ⟨rfl, same⟩
    | cons b bs =>
      exact absurd ⟨b, bs.flatMap write ++ tail', legible' b (by simp), by simpa using same.symm⟩ ends
  | cons a as ih =>
    cases bs with
    | nil =>
      exact absurd ⟨a, as.flatMap write ++ tail, legible a (by simp), by simpa using same⟩ ends'
    | cons b bs =>
      simp only [List.flatMap_cons, List.append_assoc] at same
      obtain ⟨rfl, rest⟩ := delimiting a b _ _ (legible a (by simp)) (legible' b (by simp)) same
      obtain ⟨rfl, tails⟩ := ih bs (fun a member => legible a (List.mem_cons_of_mem _ member))
        (fun b member => legible' b (List.mem_cons_of_mem _ member)) rest
      exact ⟨rfl, tails⟩

def LegibleName (name : String) : Prop :=
  ':' ∉ name.toList ∧ '\x7b' ∉ name.toList ∧ '\x7d' ∉ name.toList

def LegibleValue (value : String) : Prop := ';' ∉ value.toList

def LegibleDeclaration (d : String × String) : Prop := LegibleName d.1 ∧ LegibleValue d.2

def LegiblePart (part : String × Block) : Prop :=
  '\x7b' ∉ part.1.toList ∧ ∀ d ∈ part.2, LegibleDeclaration d

def LegibleEntry (entry : String × Registration) : Prop :=
  LegibleName entry.1 ∧ LegibleValue entry.2.initial

instance : DecidablePred LegibleName := fun _ => inferInstanceAs (Decidable (_ ∧ _ ∧ _))

instance : DecidablePred LegibleValue := fun _ => inferInstanceAs (Decidable (_ ∉ _))

instance : DecidablePred LegibleDeclaration := fun _ => inferInstanceAs (Decidable (_ ∧ _))

instance : DecidablePred LegiblePart := fun _ => inferInstanceAs (Decidable (_ ∧ ∀ d ∈ _, _))

instance : DecidablePred LegibleEntry := fun _ => inferInstanceAs (Decidable (_ ∧ _))

theorem toList_declaration (d : String × String) :
    (declaration d).toList = d.1.toList ++ ':' :: (d.2.toList ++ [';']) := by
  simp [declaration]

theorem selfDelimiting_declaration :
    SelfDelimiting LegibleDeclaration fun d => (declaration d).toList := by
  rintro ⟨name, value⟩ ⟨name', value'⟩ rest rest' legible legible' same
  simp only [toList_declaration, List.append_assoc, List.cons_append, List.nil_append] at same
  obtain ⟨names, others⟩ := cut_at ':' legible.1.1 legible'.1.1 same
  obtain ⟨values, rests⟩ := cut_at ';' legible.2 legible'.2 others
  obtain rfl := String.toList_inj.mp names
  obtain rfl := String.toList_inj.mp values
  exact ⟨rfl, rests⟩

theorem not_opens_declaration (tail : List Char) :
    ¬ Opens LegibleDeclaration (fun d => (declaration d).toList) ('\x7d' :: tail) := by
  rintro ⟨⟨name, value⟩, rest, legible, same⟩
  simp only [toList_declaration, List.append_assoc, List.cons_append, List.nil_append] at same
  rcases text : name.toList with _ | ⟨c, cs⟩
  next => simp [text] at same
  next =>
    have first : c = '\x7d' := by simpa [text] using congrArg List.head? same
    exact legible.1.2.2 (by simp [text, first])

theorem toList_rootRule (block : Block) :
    (rootRule block).toList = ":root\x7b".toList ++
      (block.flatMap (fun d => (declaration d).toList) ++ ['\x7d']) := by
  simp [rootRule, String.toList_join, List.flatMap_map]

theorem selfDelimiting_rootRule :
    SelfDelimiting (fun block => ∀ d ∈ block, LegibleDeclaration d)
      fun block => (rootRule block).toList := by
  intro block block' rest rest' legible legible' same
  simp only [toList_rootRule, List.append_assoc, List.append_cancel_left_eq, List.cons_append,
    List.nil_append] at same
  obtain ⟨blocks, tails⟩ := selfDelimiting_declaration.flatMap (not_opens_declaration rest)
    (not_opens_declaration rest') block block' legible legible' same
  exact ⟨blocks, List.tail_eq_of_cons_eq tails⟩

theorem toList_mediaRule (part : String × Block) :
    (mediaRule part).toList = part.1.toList ++ '\x7b' :: ((rootRule part.2).toList ++ ['\x7d']) := by
  simp [mediaRule]

theorem selfDelimiting_mediaRule :
    SelfDelimiting LegiblePart fun part => (mediaRule part).toList := by
  rintro ⟨key, block⟩ ⟨key', block'⟩ rest rest' legible legible' same
  simp only [toList_mediaRule, List.append_assoc, List.cons_append, List.nil_append] at same
  obtain ⟨keys, others⟩ := cut_at '\x7b' legible.1 legible'.1 same
  obtain ⟨rfl, tails⟩ := selfDelimiting_rootRule block block' _ _ legible.2 legible'.2 others
  obtain rfl := String.toList_inj.mp keys
  exact ⟨rfl, List.tail_eq_of_cons_eq tails⟩

theorem not_opens_mediaRule : ¬ Opens LegiblePart (fun part => (mediaRule part).toList) [] := by
  rintro ⟨part, rest, _, same⟩
  simp [toList_mediaRule] at same

theorem typeName_injective (a b : ValueType) (same : a.name = b.name) : a = b := by
  cases a <;> cases b <;> first | rfl | simp [ValueType.name] at same

theorem quote_not_mem_typeName (t : ValueType) : '"' ∉ t.name.toList := by
  cases t <;> decide

theorem semicolon_not_mem_flag (flag : Bool) : ';' ∉ (toString flag).toList := by
  cases flag <;> decide

theorem flag_injective (a b : Bool) (same : toString a = toString b) : a = b := by
  cases a <;> cases b <;> first | rfl | simp [toString] at same

theorem toList_propertyRule (name : String) (r : Registration) :
    (propertyRule (name, r)).toList = "@property ".toList ++ (name.toList ++
      '\x7b' :: ("syntax:\"".toList ++ (r.type.name.toList ++ '"' :: (";inherits:".toList ++
        ((toString r.inherits).toList ++ ';' :: ("initial-value:".toList ++
          (r.initial.toList ++ ';' :: ['\x7d']))))))) := by
  simp [propertyRule_mk]

theorem selfDelimiting_propertyRule :
    SelfDelimiting LegibleEntry fun entry => (propertyRule entry).toList := by
  rintro ⟨name, r⟩ ⟨name', r'⟩ rest rest' legible legible' same
  simp only [toList_propertyRule, List.append_assoc, List.append_cancel_left_eq,
    List.cons_append, List.nil_append] at same
  obtain ⟨names, same⟩ := cut_at '\x7b' legible.1.2.1 legible'.1.2.1 same
  obtain ⟨types, same⟩ := cut_at '"' (quote_not_mem_typeName _) (quote_not_mem_typeName _)
    (List.append_cancel_left same)
  obtain ⟨flags, same⟩ := cut_at ';' (semicolon_not_mem_flag _) (semicolon_not_mem_flag _)
    (List.append_cancel_left same)
  obtain ⟨initials, same⟩ := cut_at ';' legible.2 legible'.2 (List.append_cancel_left same)
  have registrations : r = r' := by
    cases r
    cases r'
    rw [Registration.mk.injEq]
    exact ⟨typeName_injective _ _ (String.toList_inj.mp types),
      flag_injective _ _ (String.toList_inj.mp flags), String.toList_inj.mp initials⟩
  exact ⟨Prod.ext (String.toList_inj.mp names) registrations, List.tail_eq_of_cons_eq same⟩

theorem not_opens_propertyRule (block : Block) (tail : List Char) :
    ¬ Opens LegibleEntry (fun entry => (propertyRule entry).toList)
      ((rootRule block).toList ++ tail) := by
  rintro ⟨⟨name, r⟩, rest, _, same⟩
  simp [toList_propertyRule, toList_rootRule] at same

theorem toList_text (registrations : Registrations) (s : Sheet) :
    (text registrations s).toList =
      registrations.flatMap (fun entry => (propertyRule entry).toList) ++
        ((rootRule s.root).toList ++ s.media.flatMap fun part => (mediaRule part).toList) := by
  simp [text, String.toList_join, List.flatMap_map]

end Css

/-- No field of the compilation holds the sign that ends fields of its kind in the CSS text. -/
structure Compilation.Legible (c : Compilation) : Prop where
  registrations : ∀ entry ∈ c.registrations, Css.LegibleEntry entry
  root : ∀ d ∈ c.sheet.root, Css.LegibleDeclaration d
  media : ∀ part ∈ c.sheet.media, Css.LegiblePart part

instance (c : Compilation) : Decidable c.Legible :=
  decidable_of_iff (((∀ entry ∈ c.registrations, Css.LegibleEntry entry) ∧
      ∀ d ∈ c.sheet.root, Css.LegibleDeclaration d) ∧ ∀ part ∈ c.sheet.media, Css.LegiblePart part)
    ⟨fun h => ⟨h.1.1, h.1.2, h.2⟩, fun h => ⟨⟨h.registrations, h.root⟩, h.media⟩⟩

open Css in
/-- The CSS text of legible compilations loses none of their fields, nor the order of these. -/
theorem css_injective (c c' : Compilation) (legible : c.Legible) (legible' : c'.Legible)
    (same : c.css = c'.css) :
    c.sheet.root = c'.sheet.root ∧ c.sheet.media = c'.sheet.media ∧
      c.registrations = c'.registrations := by
  have texts := congrArg String.toList same
  simp only [Compilation.css, toList_text] at texts
  obtain ⟨registrations, others⟩ := selfDelimiting_propertyRule.flatMap
    (not_opens_propertyRule _ _) (not_opens_propertyRule _ _) c.registrations c'.registrations
    legible.registrations legible'.registrations texts
  obtain ⟨roots, others⟩ := selfDelimiting_rootRule c.sheet.root c'.sheet.root _ _ legible.root
    legible'.root others
  obtain ⟨parts, _⟩ := selfDelimiting_mediaRule.flatMap not_opens_mediaRule not_opens_mediaRule
    c.sheet.media c'.sheet.media legible.media legible'.media (by simpa using others)
  exact ⟨roots, parts, registrations⟩

-- Two groups that differ in their keys and media names only, so that no text shows which one it is of.
def Group.spaced : Group :=
  [("md", .list [.group [("wide", .scalar (.text "24px"))], .scalar (.text "16px")]),
    ("bg", .scalar (.text "url(a{b}:c)"))]

def Group.spacedApart : Group :=
  [("space", .group [("md", .list [.group [("large", .scalar (.text "24px"))],
      .scalar (.text "16px")])]),
    ("fill", .scalar (.text "url(a{b}:c)"))]

def Settings.spaced : Settings := ⟨none, some "d", [("wide", "(width>9px)")]⟩

def Settings.spacedApart : Settings := ⟨some "ds", some "d", [("large", "(width>9px)")]⟩

theorem css_injective_spaced :
    ∃ c c', compile .spaced .spaced = .ok c ∧ compile .spacedApart .spacedApart = .ok c' ∧
      (c.Legible ∧ c'.Legible ∧ c.css = c'.css) ∧
      c.sheet.root = c'.sheet.root ∧ c.sheet.media = c'.sheet.media ∧
      c.registrations = c'.registrations := by
  obtain ⟨c, compiled⟩ := exists_of_isOk .spaced .spaced (by decide +kernel)
  obtain ⟨c', compiled'⟩ := exists_of_isOk .spacedApart .spacedApart (by decide +kernel)
  have both : (compile .spaced .spaced).toOption.any (fun c =>
      (compile .spacedApart .spacedApart).toOption.any fun c' =>
        decide (c.Legible ∧ c'.Legible ∧ c.css = c'.css)) = true := by decide +kernel
  obtain ⟨legible, legible', same⟩ : c.Legible ∧ c'.Legible ∧ c.css = c'.css := by
    simpa [compiled, compiled', Except.toOption] using both
  exact ⟨c, c', compiled, compiled', ⟨legible, legible', same⟩,
    css_injective c c' legible legible' same⟩

end DesignTokens
