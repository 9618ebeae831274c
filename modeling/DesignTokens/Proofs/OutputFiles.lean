import DesignTokens.Proofs.CheckedBuilds
import DesignTokens.Proofs.LeafPaths

set_option autoImplicit false

namespace DesignTokens

open Desk (answer)

theorem Text.exists_splitAll_append (separator : Char) (text : List Char) :
    ∃ pieces last, ∀ ending, separator ∉ ending →
      splitAll separator (text ++ ending) = pieces ++ [last ++ ending] := by
  have whole (ending : List Char) (absent : separator ∉ ending) : splitAll separator ending = [ending] := by
    induction ending with
    | nil => rfl
    | cons c rest ih =>
      obtain ⟨other, absent⟩ := not_or.mp (List.mem_cons.not.mp absent)
      rw [splitAll, if_neg (Ne.symm other), ih absent]
  induction text with
  | nil => exact ⟨[], [], fun ending absent => by simpa using whole ending absent⟩
  | cons c rest ih =>
    obtain ⟨pieces, last, split⟩ := ih
    by_cases same : c = separator
    · refine ⟨[] :: pieces, last, fun ending absent => ?_⟩
      rw [List.cons_append, splitAll, if_pos same, split ending absent, List.cons_append]
    · cases pieces with
      | nil =>
        refine ⟨[], c :: last, fun ending absent => ?_⟩
        rw [List.cons_append, splitAll, if_neg same, split ending absent]
        rfl
      | cons first more =>
        refine ⟨(c :: first) :: more, last, fun ending absent => ?_⟩
        rw [List.cons_append, splitAll, if_neg same, split ending absent]
        rfl

namespace Disk

variable (d : Disk) (directory : Place)

def Apart (p q : Path) : Prop :=
  ∀ place, d.locate? directory p = some place → d.locate? directory q ≠ some place

def Moves (name : String) : Prop := name ≠ "" ∧ name ≠ "." ∧ name ≠ ".."

theorem eq_append_of_enter? {place next : Place} {name : String} (moves : Moves name)
    (entered : enter? place name = some next) : next = place ++ [name] := by
  obtain ⟨solid, idle, up⟩ := moves
  unfold enter? at entered
  rw [if_neg (by simp [solid, idle]), if_neg up] at entered
  split at entered
  next => exact (Option.some.inj entered).symm
  next => cases entered

theorem isAbsolute_append (stem ending : String) (plain : '/' ∉ ending.toList) :
    Path.isAbsolute (stem ++ ending) = Path.isAbsolute stem := by
  unfold Path.isAbsolute
  rw [String.toList_append]
  cases stem.toList with
  | cons c rest => rfl
  | nil =>
    cases front : ending.toList with
    | nil => rfl
    | cons c rest =>
      rw [front] at plain
      simpa using fun same : c = '/' => plain (same ▸ List.mem_cons_self)

theorem exists_steps (stem : Path) :
    ∃ (base : Place) (before : List String) (last : String), ∀ ending : String,
      '/' ∉ ending.toList → origin directory (stem ++ ending) = base ∧
        steps (stem ++ ending) = before ++ [last ++ ending] := by
  cases absolute : Path.isAbsolute stem with
  | true =>
    obtain ⟨rest, spelled⟩ : ∃ rest, stem.toList = '/' :: rest := by
      unfold Path.isAbsolute at absolute
      cases letters : stem.toList with
      | nil => simp [letters] at absolute
      | cons c rest => exact ⟨rest, by simpa [letters] using absolute⟩
    obtain ⟨pieces, last, split⟩ := Text.exists_splitAll_append '/' rest
    refine ⟨[], pieces.map String.ofList, String.ofList last, fun ending plain => ?_⟩
    have same := (isAbsolute_append stem ending plain).trans absolute
    refine ⟨by rw [origin, if_pos same], ?_⟩
    rw [steps, if_pos same, names, String.toList_append, spelled, List.cons_append, Text.splitAll,
      if_pos rfl, split _ plain]
    simp [String.ofList_append]
  | false =>
    obtain ⟨pieces, last, split⟩ := Text.exists_splitAll_append '/' stem.toList
    refine ⟨directory, pieces.map String.ofList, String.ofList last, fun ending plain => ?_⟩
    have same := (isAbsolute_append stem ending plain).trans absolute
    refine ⟨by rw [origin, same]; rfl, ?_⟩
    rw [steps, same, names, String.toList_append, split _ plain]
    simp [String.ofList_append]

theorem exists_folder (stem : Path) :
    ∃ (folder : Place) (last : String), ∀ ending : String, '/' ∉ ending.toList →
      2 < ending.length → ∀ place, d.locate? directory (stem ++ ending) = some place →
        place = folder ++ [last ++ ending] := by
  obtain ⟨base, before, last, ends⟩ := exists_steps directory stem
  refine ⟨(d.walk base before).toOption.getD [], last, fun ending plain long place led => ?_⟩
  obtain ⟨begun, stepped⟩ := ends ending plain
  rw [locate?_eq_some, begun, stepped, walk_append_eq_ok] at led
  obtain ⟨-, -, middle, walked, led⟩ := led
  obtain ⟨-, next, entered, arrived⟩ := (walk_cons_eq_ok ..).mp led
  obtain rfl : next = place := by simpa [walk] using arrived
  have moves : Moves (last ++ ending) := by
    have length : 2 < (last ++ ending).length := by
      rw [String.length_append]
      omega
    refine ⟨?_, ?_, ?_⟩ <;>
    · intro short
      rw [short] at length
      exact absurd length (by decide)
  rw [walked]
  exact eq_append_of_enter? moves entered

theorem apart_of_endings (stem : Path) {first second : String} (different : first ≠ second)
    (plainFirst : '/' ∉ first.toList) (plainSecond : '/' ∉ second.toList)
    (longFirst : 2 < first.length) (longSecond : 2 < second.length) :
    d.Apart directory (stem ++ first) (stem ++ second) := by
  obtain ⟨folder, last, leads⟩ := d.exists_folder directory stem
  intro place led same
  have here := leads first plainFirst longFirst place led
  have there := leads second plainSecond longSecond place same
  rw [here] at there
  have names : [last ++ first] = [last ++ second] := List.append_cancel_left there
  apply different
  apply String.toList_inj.mp
  have texts := congrArg String.toList (List.singleton_inj.mp names)
  simpa using texts

theorem lastAt?_eq_none {p : Path} {place : Place} {writes : List (Path × String)}
    (apart : ∀ w ∈ writes, d.Apart directory p w.1) (led : d.locate? directory p = some place) :
    d.lastAt? directory writes place = none := by
  simpa [lastAt?, List.find?_eq_none] using
    fun path text member => apart (path, text) member place led

end Disk

theorem Path.join_append (output name ending : String) (plain : '/' ∉ ending.toList) :
    join output (name ++ ending) = join output name ++ ending := by
  unfold join
  rw [Disk.isAbsolute_append name ending plain]
  split
  next => rfl
  next => split <;> simp [String.append_assoc]

namespace Build

def endings : List String := [".css", ".jss.json", ".refs.json", ".map.json"]

theorem plain_endings : ∀ ending ∈ endings, '/' ∉ ending.toList ∧ 2 < ending.length := by
  decide +kernel

theorem writes_paths (output : Path) (n : Check.NamedTheme) :
    (writes output n).map Prod.fst = endings.map fun ending => Path.join output n.name ++ ending := by
  have joined : (writes output n).map Prod.fst =
      endings.map fun ending => Path.join output (n.name ++ ending) := rfl
  rw [joined]
  apply List.map_congr_left
  intro ending member
  exact Path.join_append _ _ _ (plain_endings ending member).1

theorem writes_apart (d : Disk) (directory : Place) (output : Path) (n : Check.NamedTheme) :
    (writes output n).Pairwise fun v w => d.Apart directory v.1 w.1 := by
  have different : endings.Pairwise (· ≠ ·) := by decide +kernel
  rw [← List.pairwise_map (f := Prod.fst) (R := d.Apart directory), writes_paths, List.pairwise_map]
  refine different.imp_of_mem fun first second different => ?_
  obtain ⟨plainFirst, longFirst⟩ := plain_endings _ first
  obtain ⟨plainSecond, longSecond⟩ := plain_endings _ second
  exact d.apart_of_endings directory _ different plainFirst plainSecond longFirst longSecond

end Build

def Desk.lastAt? (d : Desk) (writes : List (Path × String)) (p : Path) : Option String :=
  (d.locate? p).bind (d.disk.lastAt? d.place writes)

theorem Desk.lastAt?_append_of_apart (d : Desk) {p : Path} {first : List (Path × String)}
    (apart : ∀ w ∈ first, d.disk.Apart d.place p w.1) (second : List (Path × String)) :
    d.lastAt? (first ++ second) p = d.lastAt? second p := by
  unfold lastAt? locate?
  cases led : d.disk.locate? d.place p with
  | none => rfl
  | some place =>
    rw [Option.bind_some, Option.bind_some, Disk.lastAt?_append,
      d.disk.lastAt?_eq_none d.place apart led, Option.or_none]

namespace Build

theorem Did.file?_eq {said : List Said} {before after : List (Path × String)} {w : Path × String}
    {d d' : Desk} (did : Did said (before ++ w :: after) d d') :
    d'.file? w.1 = some ((d'.lastAt? after w.1).getD w.2) := by
  have place : d'.place = d.place := by rw [Desk.place, Desk.place, did.directory]
  obtain ⟨directories, located, files⟩ := Disk.writeAll?_spec _ did.disk
  obtain ⟨own, led⟩ := located w (by simp)
  have there : d'.locate? w.1 = some own := by
    rw [Desk.locate?, place, Disk.locate?_congr directories, led]
  have alone : d.disk.lastAt? d.place [w] own = some w.2 := by simp [Disk.lastAt?, led]
  rw [Desk.file?, Desk.lastAt?, there, Option.bind_some, Option.bind_some, files, place,
    Disk.lastAt?_congr directories, ← List.singleton_append, Disk.lastAt?_append,
    Disk.lastAt?_append, alone]
  cases d.disk.lastAt? d.place after own <;> rfl

theorem Did.file?_of_theme {said : List Said} {output : Path}
    {before after : List Check.NamedTheme} {n : Check.NamedTheme} {d d' : Desk}
    (did : Did said ((before ++ n :: after).flatMap (writes output)) d d')
    {f : OutputFile} (member : f ∈ files n.name n.compilation output) :
    d'.file? f.path =
      some ((d'.lastAt? (after.flatMap (writes output)) f.path).getD f.text) := by
  have written : (f.path, f.text) ∈ writes output n := List.mem_map_of_mem member
  obtain ⟨first, rest, split⟩ := List.append_of_mem written
  have apart := writes_apart d'.disk d'.place output n
  rw [split, List.pairwise_append] at apart
  have behind := (List.pairwise_cons.mp apart.2.1).1
  rw [List.flatMap_append, List.flatMap_cons, split, List.append_assoc, List.cons_append,
    ← List.append_assoc] at did
  rw [did.file?_eq, d'.lastAt?_append_of_apart behind]

def lead (output : Path) : String :=
  if output.isEmpty then "" else if output.toList.getLast? == some '/' then output else output ++ "/"

theorem join_plain (output name : String) (plain : '/' ∉ name.toList) :
    Path.join output name = lead output ++ name := by
  have relative : Path.isAbsolute name = false := by
    simpa [Path.isAbsolute] using Disk.isAbsolute_append "" name plain
  unfold Path.join lead
  rw [relative, Bool.false_or]
  split
  next => simp
  next => split <;> rfl

-- No ending is the end of another, so a stem can be read off its files.
theorem eq_of_append_ending {first second : String} {e g : String} (he : e ∈ endings)
    (hg : g ∈ endings) (same : first ++ e = second ++ g) : first = second := by
  have texts : first.toList ++ e.toList = second.toList ++ g.toList := by
    simpa using congrArg String.toList same
  have apart : ∀ e ∈ endings, ∀ g ∈ endings, e.toList <:+ g.toList → e = g := by decide +kernel
  have ends : e = g := by
    rcases List.suffix_or_suffix_of_suffix ⟨_, texts⟩ ⟨second.toList, rfl⟩ with inner | inner
    · exact apart e he g hg inner
    · exact (apart g hg e he inner).symm
  subst ends
  exact String.toList_inj.mp (List.append_cancel_right texts)

theorem exists_ending {output : Path} {n : Check.NamedTheme} (plain : '/' ∉ n.name.toList)
    {w : Path × String} (member : w ∈ writes output n) :
    ∃ ending ∈ endings, w.1 = lead output ++ (n.name ++ ending) ∧
      '/' ∉ (n.name ++ ending).toList ∧ 2 < (n.name ++ ending).length := by
  have path : w.1 ∈ (writes output n).map Prod.fst := List.mem_map_of_mem member
  rw [writes_paths] at path
  obtain ⟨ending, known, same⟩ := List.mem_map.mp path
  obtain ⟨plainEnding, long⟩ := plain_endings ending known
  refine ⟨ending, known, ?_, ?_, ?_⟩
  · rw [← same, join_plain output n.name plain, String.append_assoc]
  · simp [plain, plainEnding]
  · rw [String.length_append]
    omega

theorem writes_apart_of_names (d : Disk) (directory : Place) (output : Path)
    {n m : Check.NamedTheme} (different : n.name ≠ m.name) (plainFirst : '/' ∉ n.name.toList)
    (plainSecond : '/' ∉ m.name.toList) :
    ∀ v ∈ writes output n, ∀ w ∈ writes output m, d.Apart directory v.1 w.1 := by
  intro v first w second
  obtain ⟨e, he, pathFirst, slashFirst, longFirst⟩ := exists_ending plainFirst first
  obtain ⟨g, hg, pathSecond, slashSecond, longSecond⟩ := exists_ending plainSecond second
  rw [pathFirst, pathSecond]
  exact d.apart_of_endings directory _ (fun same => different (eq_of_append_ending he hg same))
    slashFirst slashSecond longFirst longSecond

def Becomes (project : Project) (d : Desk) (t : Theme) (n : Check.NamedTheme) : Prop :=
  n.name = t.name ∧ ∃ tokens, answer (readTokens (project.sourcePath t)) d = .ok tokens ∧
    compile tokens (project.manifest.settings t) = .ok n.compilation

theorem forall₂_becomes (project : Project) (d : Desk) (themes : List Theme)
    {ts : List LoadedTheme} {ns : List Check.NamedTheme}
    (loaded : answer (project.loadThemes themes) d = .ok ts)
    (compiled : ts.mapM (named project.manifest) = .ok ns) :
    List.Forall₂ (Becomes project d) themes ns := by
  have read := project.forall₂_of_loadThemes loaded
  have made := forall₂_of_named compiled
  clear loaded compiled
  induction read generalizing ns with
  | nil =>
    cases made
    exact .nil
  | cons here _ ih =>
    cases made with
    | cons first more =>
      obtain ⟨rfl, read⟩ := here
      obtain ⟨-, c, own, rfl⟩ := (named_eq_ok_iff ..).mp first
      exact .cons ⟨rfl, _, read, own⟩ (ih more)

theorem file?_of_names {said : List Said} {output : Path} {ns : List Check.NamedTheme} {d d' : Desk}
    (did : Did said (ns.flatMap (writes output)) d d')
    (plain : ∀ n ∈ ns, '/' ∉ n.name.toList) (distinct : (ns.map Check.NamedTheme.name).Nodup)
    {n : Check.NamedTheme} (member : n ∈ ns) {f : OutputFile}
    (own : f ∈ files n.name n.compilation output) : d'.file? f.path = some f.text := by
  obtain ⟨before, after, rfl⟩ := List.append_of_mem member
  rw [List.map_append, List.map_cons, List.nodup_append] at distinct
  have others := (List.nodup_cons.mp distinct.2.1).1
  have apart : ∀ w ∈ after.flatMap (writes output), d'.disk.Apart d'.place f.path w.1 := by
    intro w written
    obtain ⟨m, later, written⟩ := List.mem_flatMap.mp written
    refine writes_apart_of_names d'.disk d'.place output (n := n) (m := m) ?_ ?_ ?_ (f.path, f.text)
      (List.mem_map_of_mem own) w written
    · intro same
      exact others (same ▸ List.mem_map_of_mem later)
    · exact plain n member
    · exact plain m (List.mem_append_right _ (List.mem_cons_of_mem _ later))
  have untouched : d'.lastAt? (after.flatMap (writes output)) f.path = none := by
    have dropped := d'.lastAt?_append_of_apart apart []
    rw [List.append_nil] at dropped
    rw [dropped, Desk.lastAt?]
    cases d'.locate? f.path <;> rfl
  rw [did.file?_of_theme own, untouched]
  rfl

/--
A successful build compiles every theme of the manifest. Each file of a theme then has the text that a later
theme wrote last where it lies, or else its own; so none is lost if the themes have different names without
slashes.
-/
theorem output_of_build (a : Arguments) (d : Desk) (builds : Builds a d) :
    ∃ project ready ns, answer (Project.locate a.path) d = .ok project ∧ Ready d ready ∧
      List.Forall₂ (Becomes project ready) project.manifest.themes ns ∧
      (∀ before n after, ns = before ++ n :: after →
        ∀ f ∈ files n.name n.compilation (outputOf a project),
          (Desk.after (run a) d).file? f.path = some (((Desk.after (run a) d).lastAt?
            (after.flatMap (writes (outputOf a project))) f.path).getD f.text)) ∧
      ((∀ t ∈ project.manifest.themes, '/' ∉ t.name.toList) →
        (project.manifest.themes.map Theme.name).Nodup →
        ∀ n ∈ ns, ∀ f ∈ files n.name n.compilation (outputOf a project),
          (Desk.after (run a) d).file? f.path = some f.text) := by
  obtain ⟨written, built⟩ := builds
  have outcome := outcome_run a d
  rw [built] at outcome
  generalize Desk.after (run a) d = last at outcome ⊢
  cases outcome with
  | @noThemes project _ located nothing did =>
    refine ⟨project, d, [], located, ⟨rfl, rfl, .refl _⟩, ?_, ?_, ?_⟩
    · rw [nothing]
      exact .nil
    · intro before n after empty
      simp at empty
    · simp
  | @finished project ready _ ts ns located prepared loaded compiled did =>
    have becomes := forall₂_becomes project ready _ loaded compiled
    have names : ns.map Check.NamedTheme.name = project.manifest.themes.map Theme.name :=
      (map_eq_of_forall₂ (becomes.imp fun _ _ became => became.1.symm)).symm
    refine ⟨project, ready, ns, located, prepared, becomes, ?_, ?_⟩
    · rintro before n after rfl f own
      exact did.file?_of_theme own
    · intro plain distinct n member f own
      refine file?_of_names did (fun m listed => ?_) (names ▸ distinct) member own
      obtain ⟨t, known, same, _⟩ := (exists_of_forall₂ becomes).2 m listed
      exact same ▸ plain t known

theorem output_of_build_twoThemes :
    ∃ ns : List Check.NamedTheme, ns.map Check.NamedTheme.name = ["light", "dark"] ∧
      ∀ n ∈ ns, ∀ f ∈ files n.name n.compilation "./dist",
        (Desk.after (run ⟨".", none⟩) .twoThemes).file? f.path = some f.text := by
  obtain ⟨project, ready, ns, located, -, becomes, -, kept⟩ :=
    output_of_build ⟨".", none⟩ .twoThemes builds_twoThemes
  have read : (answer (Project.locate ".") .twoThemes).toOption.map
      (fun project => (project.outputDirectory, project.manifest.themes.map Theme.name)) =
        some ("./dist", ["light", "dark"]) := by decide +kernel
  rw [located] at read
  obtain ⟨output, names⟩ := Prod.mk.inj (Option.some.inj read)
  have plain : ∀ t ∈ project.manifest.themes, '/' ∉ t.name.toList := by
    have listed : ∀ name ∈ project.manifest.themes.map Theme.name, '/' ∉ name.toList := by
      rw [names]
      decide +kernel
    exact fun t known => listed _ (List.mem_map_of_mem known)
  have distinct : (project.manifest.themes.map Theme.name).Nodup := by
    rw [names]
    decide +kernel
  have held := kept plain distinct
  have directory : outputOf ⟨".", none⟩ project = "./dist" := output
  rw [directory] at held
  refine ⟨ns, ?_, held⟩
  rw [← names]
  exact (map_eq_of_forall₂ (becomes.imp fun _ _ became => became.1.symm)).symm

end Build

def Desk.sameName : Desk :=
  .holding [("dstokens.yaml",
      "themes:\n  - name: light\n    source: day.json\n  - name: light\n    source: night.json\n"),
    ("day.json", "\x7b\"bg\": \"white\"\x7d"), ("night.json", "\x7b\"bg\": \"black\"\x7d")]

-- Nothing is reported of them, and the styles of the first are gone.
example : (answer (Validate.check ".") .sameName).toOption = some [] ∧
    (Desk.after (Build.run ⟨".", none⟩) .sameName).file? "dist/light.css" =
      some ("@property --a0\x7bsyntax:\"<color>\";inherits:false;initial-value:black;\x7d" ++
        ":root\x7b--a0:black;\x7d") := by decide +kernel

end DesignTokens
