import DesignTokens.Proofs.BuildRuns
import DesignTokens.Proofs.MediaUses

set_option autoImplicit false

namespace DesignTokens

open Desk Build

theorem Check.accept_eq_ok_iff (report : Report) :
    (∃ r, accept report = .ok r) ↔ Report.hasErrors report = false := by
  rw [accept, Report.hasErrors_eq]
  cases Report.firstError? report <;> simp

theorem Check.hasErrors_names (ns : List NamedTheme) : Report.hasErrors (names ns) = false := by
  have pairs (first second : NamedTheme) : Report.hasErrors (pair first second) = false := by
    unfold pair
    split <;> rfl
  induction ns with
  | nil => rfl
  | cons first rest ih =>
    rw [names, Report.hasErrors_append, ih, Bool.or_false]
    simpa [Report.hasErrors] using fun n _ => pairs first n

theorem Build.hasErrors_findings (manifest : Manifest) (t : LoadedTheme) :
    Report.hasErrors (findings manifest t) =
      Report.hasErrors (Check.theme t.tokens (manifest.settings t.theme)) := by
  simp [Report.hasErrors, findings, Finding.within, Finding.about, List.any_map, Function.comp_def]

theorem Build.named_eq_ok_iff (manifest : Manifest) (t : LoadedTheme) (n : Check.NamedTheme) :
    named manifest t = .ok n ↔ Report.hasErrors (findings manifest t) = false ∧
      ∃ c, compile t.tokens (manifest.settings t.theme) = .ok c ∧ n = ⟨t.theme.name, c⟩ := by
  rw [hasErrors_findings, ← Check.accept_eq_ok_iff]
  unfold named
  dsimp only
  cases Check.accept (Check.theme t.tokens (manifest.settings t.theme)) <;>
    cases compile t.tokens (manifest.settings t.theme) <;>
    simp [bind, Except.bind, pure, Except.pure, eq_comm]

namespace Validate

variable {manifest : Manifest}

theorem checkTheme_of_sound {t : LoadedTheme}
    (sound : Report.hasErrors (findings manifest t) = false) :
    checkTheme manifest t = match compile t.tokens (manifest.settings t.theme) with
      | .ok c => ⟨findings manifest t, [⟨t.theme.name, c⟩]⟩
      | .error fault => ⟨findings manifest t ++ [compileFinding t.theme.name fault], []⟩ := by
  rw [hasErrors_findings] at sound
  rw [checkTheme, if_neg (by simp [sound])]
  rfl

theorem checkTheme_of_named {t : LoadedTheme} {n : Check.NamedTheme}
    (compiled : named manifest t = .ok n) :
    checkTheme manifest t = ⟨findings manifest t, [n]⟩ := by
  obtain ⟨sound, c, trial, rfl⟩ := (named_eq_ok_iff ..).mp compiled
  rw [checkTheme_of_sound sound, trial]

theorem hasErrors_of_named {t : LoadedTheme} {fault : Fault}
    (failed : named manifest t = .error fault) :
    Report.hasErrors (checkTheme manifest t).report = true := by
  cases sound : Report.hasErrors (findings manifest t) with
  | true =>
    have errors := (hasErrors_findings manifest t).symm.trans sound
    rw [checkTheme, if_pos errors]
    exact sound
  | false =>
    rw [checkTheme_of_sound sound]
    cases compiled : compile t.tokens (manifest.settings t.theme) with
    | error other => simp [Report.hasErrors, compileFinding]
    | ok c =>
      rw [(named_eq_ok_iff ..).mpr ⟨sound, c, compiled, rfl⟩] at failed
      cases failed

theorem checkThemes_of_named {ts : List LoadedTheme} {ns : List Check.NamedTheme}
    (compiled : ts.mapM (named manifest) = .ok ns) :
    checkThemes manifest ts = ts.flatMap (findings manifest) ++ Check.names ns ∧
      Report.hasErrors (checkThemes manifest ts) = false := by
  have parts : (ts.map (checkTheme manifest)).flatMap Checked.report =
        ts.flatMap (findings manifest) ∧
      (ts.map (checkTheme manifest)).flatMap Checked.compiled = ns ∧
      Report.hasErrors (ts.flatMap (findings manifest)) = false := by
    have each := forall₂_of_named compiled
    clear compiled
    induction each with
    | nil => exact ⟨rfl, rfl, rfl⟩
    | cons first _ ih =>
      obtain ⟨reports, themes, sound⟩ := ih
      have own := ((named_eq_ok_iff ..).mp first).1
      simp only [List.map_cons, List.flatMap_cons, checkTheme_of_named first, reports, themes,
        Report.hasErrors_append, own, sound, Bool.or_self, List.singleton_append, and_self]
  obtain ⟨reports, themes, sound⟩ := parts
  have whole : checkThemes manifest ts = ts.flatMap (findings manifest) ++ Check.names ns := by
    rw [checkThemes, reports, themes]
  refine ⟨whole, ?_⟩
  rw [whole, Report.hasErrors_append, sound, Check.hasErrors_names]
  rfl

theorem hasErrors_checkThemes {ts : List LoadedTheme} {fault : Fault}
    (failed : ts.mapM (named manifest) = .error fault) :
    Report.hasErrors (checkThemes manifest ts) = true := by
  have reports : Report.hasErrors ((ts.map (checkTheme manifest)).flatMap Checked.report) = true := by
    induction ts with
    | nil => cases failed
    | cons t rest ih =>
      rw [List.map_cons, List.flatMap_cons, Report.hasErrors_append]
      rw [List.mapM_cons] at failed
      cases first : named manifest t with
      | error fault => rw [hasErrors_of_named first, Bool.true_or]
      | ok n =>
        cases later : rest.mapM (named manifest) with
        | ok others =>
          rw [first, later] at failed
          cases failed
        | error other =>
          rw [first, later] at failed
          obtain rfl := Except.error.inj failed
          rw [ih later, Bool.or_true]
  rw [checkThemes, Report.hasErrors_append, reports, Bool.true_or]

end Validate

def Accepts (p : Path) (d : Desk) : Prop :=
  ∃ report, answer (Validate.check p) d = .ok report ∧ Report.hasErrors report = false

def Builds (a : Arguments) (d : Desk) : Prop := ∃ written, answer (Build.run a) d = .ok written

def SourcesReadable (p : Path) (d : Desk) : Prop :=
  ∀ project, answer (Project.locate p) d = .ok project →
    ∀ t ∈ project.manifest.themes, (d.file? (project.sourcePath t)).isSome = true

instance (p : Path) (d : Desk) : Decidable (Accepts p d) :=
  decidable_of_iff
    ((answer (Validate.check p) d).toOption.any (fun report => !Report.hasErrors report) = true) (by
      unfold Accepts
      cases answer (Validate.check p) d <;> simp [Except.toOption])

instance (a : Arguments) (d : Desk) : Decidable (Builds a d) :=
  decidable_of_iff ((answer (Build.run a) d).isOk = true) (by
    unfold Builds
    cases answer (Build.run a) d <;> simp [Except.isOk, Except.toBool])

theorem Validate.check_eq_ok_iff (p : Path) (d : Desk) (report : Report) :
    answer (check p) d = .ok report ↔ ∃ project ts, answer (Project.locate p) d = .ok project ∧
      answer project.load d = .ok ts ∧ checkThemes project.manifest ts = report := by
  rw [answer_check]
  cases answer (Project.locate p) d with
  | error fault => simp [bind, Except.bind]
  | ok project =>
    cases loaded : answer project.load d <;> simp [bind, Except.bind, Except.map, loaded]

theorem accepts_iff (p : Path) (d : Desk) :
    Accepts p d ↔ ∃ project ts ns, answer (Project.locate p) d = .ok project ∧
      answer project.load d = .ok ts ∧ ts.mapM (named project.manifest) = .ok ns := by
  constructor
  · rintro ⟨report, checked, sound⟩
    obtain ⟨project, ts, located, loaded, rfl⟩ := (Validate.check_eq_ok_iff ..).mp checked
    cases compiled : ts.mapM (named project.manifest) with
    | error fault =>
      rw [Validate.hasErrors_checkThemes compiled] at sound
      cases sound
    | ok ns => exact ⟨project, ts, ns, located, loaded, compiled⟩
  · rintro ⟨project, ts, ns, located, loaded, compiled⟩
    exact ⟨_, (Validate.check_eq_ok_iff ..).mpr ⟨project, ts, located, loaded, rfl⟩,
      (Validate.checkThemes_of_named compiled).2⟩

theorem unhindered_of_builds {a : Arguments} {d : Desk} (builds : Builds a d) :
    ∀ fault, answer (Build.run a) d = .error fault → ¬ fault.IsWriting := by
  intro fault failed
  obtain ⟨written, built⟩ := builds
  cases built.symm.trans failed

theorem Build.Ready.file?_eq {d ready : Desk} (prepared : Ready d ready) {p : Path}
    (readable : (d.file? p).isSome = true) : ready.file? p = d.file? p := by
  have place : ready.place = d.place := by rw [Desk.place, Desk.place, prepared.directory]
  cases led : d.locate? p with
  | none => simp [Desk.file?, led] at readable
  | some target =>
    have later : ready.locate? p = some target := by
      rw [Desk.locate?, place]
      exact Disk.locate?_of_directories prepared.disk.directories led
    simp only [Desk.file?, led, later, Option.bind_some, Disk.file?_of_extends prepared.disk]

theorem Build.Ready.answer_load {d ready : Desk} (prepared : Ready d ready) {project : Project}
    (readable : ∀ t ∈ project.manifest.themes, (d.file? (project.sourcePath t)).isSome = true) :
    answer project.load ready = answer project.load d :=
  project.answer_loadThemes_congr _ fun t member => prepared.file?_eq (readable t member)

theorem sourcesReadable_of_check {p : Path} {d : Desk} {report : Report}
    (checked : answer (Validate.check p) d = .ok report) : SourcesReadable p d := by
  obtain ⟨project, ts, located, loaded, -⟩ := (Validate.check_eq_ok_iff ..).mp checked
  intro other again
  obtain rfl := Except.ok.inj (located.symm.trans again)
  exact project.isSome_file?_of_loadThemes _ loaded

theorem builds_of_accepts {a : Arguments} {d : Desk}
    (unhindered : ∀ fault, answer (Build.run a) d = .error fault → ¬ fault.IsWriting)
    (accepted : Accepts a.path d) : Builds a d := by
  obtain ⟨project, ts, ns, located, loaded, compiled⟩ := (accepts_iff ..).mp accepted
  have readable := project.isSome_file?_of_loadThemes _ loaded
  have outcome := outcome_run a d
  unfold Builds
  generalize answer (Build.run a) d = result, after (Build.run a) d = last at outcome unhindered ⊢
  cases outcome with
  | unlocated unlocated => cases located.symm.trans unlocated
  | noThemes | finished => exact ⟨_, rfl⟩
  | hindered writing => exact absurd writing (unhindered _ rfl)
  | unread again prepared unread =>
    obtain rfl := Except.ok.inj (located.symm.trans again)
    rw [prepared.answer_load readable, loaded] at unread
    cases unread
  | rejected again prepared reloaded rejected =>
    obtain rfl := Except.ok.inj (located.symm.trans again)
    rw [prepared.answer_load readable, loaded] at reloaded
    obtain rfl := Except.ok.inj reloaded
    cases compiled.symm.trans rejected

-- A manifest without themes is loaded without a look at the disk.
theorem load_of_noThemes {project : Project} (nothing : project.manifest.themes = []) (d : Desk) :
    answer project.load d = .ok [] := by
  rw [Project.load, nothing]
  rfl

theorem filterMap_finding (report : Report) :
    (report.map Said.finding).filterMap Said.finding? = report := by
  rw [List.filterMap_map]
  exact List.filterMap_some

theorem findings_of_saidOf (manifest : Manifest) (directory : Path) (ts : List LoadedTheme) :
    (ts.flatMap (saidOf manifest directory)).filterMap Said.finding? =
      ts.flatMap (findings manifest) := by
  have each (t : LoadedTheme) :
      (saidOf manifest directory t).filterMap Said.finding? = findings manifest t :=
    filterMap_finding _
  simp only [List.filterMap_flatMap, each]

theorem accepts_of_builds {a : Arguments} {d : Desk} (built : Builds a d)
    (readable : SourcesReadable a.path d) :
    ∃ (report : Report) (said : List Said), answer (Validate.check a.path) d = .ok report ∧
      Report.hasErrors report = false ∧
      (after (Build.run a) d).printed = d.printed ++ said.flatMap Said.lines ∧
      said.filterMap Said.finding? = report := by
  obtain ⟨written, built⟩ := built
  have outcome := outcome_run a d
  rw [built] at outcome
  generalize after (Build.run a) d = last at outcome ⊢
  cases outcome with
  | noThemes located nothing did =>
    have checked := (Validate.check_eq_ok_iff a.path d []).mpr
      ⟨_, [], located, load_of_noThemes nothing d, rfl⟩
    exact ⟨[], [.noThemes], checked, rfl, did.printed, rfl⟩
  | @finished project ready _ ts ns located prepared loaded compiled did =>
    obtain ⟨whole, sound⟩ := Validate.checkThemes_of_named compiled
    rw [prepared.answer_load (readable project located)] at loaded
    have checked := (Validate.check_eq_ok_iff a.path d _).mpr ⟨project, ts, located, loaded, rfl⟩
    refine ⟨_, _, checked, sound, did.printed.trans (by rw [prepared.printed]), ?_⟩
    rw [whole, List.filterMap_append, findings_of_saidOf, List.filterMap_append, filterMap_finding]
    exact congrArg _ (List.append_nil _)

/--
Where no directory or file fails to be written, a project is accepted by the check exactly if it is built and
its token files could be read before the build made the output directory. A build then says what the
check reports, in order.
-/
theorem build_agrees_with_check (a : Arguments) (d : Desk)
    (unhindered : ∀ fault, answer (Build.run a) d = .error fault → ¬ fault.IsWriting) :
    (Accepts a.path d ↔ Builds a d ∧ SourcesReadable a.path d) ∧
      ∀ report, answer (Validate.check a.path) d = .ok report → Builds a d →
        ∃ said : List Said,
          (after (Build.run a) d).printed = d.printed ++ said.flatMap Said.lines ∧
            said.filterMap Said.finding? = report := by
  refine ⟨⟨?_, ?_⟩, ?_⟩
  · rintro ⟨report, checked, sound⟩
    exact ⟨builds_of_accepts unhindered ⟨report, checked, sound⟩, sourcesReadable_of_check checked⟩
  · rintro ⟨built, readable⟩
    obtain ⟨report, said, checked, sound, -⟩ := accepts_of_builds built readable
    exact ⟨report, checked, sound⟩
  · intro report checked built
    obtain ⟨_, said, again, -, printed, found⟩ :=
      accepts_of_builds built (sourcesReadable_of_check checked)
    obtain rfl := Except.ok.inj (checked.symm.trans again)
    exact ⟨said, printed, found⟩

def Desk.holding (files : List (String × String)) : Desk :=
  ⟨⟨[], files.map fun f => ([f.1], f.2)⟩, "/", []⟩

-- A token file that is reached through the output directory, which is not there yet.
def Desk.roundabout : Desk :=
  .holding [("dstokens.yaml", "themes:\n  - name: a\n    source: dist/../a.json\n"),
    ("a.json", "\x7b\"x\": \"1px\"\x7d")]

theorem build_not_accepted_roundabout :
    ¬ ((∀ fault, answer (Build.run ⟨".", none⟩) .roundabout = .error fault → ¬ fault.IsWriting) →
      (Builds ⟨".", none⟩ .roundabout ↔ Accepts "." .roundabout)) := by
  have builds : Builds ⟨".", none⟩ .roundabout := by decide +kernel
  have refused : ¬ Accepts "." .roundabout := by decide +kernel
  exact fun agree => refused ((agree (unhindered_of_builds builds)).mp builds)

def Desk.twoThemes : Desk :=
  .holding [("dstokens.yaml",
      "themes:\n  - name: light\n    source: light.yaml\n  - name: dark\n    source: dark.yaml\n"),
    ("light.yaml", "bg: white\n"), ("dark.yaml", "fg: black\n")]

theorem builds_twoThemes : Builds ⟨".", none⟩ .twoThemes := by decide +kernel

theorem build_agrees_with_check_twoThemes :
    Accepts "." .twoThemes ∧ SourcesReadable "." .twoThemes ∧
      ∃ report, answer (Validate.check ".") .twoThemes = .ok report ∧
        report.map Finding.code = ["dstokens::validate::name-collision"] ∧
        ∃ said : List Said,
          (after (Build.run ⟨".", none⟩) .twoThemes).printed = said.flatMap Said.lines ∧
            said.filterMap Said.finding? = report := by
  have agree := build_agrees_with_check ⟨".", none⟩ .twoThemes
    (unhindered_of_builds builds_twoThemes)
  have shown : (answer (Validate.check ".") .twoThemes).toOption.map
      (fun report => (Report.hasErrors report, report.map Finding.code)) =
        some (false, ["dstokens::validate::name-collision"]) := by decide +kernel
  cases checked : answer (Validate.check ".") .twoThemes with
  | error fault => simp [checked, Except.toOption] at shown
  | ok report =>
    rw [checked] at shown
    obtain ⟨sound, codes⟩ := Prod.mk.inj (Option.some.inj shown)
    have accepts : Accepts "." .twoThemes := ⟨report, checked, sound⟩
    exact ⟨accepts, (agree.1.mp accepts).2, report, rfl, codes,
      agree.2 report checked builds_twoThemes⟩

end DesignTokens
