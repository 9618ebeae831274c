import Mathlib.Data.List.Forall2
import DesignTokens.Proofs.CheckedBuilds
import DesignTokens.Proofs.NotedRuns

set_option autoImplicit false

namespace DesignTokens

open Desk (answer exec noted written)

namespace Project

def Loads (project : Project) (d : Desk) (t : Theme) : Prop :=
  ∃ tokens, answer (readTokens (project.sourcePath t)) d = .ok tokens

variable {project : Project} {d : Desk}

instance (t : Theme) : Decidable (project.Loads d t) :=
  decidable_of_iff ((answer (readTokens (project.sourcePath t)) d).isOk = true) (by
    unfold Loads
    cases answer (readTokens (project.sourcePath t)) d <;> simp [Except.isOk, Except.toBool])

theorem loads_of_loadThemes {themes : List Theme} {ts : List LoadedTheme}
    (loaded : answer (project.loadThemes themes) d = .ok ts) :
    ts.map LoadedTheme.theme = themes ∧
      ∀ u ∈ ts, answer (readTokens (project.sourcePath u.theme)) d = .ok u.tokens := by
  have read := project.forall₂_of_loadThemes loaded
  clear loaded
  induction read with
  | nil => simp
  | cons here _ ih =>
    obtain ⟨rfl, read⟩ := here
    obtain ⟨themes, each⟩ := ih
    exact ⟨congrArg _ themes, List.forall_mem_cons.mpr ⟨read, each⟩⟩

theorem exists_loaded {themes : List Theme} (loads : ∀ t ∈ themes, project.Loads d t) :
    ∃ ts, answer (project.loadThemes themes) d = .ok ts := by
  induction themes with
  | nil => exact ⟨[], rfl⟩
  | cons t rest ih =>
    obtain ⟨⟨tokens, read⟩, others⟩ := List.forall_mem_cons.mp loads
    obtain ⟨ts, later⟩ := ih others
    exact ⟨⟨t, tokens⟩ :: ts, by rw [answer_loadThemes_cons, read, later]; rfl⟩

theorem exists_unread {themes : List Theme} (unread : ∃ t ∈ themes, ¬ project.Loads d t) :
    ∃ fault, answer (project.loadThemes themes) d = .error fault := by
  obtain ⟨t, listed, unread⟩ := unread
  cases loaded : answer (project.loadThemes themes) d with
  | error fault => exact ⟨fault, rfl⟩
  | ok ts =>
    obtain ⟨rfl, each⟩ := loads_of_loadThemes loaded
    obtain ⟨u, member, rfl⟩ := List.mem_map.mp listed
    exact absurd ⟨u.tokens, each u member⟩ unread

end Project

namespace Build

def resultOf (project : Project) (d : Desk) (t : Theme) : Except Fault Check.NamedTheme := do
  named project.manifest ⟨t, ← answer (readTokens (project.sourcePath t)) d⟩

theorem resultOf_loaded {project : Project} {d : Desk} {t : LoadedTheme}
    (read : answer (readTokens (project.sourcePath t.theme)) d = .ok t.tokens) :
    resultOf project d t.theme = named project.manifest t := by
  rw [resultOf, read]
  rfl

theorem results_of_named {project : Project} {d : Desk} {ts : List LoadedTheme}
    {ns : List Check.NamedTheme}
    (read : ∀ t ∈ ts, answer (readTokens (project.sourcePath t.theme)) d = .ok t.tokens)
    (compiled : List.Forall₂ (fun t n => named project.manifest t = .ok n) ts ns) :
    List.Forall₂ (fun t n => resultOf project d t = .ok n) (ts.map LoadedTheme.theme) ns := by
  rw [List.forall₂_map_left_iff]
  exact ((List.forall₂_and_left ..).mpr ⟨read, compiled⟩).imp fun t n known =>
    (resultOf_loaded known.1).trans known.2

theorem noted_of_written {fs : List OutputFile} {d d' : Desk} {paths : List Path}
    (ran : exec (fs.mapM writeFile) d = (.ok paths, d')) (notes : List (Path × String)) :
    noted (fs.mapM writeFile) d notes =
      ((.ok paths, d'), notes ++ fs.map fun f => (f.path, f.text)) := by
  induction fs generalizing d paths notes with
  | nil =>
    cases ran
    simp
  | cons f rest ih =>
    rw [List.mapM_cons, Desk.exec_bind, exec_writeFile] at ran
    rw [List.mapM_cons, Desk.noted_bind, noted_writeFile]
    cases wrote : d.disk.write? d.place f.path f.text with
    | none =>
      rw [wrote] at ran
      cases ran
    | some disk =>
      rw [wrote] at ran
      dsimp only at ran ⊢
      rw [Desk.exec_bind] at ran
      rw [Desk.noted_bind]
      rcases later : exec (rest.mapM writeFile) { d with disk := disk } with ⟨fault | more, last⟩
      · rw [later] at ran
        cases ran
      · rw [later] at ran
        cases ran
        rw [ih later]
        simp

theorem noted_writeFiles (fs : List OutputFile) (d : Desk) (notes : List (Path × String)) :
    (∃ d', noted (fs.mapM writeFile) d notes =
        ((.ok (fs.map OutputFile.path), d'), notes ++ fs.map fun f => (f.path, f.text)) ∧
      Did [] (fs.map fun f => (f.path, f.text)) d d') ∨
    ∃ fault d' notes', noted (fs.mapM writeFile) d notes = ((.error fault, d'), notes') ∧
      fault.IsWriting := by
  obtain ⟨d', ran, did⟩ | ⟨fault, d', stuck, writing⟩ := exec_writeFiles fs d
  · exact .inl ⟨d', noted_of_written ran notes, did⟩
  · have same := follows_writeFiles fs d notes
    rw [stuck] at same
    exact .inr ⟨fault, d', _, Prod.ext same rfl, writing⟩

theorem noted_buildThemes_cons (manifest : Manifest) (output : Path) (t : LoadedTheme)
    (rest : List LoadedTheme) (d : Desk) (notes : List (Path × String)) :
    noted (buildThemes manifest output (t :: rest)) d notes = match named manifest t with
      | .error fault => ((.error fault, told manifest t d), notes)
      | .ok n => noted (do
          let written ← (files n.name n.compilation output).mapM writeFile
          let others ← buildThemes manifest output rest
          return ⟨n :: others.themes, written ++ others.written⟩) (told manifest t d) notes := by
  have announced (verb message : String) (d : Desk) :
      noted (Progress.status verb message) d notes = ((.ok (), d.say [progressLine verb message]), notes) := rfl
  have shown (p : Path) (d : Desk) :
      noted (Progress.shown p) d notes = ((.ok (Path.shown d.directory p), d), notes) := rfl
  rw [buildThemes]
  simp only [Desk.noted_bind, shown, announced, reads_checked manifest t _ _, exec_checked]
  cases compiled : named manifest t with
  | error fault => rfl
  | ok n =>
    obtain ⟨name, c⟩ := n
    obtain rfl : name = t.theme.name := name_of_named compiled
    rfl

/-- Themes that stop, but not for a file, stop at one of them, and those before it are written. -/
theorem noted_buildThemes {manifest : Manifest} {output : Path} {ts : List LoadedTheme} {d d' : Desk}
    {notes notes' : List (Path × String)} {fault : Fault} (unhindered : ¬ fault.IsWriting)
    (stopped : noted (buildThemes manifest output ts) d notes = ((.error fault, d'), notes')) :
    ∃ before t after ns, ts = before ++ t :: after ∧
      List.Forall₂ (fun u n => named manifest u = .ok n) before ns ∧
      named manifest t = .error fault ∧ notes' = notes ++ ns.flatMap (writes output) ∧
      ∃ said, Did said (ns.flatMap (writes output)) d d' := by
  induction ts generalizing d notes with
  | nil => cases stopped
  | cons t rest ih =>
    have said := did_told manifest t d
    rw [noted_buildThemes_cons] at stopped
    cases compiled : named manifest t with
    | error other =>
      rw [compiled] at stopped
      cases stopped
      exact ⟨[], t, rest, [], rfl, .nil, compiled, by simp, _, said⟩
    | ok n =>
      rw [compiled] at stopped
      dsimp only at stopped
      rw [Desk.noted_bind] at stopped
      obtain ⟨middle, wrote, own⟩ | ⟨other, last, final, stuck, writing⟩ :=
        noted_writeFiles (files n.name n.compilation output) (told manifest t d) notes
      · change noted _ _ _ = (_, notes ++ writes output n) at wrote
        rw [wrote] at stopped
        dsimp only at stopped
        rw [Desk.noted_bind] at stopped
        rcases later : noted (buildThemes manifest output rest) middle (notes ++ writes output n)
          with ⟨⟨other | built, last⟩, final⟩
        · rw [later] at stopped
          cases stopped
          obtain ⟨before, u, after, ns, rfl, passed, rejected, rfl, others, did⟩ := ih later
          refine ⟨t :: before, u, after, n :: ns, rfl, .cons compiled passed, rejected, ?_, _,
            said.trans (own.trans did)⟩
          rw [List.flatMap_cons, List.append_assoc]
        · rw [later] at stopped
          cases stopped
      · rw [stuck] at stopped
        cases stopped
        exact absurd writing unhindered

/-- The desk on which token files are read: the output directory has been made where it was not there. -/
def prepared (output : Path) (d : Desk) : Desk :=
  if (d.locate? output).any d.disk.isTaken then d
  else { d with disk := (Disk.makeDirectories d.place (output.length + 1) output d.disk).1 }

theorem answer_run_noThemes {a : Arguments} {d : Desk} {project : Project}
    (located : answer (Project.locate a.path) d = .ok project)
    (nothing : project.manifest.themes = []) : answer (run a) d = .ok [] := by
  rw [run, Desk.answer_bind (Project.after_locate a.path d), located]
  change answer (if project.manifest.themes.isEmpty then _ else _) d = _
  rw [nothing]
  rfl

theorem noted_run {a : Arguments} {d : Desk} {project : Project}
    (located : answer (Project.locate a.path) d = .ok project)
    (listed : project.manifest.themes ≠ []) (notes : List (Path × String)) :
    noted (run a) d notes =
        noted (compileAll project (outputOf a project)) (prepared (outputOf a project) d) notes ∨
      noted (run a) d notes = ((.error (.file (outputOf a project) .directoryNotCreated),
        prepared (outputOf a project) d), notes) := by
  have reads : noted (Project.locate a.path) d notes = ((.ok project, d), notes) := by
    rw [Desk.reads_locate, Desk.exec_of_reads (Project.after_locate a.path d), located]
  have looked : noted (Workspace.isThere (m := Noting (StateM Desk)) (outputOf a project)) d notes =
      ((.ok ((d.locate? (outputOf a project)).any d.disk.isTaken), d), notes) := rfl
  have output : a.output.getD project.outputDirectory = outputOf a project := rfl
  rw [run, Desk.noted_bind, reads]
  simp only [List.isEmpty_iff, listed, if_false, output]
  rw [Desk.noted_bind, looked, prepared]
  cases (d.locate? (outputOf a project)).any d.disk.isTaken with
  | true => exact .inl rfl
  | false =>
    have made : noted (Workspace.makeDirectories (m := Noting (StateM Desk)) (outputOf a project)) d
        notes = ((.ok (Disk.makeDirectories d.place ((outputOf a project).length + 1)
          (outputOf a project) d.disk).2, { d with disk := (Disk.makeDirectories d.place
            ((outputOf a project).length + 1) (outputOf a project) d.disk).1 }), notes) := rfl
    simp only [Bool.not_false, if_true]
    rw [Desk.noted_bind, made]
    cases (Disk.makeDirectories d.place ((outputOf a project).length + 1) (outputOf a project)
      d.disk).2 with
    | true => exact .inl rfl
    | false => exact .inr rfl

theorem noted_load (project : Project) (d : Desk) (notes : List (Path × String)) :
    noted project.load d notes = ((answer project.load d, d), notes) := by
  have reads : Desk.after project.load d = d := project.after_loadThemes ..
  rw [Project.load, Desk.reads_loadThemes]
  exact congrArg (·, notes) (Desk.exec_of_reads reads)

theorem noted_compileAll_unread {project : Project} {output : Path} {d : Desk} {fault : Fault}
    (unread : answer project.load d = .error fault) (notes : List (Path × String)) :
    noted (compileAll project output) d notes = ((.error fault, d), notes) := by
  rw [compileAll, Desk.noted_bind, noted_load, unread]

theorem noted_compileAll_stopped {project : Project} {output : Path} {d d' : Desk}
    {ts : List LoadedTheme} {fault : Fault} {notes notes' : List (Path × String)}
    (loaded : answer project.load d = .ok ts)
    (stopped : noted (compileAll project output) d notes = ((.error fault, d'), notes')) :
    noted (buildThemes project.manifest output ts) d notes = ((.error fault, d'), notes') := by
  rw [compileAll, Desk.noted_bind, noted_load, loaded] at stopped
  dsimp only at stopped
  rw [Desk.noted_bind] at stopped
  rcases ran : noted (buildThemes project.manifest output ts) d notes with ⟨⟨other | built, last⟩, final⟩
  · rw [ran] at stopped
    cases stopped
    rfl
  · rw [ran] at stopped
    dsimp only at stopped
    rw [Desk.noted_bind, Desk.reads_findings, Desk.exec_findings] at stopped
    cases stopped

theorem noted_run_unread {a : Arguments} {d : Desk} {project : Project}
    (located : answer (Project.locate a.path) d = .ok project)
    (unread : ∃ t ∈ project.manifest.themes,
      ¬ project.Loads (prepared (outputOf a project) d) t) (notes : List (Path × String)) :
    ∃ fault, noted (run a) d notes =
      ((.error fault, prepared (outputOf a project) d), notes) := by
  have listed : project.manifest.themes ≠ [] := by
    obtain ⟨t, member, -⟩ := unread
    exact List.ne_nil_of_mem member
  obtain ⟨fault, missing⟩ := Project.exists_unread unread
  rcases noted_run located listed notes with same | hindered
  · exact ⟨fault, same.trans (noted_compileAll_unread missing notes)⟩
  · exact ⟨_, hindered⟩

end Build

open Build

/--
A build that fails, though every token file is loaded and no directory or file fails to be written, fails at a
theme that its checks or its compilation reject. It has then written the four files of each theme before that
one, in order, and nothing else. If a token file cannot be loaded, nothing is written.
-/
theorem writes_of_failed_build (a : Arguments) (d : Desk) (project : Project)
    (located : answer (Project.locate a.path) d = .ok project) :
    ((∀ t ∈ project.manifest.themes, project.Loads (prepared (outputOf a project) d) t) →
      ∀ fault, answer (run a) d = .error fault → ¬ fault.IsWriting →
        ∃ before t after ns, project.manifest.themes = before ++ t :: after ∧
          List.Forall₂ (fun u n => resultOf project (prepared (outputOf a project) d) u = .ok n)
            before ns ∧
          resultOf project (prepared (outputOf a project) d) t = .error fault ∧
          written (run a) d = ns.flatMap (writes (outputOf a project)) ∧
          ∃ said, Did said (ns.flatMap (writes (outputOf a project)))
            (prepared (outputOf a project) d) (Desk.after (run a) d)) ∧
    ((∃ t ∈ project.manifest.themes, ¬ project.Loads (prepared (outputOf a project) d) t) →
      (∃ fault, answer (run a) d = .error fault) ∧ written (run a) d = [] ∧
        Desk.after (run a) d = prepared (outputOf a project) d) := by
  constructor
  · intro loads fault failed unhindered
    have nonempty : project.manifest.themes ≠ [] := by
      intro nothing
      rw [answer_run_noThemes located nothing] at failed
      cases failed
    obtain ⟨ts, loaded⟩ := Project.exists_loaded loads
    obtain ⟨themes, read⟩ := Project.loads_of_loadThemes loaded
    have stopped : noted (run a) d [] =
        ((.error fault, Desk.after (run a) d), written (run a) d) := by
      rw [← failed]
      exact Prod.ext (follows_run a d []) rfl
    rcases noted_run located nonempty [] with same | hindered
    · rw [same] at stopped
      obtain ⟨before, t, after, ns, rfl, passed, rejected, own, said, did⟩ :=
        noted_buildThemes unhindered (noted_compileAll_stopped loaded stopped)
      rw [List.map_append, List.map_cons] at themes
      have earlier := results_of_named (fun u member => read u (List.mem_append_left _ member)) passed
      have here := (resultOf_loaded (read t (by simp))).trans rejected
      exact ⟨_, t.theme, _, ns, themes.symm, earlier, here, own, said, did⟩
    · have same := congrArg (fun ran => ran.1.1) (hindered.symm.trans stopped)
      obtain rfl := Except.error.inj same
      exact absurd trivial unhindered
  · intro unread
    obtain ⟨fault, ran⟩ := noted_run_unread located unread []
    obtain ⟨failed, left, noted⟩ := (follows_run a).ends ran
    exact ⟨⟨fault, failed⟩, noted, left⟩

-- Three themes; the second uses a media name that nobody declares.
def Desk.undeclared : Desk :=
  .holding [("dstokens.yaml", "themes:\n  - name: day\n    source: day.yaml\n" ++
      "  - name: noon\n    source: noon.yaml\n  - name: night\n    source: night.yaml\n"),
    ("day.yaml", "bg: white\n"), ("noon.yaml", "bg:\n  - wide: 1px\n  - 2px\n"),
    ("night.yaml", "bg: black\n")]

-- The last of two token files is not there.
def Desk.unfinished : Desk :=
  .holding [("dstokens.yaml", "themes:\n  - name: day\n    source: day.yaml\n" ++
      "  - name: night\n    source: night.yaml\n"), ("day.yaml", "bg: white\n")]

theorem exists_of_read {ε α β : Type} {x : Except ε α} {f : α → β} {b : β}
    (read : x.toOption.map f = some b) : ∃ a, x = .ok a ∧ f a = b := by
  cases x with
  | error fault => cases read
  | ok a => exact ⟨a, rfl, Option.some.inj read⟩

def Desk.undeclaredWrites : List (Path × String) :=
  [("./dist/day.css", "@property --a0\x7bsyntax:\"<color>\";inherits:false;initial-value:white;\x7d" ++
      ":root\x7b--a0:white;\x7d"),
    ("./dist/day.jss.json", "\x7b\n  \"@property --a0\": \x7b\n    \"syntax\": \"\\\"<color>\\\"\",\n" ++
      "    \"inherits\": false,\n    \"initialValue\": \"white\"\n  \x7d,\n" ++
      "  \":root\": \x7b\n    \"--a0\": \"white\"\n  \x7d\n\x7d"),
    ("./dist/day.refs.json", "\x7b\n  \"bg\": \"var(--a0, white)\"\n\x7d"),
    ("./dist/day.map.json", "\x7b\n  \"--a0\": \"--bg\"\n\x7d")]

theorem writes_of_failed_build_second :
    (∃ (project : Project) (f : Finding) (ns : List Check.NamedTheme),
      answer (Project.locate ".") .undeclared = .ok project ∧
      (∀ t ∈ project.manifest.themes, project.Loads (prepared "./dist" .undeclared) t) ∧
      answer (run ⟨".", none⟩) .undeclared = .error (.finding f) ∧
      ¬ Fault.IsWriting (.finding f) ∧
      f.text = "error[dstokens::validate::unknown-media]: bg: Unknown media 'wide'" ∧
      written (run ⟨".", none⟩) .undeclared = ns.flatMap (writes "./dist") ∧
      ns.flatMap (writes "./dist") = Desk.undeclaredWrites) ∧
    ∃ project : Project, answer (Project.locate ".") .unfinished = .ok project ∧
      (∃ t ∈ project.manifest.themes, ¬ project.Loads (prepared "./dist" .unfinished) t) ∧
      (∃ fault, answer (run ⟨".", none⟩) .unfinished = .error fault) ∧
      written (run ⟨".", none⟩) .unfinished = [] ∧
      Desk.after (run ⟨".", none⟩) .unfinished = prepared "./dist" .unfinished := by
  constructor
  · have read : (answer (Project.locate ".") .undeclared).toOption.map (fun project =>
        (outputOf ⟨".", none⟩ project, decide (∀ t ∈ project.manifest.themes,
          project.Loads (prepared "./dist" .undeclared) t))) = some ("./dist", true) := by
      decide +kernel
    have ended : (match noted (run ⟨".", none⟩) .undeclared [] with
        | ((.error (.finding f), _), notes) => some (f.text, notes)
        | _ => none) =
          some ("error[dstokens::validate::unknown-media]: bg: Unknown media 'wide'",
            Desk.undeclaredWrites) := by
      decide +kernel
    obtain ⟨project, located, found⟩ := exists_of_read read
    obtain ⟨output, loads⟩ := Prod.mk.inj found
    have loads := of_decide_eq_true loads
    have whole := (writes_of_failed_build ⟨".", none⟩ .undeclared project located).1
    rw [output] at whole
    split at ended
    next f d' notes ran =>
      obtain ⟨failed, -, noted⟩ := (follows_run _).ends ran
      obtain ⟨text, rfl⟩ := Prod.mk.inj (Option.some.inj ended)
      have unhindered : ¬ Fault.IsWriting (.finding f) := id
      obtain ⟨before, t, after, ns, -, -, -, own, -⟩ := whole loads _ failed unhindered
      exact ⟨project, f, ns, located, loads, failed, unhindered, text, own, own.symm.trans noted⟩
    next => exact absurd ended (by simp)
  · have read : (answer (Project.locate ".") .unfinished).toOption.map (fun project =>
        (outputOf ⟨".", none⟩ project, decide (∃ t ∈ project.manifest.themes,
          ¬ project.Loads (prepared "./dist" .unfinished) t))) = some ("./dist", true) := by
      decide +kernel
    obtain ⟨project, located, found⟩ := exists_of_read read
    obtain ⟨output, unread⟩ := Prod.mk.inj found
    have unread := of_decide_eq_true unread
    have whole := (writes_of_failed_build ⟨".", none⟩ .unfinished project located).2
    rw [output] at whole
    exact ⟨project, located, unread, whole unread⟩

end DesignTokens
