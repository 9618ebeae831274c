import DesignTokens.Proofs.DeskRuns

set_option autoImplicit false

namespace DesignTokens

open Desk

def Fault.IsWriting : Fault → Prop
  | .file _ .cssNotWritten | .file _ .jsonNotWritten | .file _ .directoryNotCreated => True
  | _ => False

namespace Build

inductive Said where
  | compiling (name source : String)
  | finding (f : Finding)
  | noThemes
  | finished (themes : Nat) (output : String)

namespace Said

def lines : Said → List String
  | compiling name source => [progressLine "Compiling" (name ++ " (" ++ source ++ ")")]
  | finding f => findingLines f
  | noThemes => [progressLine "Warning" "manifest lists no themes"]
  | finished themes output =>
      [progressLine "Finished" (counted themes "theme" "themes" ++ " to " ++ output)]

def finding? : Said → Option Finding
  | finding f => some f
  | _ => none

end Said

def writes (output : Path) (n : Check.NamedTheme) : List (Path × String) :=
  (files n.name n.compilation output).map fun f => (f.path, f.text)

/-- From one desk to another by messages and writes. -/
structure Did (said : List Said) (written : List (Path × String)) (d d' : Desk) : Prop where
  directory : d'.directory = d.directory
  printed : d'.printed = d.printed ++ said.flatMap Said.lines
  disk : d.disk.writeAll? d.place written = some d'.disk

theorem Did.refl (d : Desk) : Did [] [] d d := ⟨rfl, by simp, rfl⟩

theorem Did.trans {first second : List Said} {before after : List (Path × String)}
    {d d' d'' : Desk} (did : Did first before d d') (next : Did second after d' d'') :
    Did (first ++ second) (before ++ after) d d'' where
  directory := next.directory.trans did.directory
  printed := by rw [next.printed, did.printed, List.flatMap_append, List.append_assoc]
  disk := by
    have same : d'.place = d.place := by rw [place, place, did.directory]
    rw [Disk.writeAll?_append, did.disk, Option.bind_some, ← same, next.disk]

theorem did_say (d : Desk) (said : List Said) : Did said [] d (d.say (said.flatMap Said.lines)) :=
  ⟨rfl, rfl, rfl⟩

theorem run_write (p : Path) (text : String) (d : Desk) :
    (Workspace.write (m := StateM Desk) p text).run d = match d.disk.write? d.place p text with
      | some disk => (true, { d with disk := disk })
      | none => (false, d) := by
  change ((match d.disk.write? d.place p text with
    | some disk => (disk, true)
    | none => (d.disk, false)).2, _) = _
  cases d.disk.write? d.place p text <;> rfl

theorem exec_writeFile (f : OutputFile) (d : Desk) :
    exec (writeFile f) d = match d.disk.write? d.place f.path f.text with
      | some disk => (.ok f.path, { d with disk := disk })
      | none => (.error (.file f.path (writeFault f.kind)), d) := by
  have opened : exec (Workspace.write (m := StateM Desk) f.path f.text) d =
      match (Workspace.write (m := StateM Desk) f.path f.text).run d with
        | (done, next) => (.ok done, next) := rfl
  rw [writeFile, exec_bind, opened, run_write]
  cases d.disk.write? d.place f.path f.text <;> rfl

theorem writeFault_isWriting (p : Path) (kind : FileKind) :
    Fault.IsWriting (.file p (writeFault kind)) := by
  cases kind <;> trivial

theorem exec_writeFiles (fs : List OutputFile) (d : Desk) :
    (∃ d', exec (fs.mapM writeFile) d = (.ok (fs.map OutputFile.path), d') ∧
      Did [] (fs.map fun f => (f.path, f.text)) d d') ∨
    ∃ fault d', exec (fs.mapM writeFile) d = (.error fault, d') ∧ fault.IsWriting := by
  induction fs generalizing d with
  | nil => exact .inl ⟨d, by simp, .refl d⟩
  | cons f rest ih =>
    rw [List.mapM_cons, exec_bind, exec_writeFile]
    cases wrote : d.disk.write? d.place f.path f.text with
    | none => exact .inr ⟨_, d, rfl, writeFault_isWriting ..⟩
    | some disk =>
      have own : Did [] [(f.path, f.text)] d { d with disk := disk } :=
        ⟨rfl, by simp, by simp [Disk.writeAll?, wrote]⟩
      dsimp only
      rw [exec_bind]
      obtain ⟨d', ran, others⟩ | ⟨fault, d', ran, writing⟩ := ih { d with disk := disk }
      · rw [ran]
        exact .inl ⟨d', rfl, own.trans others⟩
      · rw [ran]
        exact .inr ⟨fault, d', rfl, writing⟩

def findings (manifest : Manifest) (t : LoadedTheme) : Report :=
  (Check.theme t.tokens (manifest.settings t.theme)).map fun f => f.within t.theme.name

def named (manifest : Manifest) (t : LoadedTheme) : Except Fault Check.NamedTheme := do
  let settings := manifest.settings t.theme
  let _ ← Check.accept (Check.theme t.tokens settings)
  return ⟨t.theme.name, ← compile t.tokens settings⟩

theorem exec_checked (manifest : Manifest) (t : LoadedTheme) (d : Desk) :
    exec (checked manifest t) d = ((named manifest t).map Check.NamedTheme.compilation,
      d.say ((findings manifest t).flatMap findingLines)) := by
  unfold checked named
  dsimp only
  rw [exec_bind, exec_findings]
  dsimp only
  cases Check.accept (Check.theme t.tokens (manifest.settings t.theme)) with
  | error fault => rfl
  | ok report =>
    dsimp only
    cases compile t.tokens (manifest.settings t.theme) <;> rfl

theorem name_of_named {manifest : Manifest} {t : LoadedTheme} {n : Check.NamedTheme}
    (compiled : named manifest t = .ok n) : n.name = t.theme.name := by
  obtain ⟨report, -, compiled⟩ := bind_eq_ok compiled
  obtain ⟨c, -, ended⟩ := bind_eq_ok compiled
  obtain rfl := Except.ok.inj ended
  rfl

theorem forall₂_of_named {manifest : Manifest} {ts : List LoadedTheme} {ns : List Check.NamedTheme}
    (compiled : ts.mapM (named manifest) = .ok ns) :
    List.Forall₂ (fun t n => named manifest t = .ok n) ts ns := by
  induction ts generalizing ns with
  | nil =>
    obtain rfl := Except.ok.inj compiled
    exact .nil
  | cons t rest ih =>
    rw [List.mapM_cons] at compiled
    obtain ⟨n, first, compiled⟩ := bind_eq_ok compiled
    obtain ⟨others, later, ended⟩ := bind_eq_ok compiled
    obtain rfl := Except.ok.inj ended
    exact .cons first (ih later)

def saidOf (manifest : Manifest) (directory : Path) (t : LoadedTheme) : List Said :=
  .compiling t.theme.name (Path.shown directory t.theme.source) ::
    (findings manifest t).map .finding

def told (manifest : Manifest) (t : LoadedTheme) (d : Desk) : Desk :=
  (d.say [progressLine "Compiling" (t.theme.name ++ " (" ++
    Path.shown d.directory t.theme.source ++ ")")]).say ((findings manifest t).flatMap findingLines)

theorem did_told (manifest : Manifest) (t : LoadedTheme) (d : Desk) :
    Did (saidOf manifest d.directory t) [] d (told manifest t d) := by
  refine ⟨rfl, ?_, rfl⟩
  simp [told, say, saidOf, Said.lines, List.flatMap_map]

theorem exec_buildThemes_cons (manifest : Manifest) (output : Path) (t : LoadedTheme)
    (rest : List LoadedTheme) (d : Desk) :
    exec (buildThemes manifest output (t :: rest)) d = match named manifest t with
      | .error fault => (.error fault, told manifest t d)
      | .ok n => exec (do
          let written ← (files n.name n.compilation output).mapM writeFile
          let others ← buildThemes manifest output rest
          return ⟨n :: others.themes, written ++ others.written⟩) (told manifest t d) := by
  rw [buildThemes]
  simp only [exec_bind, exec_shown, exec_status, exec_checked]
  cases compiled : named manifest t with
  | error fault => rfl
  | ok n =>
    obtain ⟨name, c⟩ := n
    obtain rfl : name = t.theme.name := name_of_named compiled
    rfl

theorem exec_buildThemes (manifest : Manifest) (output : Path) (ts : List LoadedTheme) (d : Desk) :
    (∃ built d', exec (buildThemes manifest output ts) d = (.ok built, d') ∧
      ts.mapM (named manifest) = .ok built.themes ∧
      built.written = (built.themes.flatMap (writes output)).map Prod.fst ∧
      Did (ts.flatMap (saidOf manifest d.directory)) (built.themes.flatMap (writes output)) d d') ∨
    ∃ fault d', exec (buildThemes manifest output ts) d = (.error fault, d') ∧
      (fault.IsWriting ∨ ts.mapM (named manifest) = .error fault) := by
  induction ts generalizing d with
  | nil => exact .inl ⟨⟨[], []⟩, d, rfl, rfl, rfl, .refl d⟩
  | cons t rest ih =>
    have said := did_told manifest t d
    rw [exec_buildThemes_cons, List.mapM_cons]
    -- Only what was said up to here counts from now on, not how.
    generalize told manifest t d = told at said ⊢
    cases compiled : named manifest t with
    | error fault => exact .inr ⟨fault, told, rfl, .inr rfl⟩
    | ok n =>
      dsimp only
      rw [exec_bind]
      obtain ⟨middle, wrote, own⟩ | ⟨fault, d', stuck, writing⟩ :=
        exec_writeFiles (files n.name n.compilation output) told
      · rw [wrote]
        dsimp only
        rw [exec_bind]
        obtain ⟨built, d', ran, others, paths, did⟩ | ⟨fault, d', stopped, cause⟩ := ih middle
        · rw [ran, others]
          have same : middle.directory = d.directory := own.directory.trans said.directory
          rw [same] at did
          refine .inl ⟨⟨n :: built.themes, _⟩, d', rfl, rfl, ?_, ?_⟩
          · rw [paths, List.flatMap_cons, List.map_append]
            rfl
          · have whole := said.trans (own.trans did)
            rwa [List.nil_append, List.nil_append] at whole
        · rw [stopped]
          refine .inr ⟨fault, d', rfl, cause.imp_right fun others => ?_⟩
          rw [others]
          rfl
      · rw [stuck]
        exact .inr ⟨fault, d', rfl, .inl writing⟩

structure Ready (d ready : Desk) : Prop where
  directory : ready.directory = d.directory
  printed : ready.printed = d.printed
  disk : d.disk.Extends ready.disk

def outputOf (a : Arguments) (project : Project) : Path := a.output.getD project.outputDirectory

inductive Outcome (a : Arguments) (d : Desk) : Except Fault (List Path) → Desk → Prop where
  | unlocated {fault : Fault} (unlocated : answer (Project.locate a.path) d = .error fault) :
      Outcome a d (.error fault) d
  | noThemes {project : Project} {d' : Desk}
      (located : answer (Project.locate a.path) d = .ok project)
      (nothing : project.manifest.themes = []) (did : Did [.noThemes] [] d d') :
      Outcome a d (.ok []) d'
  | hindered {fault : Fault} {d' : Desk} (writing : fault.IsWriting) : Outcome a d (.error fault) d'
  | unread {project : Project} {ready : Desk} {fault : Fault}
      (located : answer (Project.locate a.path) d = .ok project) (prepared : Ready d ready)
      (unread : answer project.load ready = .error fault) : Outcome a d (.error fault) ready
  | rejected {project : Project} {ready d' : Desk} {ts : List LoadedTheme} {fault : Fault}
      (located : answer (Project.locate a.path) d = .ok project) (prepared : Ready d ready)
      (loaded : answer project.load ready = .ok ts)
      (rejected : ts.mapM (named project.manifest) = .error fault) : Outcome a d (.error fault) d'
  | finished {project : Project} {ready d' : Desk} {ts : List LoadedTheme}
      {ns : List Check.NamedTheme}
      (located : answer (Project.locate a.path) d = .ok project) (prepared : Ready d ready)
      (loaded : answer project.load ready = .ok ts)
      (compiled : ts.mapM (named project.manifest) = .ok ns)
      (did : Did (ts.flatMap (saidOf project.manifest ready.directory) ++
          ((Check.names ns).map .finding ++
            [.finished ns.length (Path.shown ready.directory (outputOf a project))]))
        (ns.flatMap (writes (outputOf a project))) ready d') :
      Outcome a d (.ok ((ns.flatMap (writes (outputOf a project))).map Prod.fst)) d'

def compileAll {m : Type → Type} [Monad m] [Workspace m] (project : Project) (output : Path) :
    ExceptT Fault m (List Path) := do
  let built ← buildThemes project.manifest output (← project.load)
  Progress.findings (Check.names built.themes)
  Progress.status "Finished"
    (counted built.themes.length "theme" "themes" ++ " to " ++ (← Progress.shown output))
  return built.written

theorem outcome_compileAll {a : Arguments} {d ready : Desk} {project : Project}
    (located : answer (Project.locate a.path) d = .ok project) (prepared : Ready d ready) :
    Outcome a d (answer (compileAll project (outputOf a project)) ready)
      (after (compileAll project (outputOf a project)) ready) := by
  have reads : after project.load ready = ready := project.after_loadThemes ..
  unfold compileAll answer after
  rw [exec_bind, exec_of_reads reads]
  cases loaded : answer project.load ready with
  | error fault => exact .unread located prepared loaded
  | ok ts =>
    dsimp only
    rw [exec_bind]
    obtain ⟨built, d', ran, compiled, paths, did⟩ | ⟨fault, d', stopped, cause⟩ :=
      exec_buildThemes project.manifest (outputOf a project) ts ready
    · rw [ran]
      simp only [exec_bind, exec_findings, exec_shown, exec_status, exec_pure, paths, say_say]
      refine .finished located prepared loaded compiled ?_
      have told := did_say d' ((Check.names built.themes).map .finding ++
        [.finished built.themes.length (Path.shown ready.directory (outputOf a project))])
      rw [List.flatMap_append, List.flatMap_map] at told
      have whole := did.trans told
      rw [List.append_nil] at whole
      rw [← did.directory] at whole ⊢
      exact whole
    · rw [stopped]
      rcases cause with writing | rejected
      · exact .hindered writing
      · exact .rejected located prepared loaded rejected

theorem exec_makeDirectories (p : Path) (d : Desk) :
    ∃ made disk, exec (Workspace.makeDirectories (m := StateM Desk) p) d =
      (.ok made, { d with disk := disk }) ∧ d.disk.Extends disk :=
  ⟨_, _, rfl, Disk.makeDirectories_extends d.place (p.length + 1) p d.disk⟩

theorem outcome_run (a : Arguments) (d : Desk) :
    Outcome a d (answer (run a) d) (after (run a) d) := by
  unfold answer after
  rw [run, exec_bind, exec_of_reads (Project.after_locate a.path d)]
  cases located : answer (Project.locate a.path) d with
  | error fault => exact .unlocated located
  | ok project =>
    have output : a.output.getD project.outputDirectory = outputOf a project := rfl
    simp only [output]
    split
    next nothing =>
      exact .noThemes located (List.isEmpty_iff.mp nothing) (did_say d [.noThemes])
    next =>
      obtain ⟨there, looked⟩ : ∃ there,
          exec (Workspace.isThere (m := StateM Desk) (outputOf a project)) d = (.ok there, d) :=
        ⟨_, rfl⟩
      obtain ⟨made, disk, ran, more⟩ := exec_makeDirectories (outputOf a project) d
      rw [exec_bind, looked]
      cases there with
      | true => exact outcome_compileAll located ⟨rfl, rfl, .refl _⟩
      | false =>
        simp only [Bool.not_false, if_true]
        rw [exec_bind, ran]
        cases made with
        | false => exact .hindered trivial
        | true => exact outcome_compileAll located ⟨rfl, rfl, more⟩

end Build

end DesignTokens
