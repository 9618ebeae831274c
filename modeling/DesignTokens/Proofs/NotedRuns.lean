import DesignTokens.Proofs.BuildRuns

set_option autoImplicit false

namespace DesignTokens

abbrev Noting (m : Type → Type) := StateT (List (Path × String)) m

instance {m : Type → Type} [Monad m] [Workspace m] : Workspace (Noting m) where
  directory := StateT.lift (Workspace.directory (m := m))
  isFile p := StateT.lift (Workspace.isFile (m := m) p)
  isThere p := StateT.lift (Workspace.isThere (m := m) p)
  read p := StateT.lift (Workspace.read (m := m) p)
  makeDirectories p := StateT.lift (Workspace.makeDirectories (m := m) p)
  write p text := fun notes => do
    let done ← Workspace.write (m := m) p text
    return (done, if done then notes ++ [(p, text)] else notes)
  say line := StateT.lift (Workspace.say (m := m) line)

namespace Desk

variable {α β : Type}

def noted (x : ExceptT Fault (Noting (StateM Desk)) α) (d : Desk) (notes : List (Path × String)) :
    (Except Fault α × Desk) × List (Path × String) :=
  let ((result, notes), d) := (x.run.run notes).run d
  ((result, d), notes)

def written (x : ExceptT Fault (Noting (StateM Desk)) α) (d : Desk) : List (Path × String) :=
  (noted x d []).2

theorem noted_bind (x : ExceptT Fault (Noting (StateM Desk)) α)
    (f : α → ExceptT Fault (Noting (StateM Desk)) β) (d : Desk) (notes : List (Path × String)) :
    noted (x >>= f) d notes = match noted x d notes with
      | ((.ok a, next), notes) => noted (f a) next notes
      | ((.error fault, next), notes) => ((.error fault, next), notes) := by
  have opened : ((x >>= f).run.run notes).run d =
      (match (x.run.run notes).run d with
        | ((result, notes), next) => ((ExceptT.bindCont f result).run notes).run next) := rfl
  unfold noted
  rw [opened]
  rcases (x.run.run notes).run d with ⟨⟨fault | a, notes⟩, next⟩ <;> rfl

@[simp]
theorem noted_pure (a : α) (d : Desk) (notes : List (Path × String)) :
    noted (pure a) d notes = ((.ok a, d), notes) := rfl

section Following

variable (x : ExceptT Fault (Noting (StateM Desk)) α) (y : ExceptT Fault (StateM Desk) α)

/-- The first command is the second one, run with notes. -/
def Follows : Prop := ∀ d notes, (noted x d notes).1 = exec y d

def Reads : Prop := ∀ d notes, noted x d notes = (exec y d, notes)

end Following

variable {x : ExceptT Fault (Noting (StateM Desk)) α} {y : ExceptT Fault (StateM Desk) α}
  {f : α → ExceptT Fault (Noting (StateM Desk)) β} {g : α → ExceptT Fault (StateM Desk) β}

theorem Reads.follows (reads : Reads x y) : Follows x y := fun d notes => by rw [reads]

theorem Follows.ends (follows : Follows x y) {d d' : Desk} {result : Except Fault α}
    {notes : List (Path × String)} (ran : noted x d [] = ((result, d'), notes)) :
    answer y d = result ∧ Desk.after y d = d' ∧ written x d = notes := by
  have same := follows d []
  rw [ran] at same
  exact ⟨(congrArg Prod.fst same).symm, (congrArg Prod.snd same).symm, congrArg Prod.snd ran⟩

theorem Follows.bind (first : Follows x y) (later : ∀ a, Follows (f a) (g a)) :
    Follows (x >>= f) (y >>= g) := by
  intro d notes
  rw [noted_bind, exec_bind, ← first d notes]
  rcases noted x d notes with ⟨⟨fault | a, next⟩, notes⟩
  · rfl
  · exact later a next notes

theorem Reads.bind (first : Reads x y) (later : ∀ a, Reads (f a) (g a)) :
    Reads (x >>= f) (y >>= g) := by
  intro d notes
  rw [noted_bind, exec_bind, first]
  rcases exec y d with ⟨fault | a, next⟩
  · rfl
  · exact later a next notes

theorem reads_readTokens (p : Path) : Reads (readTokens p) (readTokens p) := by
  unfold readTokens
  cases TokenFormat.ofPath? p with
  | none => exact fun _ _ => rfl
  | some format =>
    refine Reads.bind (fun _ _ => rfl) fun found => ?_
    cases found with
    | none => exact fun _ _ => rfl
    | some text =>
      dsimp only
      split <;> exact fun _ _ => rfl

theorem reads_locate (p : Path) : Reads (Project.locate p) (Project.locate p) := by
  refine Reads.bind (fun _ _ => rfl) fun isFile => Reads.bind (fun _ _ => rfl) fun isThere => ?_
  dsimp only
  cases isThere with
  | false => exact fun _ _ => rfl
  | true =>
    refine Reads.bind (fun _ _ => rfl) fun found => ?_
    cases found with
    | none => exact fun _ _ => rfl
    | some text =>
      dsimp only
      split <;> exact fun _ _ => rfl

theorem reads_loadThemes (project : Project) (themes : List Theme) :
    Reads (project.loadThemes themes) (project.loadThemes themes) := by
  induction themes with
  | nil => exact fun _ _ => rfl
  | cons theme rest ih =>
    exact Reads.bind (reads_readTokens _) fun tokens => Reads.bind ih fun _ _ _ => rfl

theorem reads_findings (r : Report) : Reads (Progress.findings r) (Progress.findings r) := by
  unfold Progress.findings
  induction r.flatMap findingLines with
  | nil => exact fun _ _ => rfl
  | cons line rest ih =>
    exact Reads.bind (fun _ _ => rfl) fun _ => ih

end Desk

namespace Build

open Desk

theorem reads_checked (manifest : Manifest) (t : LoadedTheme) :
    Reads (checked manifest t) (checked manifest t) := by
  refine Reads.bind (reads_findings _) fun _ => ?_
  split
  next => exact fun _ _ => rfl
  next => split <;> exact fun _ _ => rfl

theorem noted_write (p : Path) (text : String) (d : Desk) (notes : List (Path × String)) :
    noted (Workspace.write (m := Noting (StateM Desk)) p text) d notes =
      match d.disk.write? d.place p text with
        | some disk => ((.ok true, { d with disk := disk }), notes ++ [(p, text)])
        | none => ((.ok false, d), notes) := by
  have opened : noted (Workspace.write (m := Noting (StateM Desk)) p text) d notes =
      match (Workspace.write (m := StateM Desk) p text).run d with
        | (done, next) => ((.ok done, next), if done then notes ++ [(p, text)] else notes) := rfl
  rw [opened, run_write]
  cases d.disk.write? d.place p text <;> rfl

theorem noted_writeFile (f : OutputFile) (d : Desk) (notes : List (Path × String)) :
    noted (writeFile f) d notes = match d.disk.write? d.place f.path f.text with
      | some disk => ((.ok f.path, { d with disk := disk }), notes ++ [(f.path, f.text)])
      | none => ((.error (.file f.path (writeFault f.kind)), d), notes) := by
  rw [writeFile, noted_bind, noted_write]
  cases d.disk.write? d.place f.path f.text <;> rfl

theorem follows_writeFile (f : OutputFile) : Follows (writeFile f) (writeFile f) := by
  intro d notes
  rw [noted_writeFile, exec_writeFile]
  cases d.disk.write? d.place f.path f.text <;> rfl

theorem follows_writeFiles (fs : List OutputFile) :
    Follows (fs.mapM writeFile) (fs.mapM writeFile) := by
  induction fs with
  | nil => exact fun _ _ => rfl
  | cons f rest ih =>
    rw [List.mapM_cons, List.mapM_cons]
    exact Follows.bind (follows_writeFile f) fun _ => Follows.bind ih fun _ _ _ => rfl

theorem follows_buildThemes (manifest : Manifest) (output : Path) (ts : List LoadedTheme) :
    Follows (buildThemes manifest output ts) (buildThemes manifest output ts) := by
  induction ts with
  | nil => exact fun _ _ => rfl
  | cons t rest ih =>
    refine Follows.bind (fun _ _ => rfl) fun _ => Follows.bind (fun _ _ => rfl) fun _ => ?_
    refine Follows.bind (reads_checked manifest t).follows fun _ => ?_
    exact Follows.bind (follows_writeFiles _) fun _ => Follows.bind ih fun _ _ _ => rfl

theorem follows_compileAll (project : Project) (output : Path) :
    Follows (compileAll project output) (compileAll project output) := by
  refine Follows.bind (reads_loadThemes project _).follows fun ts => ?_
  refine Follows.bind (follows_buildThemes _ _ ts) fun built => ?_
  exact Follows.bind (reads_findings _).follows fun _ => fun _ _ => rfl

theorem follows_run (a : Arguments) : Follows (run a) (run a) := by
  refine Follows.bind (reads_locate a.path).follows fun project => ?_
  dsimp only
  split
  next => exact fun _ _ => rfl
  next =>
    refine Follows.bind (fun _ _ => rfl) fun there => ?_
    cases there with
    | true => exact follows_compileAll project _
    | false =>
      refine Follows.bind (fun _ _ => rfl) fun made => ?_
      cases made with
      | false => exact fun _ _ => rfl
      | true => exact follows_compileAll project _

end Build

end DesignTokens
