import DesignTokens.Command.Build
import DesignTokens.Command.Validate
import DesignTokens.Proofs.ContentOrigins
import DesignTokens.Proofs.DiskPlaces

set_option autoImplicit false

namespace DesignTokens

namespace Desk

variable {α β : Type}

def exec (x : ExceptT Fault (StateM Desk) α) (d : Desk) : Except Fault α × Desk := x.run.run d

def answer (x : ExceptT Fault (StateM Desk) α) (d : Desk) : Except Fault α := (exec x d).1

def after (x : ExceptT Fault (StateM Desk) α) (d : Desk) : Desk := (exec x d).2

theorem exec_bind (x : ExceptT Fault (StateM Desk) α) (f : α → ExceptT Fault (StateM Desk) β)
    (d : Desk) :
    exec (x >>= f) d = match exec x d with
      | (.ok a, next) => exec (f a) next
      | (.error fault, next) => (.error fault, next) := by
  change (match exec x d with
    | (result, next) => (ExceptT.bindCont f result).run next) = _
  rcases exec x d with ⟨fault | a, next⟩ <;> rfl

@[simp]
theorem exec_pure (a : α) (d : Desk) : exec (pure a) d = (.ok a, d) := rfl

@[simp]
theorem exec_throw (fault : Fault) (d : Desk) :
    exec (throw fault : ExceptT Fault (StateM Desk) α) d = (.error fault, d) := rfl

def say (d : Desk) (lines : List String) : Desk := { d with printed := d.printed ++ lines }

theorem say_say (d : Desk) (first second : List String) :
    (d.say first).say second = d.say (first ++ second) := by
  simp [say]

@[simp]
theorem exec_status (verb message : String) (d : Desk) :
    exec (Progress.status verb message) d = (.ok (), d.say [progressLine verb message]) := rfl

@[simp]
theorem exec_findings (r : Report) (d : Desk) :
    exec (Progress.findings r) d = (.ok (), d.say (r.flatMap findingLines)) := by
  unfold Progress.findings
  induction r.flatMap findingLines generalizing d with
  | nil => simp [say]
  | cons line rest ih =>
    have first : exec (Workspace.say (m := StateM Desk) line) d = (.ok (), d.say [line]) := rfl
    rw [List.forM_eq_forM, List.forM_cons, exec_bind, first]
    exact (ih (d.say [line])).trans (by rw [say_say, List.singleton_append])

@[simp]
theorem exec_shown (p : Path) (d : Desk) :
    exec (Progress.shown p) d = (.ok (Path.shown d.directory p), d) := rfl

theorem exec_of_reads {x : ExceptT Fault (StateM Desk) α} {d : Desk} (reads : after x d = d) :
    exec x d = (answer x d, d) :=
  Prod.ext rfl reads

theorem answer_bind {x : ExceptT Fault (StateM Desk) α} {d : Desk} (reads : after x d = d)
    (f : α → ExceptT Fault (StateM Desk) β) :
    answer (x >>= f) d = answer x d >>= fun a => answer (f a) d := by
  unfold answer
  rw [exec_bind, exec_of_reads reads]
  cases answer x d <;> rfl

theorem after_bind {x : ExceptT Fault (StateM Desk) α} {d : Desk}
    {f : α → ExceptT Fault (StateM Desk) β} (reads : after x d = d)
    (later : ∀ a, after (f a) d = d) : after (x >>= f) d = d := by
  unfold after
  rw [exec_bind, exec_of_reads reads]
  cases answer x d with
  | error fault => rfl
  | ok a => exact later a

theorem after_readTokens (p : Path) (d : Desk) : after (readTokens p) d = d := by
  unfold readTokens
  split
  next => rfl
  next format _ =>
    refine after_bind rfl fun found => ?_
    split
    next => rfl
    next text =>
      split <;> rfl

theorem answer_readTokens_congr {d d' : Desk} {p : Path} (same : d'.file? p = d.file? p) :
    answer (readTokens p) d' = answer (readTokens p) d := by
  unfold readTokens
  split
  next => rfl
  next format _ =>
    rw [answer_bind rfl, answer_bind rfl]
    have read (d : Desk) : answer (Workspace.read (m := StateM Desk) p) d = .ok (d.file? p) := rfl
    rw [read, read, same]
    change answer _ d' = answer _ d
    split
    next => rfl
    next text => split <;> rfl

theorem isSome_file?_of_readTokens {d : Desk} {p : Path} {tokens : Group}
    (read : answer (readTokens p) d = .ok tokens) : (d.file? p).isSome = true := by
  unfold readTokens at read
  split at read
  next => cases read
  next format _ =>
    rw [answer_bind rfl] at read
    cases found : d.file? p with
    | some text => rfl
    | none =>
      have nothing : answer (Workspace.read (m := StateM Desk) p) d = .ok none := by
        rw [← found]
        rfl
      rw [nothing] at read
      cases read

end Desk

namespace Project

open Desk

theorem after_locate (p : Path) (d : Desk) : after (locate p) d = d := by
  refine after_bind rfl fun isFile => after_bind rfl fun isThere => ?_
  dsimp only
  split
  next => rfl
  next =>
    refine after_bind rfl fun found => ?_
    split
    next => rfl
    next => split <;> rfl

variable (project : Project)

theorem after_loadThemes (themes : List Theme) (d : Desk) :
    after (project.loadThemes themes) d = d := by
  induction themes with
  | nil => rfl
  | cons theme rest ih =>
    exact after_bind (after_readTokens ..) fun tokens => after_bind ih fun _ => rfl

theorem answer_loadThemes_cons (theme : Theme) (rest : List Theme) (d : Desk) :
    answer (project.loadThemes (theme :: rest)) d =
      answer (readTokens (project.sourcePath theme)) d >>= fun tokens =>
        (answer (project.loadThemes rest) d).map (⟨theme, tokens⟩ :: ·) := by
  rw [loadThemes, answer_bind (after_readTokens ..)]
  congr 1
  funext tokens
  rw [answer_bind (project.after_loadThemes rest d)]
  cases answer (project.loadThemes rest) d <;> rfl

theorem answer_loadThemes_congr {d d' : Desk} (themes : List Theme)
    (same : ∀ t ∈ themes, d'.file? (project.sourcePath t) = d.file? (project.sourcePath t)) :
    answer (project.loadThemes themes) d' = answer (project.loadThemes themes) d := by
  induction themes with
  | nil => rfl
  | cons theme rest ih =>
    rw [answer_loadThemes_cons, answer_loadThemes_cons,
      answer_readTokens_congr (same theme List.mem_cons_self),
      ih fun t later => same t (List.mem_cons_of_mem _ later)]

theorem forall₂_of_loadThemes {d : Desk} {themes : List Theme} {ts : List LoadedTheme}
    (loaded : answer (project.loadThemes themes) d = .ok ts) :
    List.Forall₂ (fun t u => u.theme = t ∧
      answer (readTokens (project.sourcePath t)) d = .ok u.tokens) themes ts := by
  induction themes generalizing ts with
  | nil =>
    obtain rfl := Except.ok.inj loaded
    exact .nil
  | cons theme rest ih =>
    rw [answer_loadThemes_cons] at loaded
    obtain ⟨tokens, read, loaded⟩ := bind_eq_ok loaded
    cases later : answer (project.loadThemes rest) d with
    | error fault =>
      rw [later] at loaded
      cases loaded
    | ok others =>
      rw [later] at loaded
      obtain rfl := Except.ok.inj loaded
      exact .cons ⟨rfl, read⟩ (ih later)

theorem isSome_file?_of_loadThemes {d : Desk} (themes : List Theme) {ts : List LoadedTheme}
    (loaded : answer (project.loadThemes themes) d = .ok ts) :
    ∀ t ∈ themes, (d.file? (project.sourcePath t)).isSome = true := by
  have each := project.forall₂_of_loadThemes loaded
  clear loaded
  induction each with
  | nil => simp
  | cons here _ ih => exact List.forall_mem_cons.mpr ⟨isSome_file?_of_readTokens here.2, ih⟩

end Project

theorem Validate.answer_check (p : Path) (d : Desk) :
    Desk.answer (check p) d = Desk.answer (Project.locate p) d >>= fun project =>
      (Desk.answer project.load d).map (checkThemes project.manifest) := by
  rw [check, Desk.answer_bind (Project.after_locate p d)]
  congr 1
  funext project
  have reads : Desk.after project.load d = d := project.after_loadThemes _ d
  rw [Desk.answer_bind reads]
  cases Desk.answer project.load d <;> rfl

end DesignTokens
