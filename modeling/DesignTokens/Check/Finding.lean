set_option autoImplicit false

namespace DesignTokens

inductive Severity where
  | warning
  | error
  deriving DecidableEq

def Severity.label : Severity → String
  | .warning => "warning"
  | .error => "error"

structure Finding where
  severity : Severity
  code : String
  message : String
  subject : Option String := none
  help : Option String := none
  deriving DecidableEq

namespace Finding

def about (f : Finding) (subject : String) : Finding := { f with subject := some subject }

def statement (f : Finding) : String :=
  match f.subject with
  | some subject => subject ++ ": " ++ f.message
  | none => f.message

def text (f : Finding) : String := f.severity.label ++ "[" ++ f.code ++ "]: " ++ f.statement

def within (f : Finding) (theme : String) : Finding :=
  f.about (match f.subject with
    | some path => theme ++ ": " ++ path
    | none => theme)

end Finding

abbrev Report := List Finding

namespace Report

def count (severity : Severity) (r : List Finding) : Nat :=
  (r.filter fun f => f.severity == severity).length

def hasErrors (r : List Finding) : Bool := r.any fun f => f.severity == .error

def hasWarnings (r : List Finding) : Bool := r.any fun f => f.severity == .warning

def firstError? (r : List Finding) : Option Finding := r.find? fun f => f.severity == .error

@[simp]
theorem hasErrors_append (r s : List Finding) :
    hasErrors (r ++ s) = (hasErrors r || hasErrors s) := by
  simp [hasErrors]

end Report

end DesignTokens
