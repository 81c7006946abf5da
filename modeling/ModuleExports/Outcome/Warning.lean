import ModuleExports.Outcome.Failure
import ModuleExports.Outcome.Logged

/-!
What a resolution finds without failing, and the list in which such findings gather. A resolution
comes to a value or a failure, and in both cases to the warnings raised on the way.
-/
namespace ModuleExports

inductive Warning where
  /-- An export list names the same thing more than once. -/
  | duplicateRef (module : ModuleName) (span : Span) (kind : NameKind) (name : String)
      (occurrences : Nat)
  /-- An ambiguous name was settled in favour of its only explicit import. -/
  | shadowing (module : ModuleName) (span : Span) (kind : NameKind) (name : String)
      (chosen : ModuleName) (shadowed : List ModuleName)
  deriving DecidableEq

namespace Warning

def module : Warning → ModuleName
  | duplicateRef m .. | shadowing m .. => m

def span : Warning → Span
  | duplicateRef _ s .. | shadowing _ s .. => s

def message : Warning → String
  | duplicateRef m s kind name n => toString s ++ ": " ++ kind.label ++ " '" ++ name ++
      "' is exported " ++ toString n ++ " times from module " ++ m.text
  | shadowing m s kind name chosen shadowed => toString s ++ ": " ++ kind.label ++ " '" ++ name ++
      "' imported from " ++ chosen.text ++ " shadows the implicit import from " ++
      ModuleName.listing shadowed ++ " in module " ++ m.text

end Warning

/-- Warnings in the order in which they were raised. -/
structure WarningLog where
  warnings : List Warning := []
  deriving DecidableEq, Inhabited

namespace WarningLog

def count (d : WarningLog) : Nat := d.warnings.length

def isEmpty (d : WarningLog) : Bool := d.warnings.isEmpty

def warn (d : WarningLog) (w : Warning) : WarningLog := ⟨d.warnings ++ [w]⟩

/-- The warnings of `e` follow those of `d`. -/
def merge (d e : WarningLog) : WarningLog := ⟨d.warnings ++ e.warnings⟩

/-- One message a line. -/
def compact (d : WarningLog) : String := "\n".intercalate (d.warnings.map Warning.message)

end WarningLog

abbrev Outcome := Logged Warning Failure

end ModuleExports
