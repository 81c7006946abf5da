import ModuleExports.Name.Basic
import ModuleExports.Name.Kind
import ModuleExports.Source

/-!
Why a resolution fails. A defect is a fault of the program that called for the resolution; all other
failures are faults of the modules resolved.
-/
namespace ModuleExports

inductive Defect where
  /-- A visible name has no import record. -/
  | noRecords (kind : NameKind) (name : String)
  /-- A name was imported from a module that does not export it. -/
  | notExported (kind : NameKind) (name : String) (module : ModuleName)
  | missingModule (module : ModuleName)
  | committedTwice (module : ModuleName)
  | scheduledTwice (module : ModuleName)
  | unknownDependency (dependency dependent : ModuleName)
  | unplanned (module : ModuleName)
  | other (text : String)
  deriving DecidableEq, Inhabited

def Defect.message : Defect → String
  | noRecords kind name => "import table entry for " ++ kind.label ++ " '" ++ name ++
      "' has no records"
  | notExported kind name m => kind.label ++ " '" ++ name ++ "' was imported from " ++ m.text ++
      " but " ++ m.text ++ " does not export it"
  | missingModule m => "module " ++ m.text ++ " is missing from the environment"
  | committedTwice m => "module " ++ m.text ++ " committed to the environment twice"
  | scheduledTwice m => "module " ++ m.text ++ " scheduled for resolution twice"
  | unknownDependency d m => "dependency " ++ d.text ++ " of " ++ m.text ++
      " is neither scheduled nor resolved"
  | unplanned m => "module " ++ m.text ++ " missing from build plan"
  | other text => text

inductive Failure where
  | unknownExport (module : ModuleName) (span : Span) (kind : NameKind) (name : String)
  | unknownConstructor (module : ModuleName) (span : Span) (type constructor : String)
  | importConflict (module : ModuleName) (span : Span) (kind : NameKind) (name : String)
      (homes : List ModuleName)
  | circularDependency (modules : List ModuleName)
  | internal (defect : Defect)
  deriving DecidableEq, Inhabited

namespace Failure

def isDefect : Failure → Bool
  | internal _ => true
  | _ => false

/-- The module at fault, if the failure is reported against one. -/
def module? : Failure → Option ModuleName
  | unknownExport m .. | unknownConstructor m .. | importConflict m .. => some m
  | circularDependency _ | internal _ => none

def span? : Failure → Option Span
  | unknownExport _ s .. | unknownConstructor _ s .. | importConflict _ s .. => some s
  | circularDependency _ | internal _ => none

def message : Failure → String
  | unknownExport m s kind name => toString s ++ ": cannot export unknown " ++ kind.label ++ " '" ++
      name ++ "' from module " ++ m.text
  | unknownConstructor m s type constructor => toString s ++
      ": cannot export unknown data constructor '" ++ constructor ++ "' for type '" ++ type ++
      "' from module " ++ m.text
  | importConflict m s kind name homes => toString s ++ ": conflicting imports for " ++
      kind.label ++ " '" ++ name ++ "' in module " ++ m.text ++ ", candidates from: " ++ ModuleName.listing homes
  | circularDependency ms => "Circular dependency detected: " ++ ModuleName.listing ms
  | internal d => "Internal error: " ++ d.message

end Failure

end ModuleExports
