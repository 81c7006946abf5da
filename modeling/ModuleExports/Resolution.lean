import ModuleExports.Interface.Candidate
import ModuleExports.ExportList.Duplicates
import ModuleExports.ExportList.ModuleRefs
import ModuleExports.ExportList.Narrowing

/-!
What a module publishes: its candidate table, narrowed to its export list if it has one, with the
names of the modules that the list refers to.
-/
namespace ModuleExports

structure ModuleSource where
  name : ModuleName
  declarations : List Declaration := []
  imports : Imports := {}
  exportList : Option (List ExportRef) := none
  deriving Inhabited

namespace ModuleSource

def candidate (m : ModuleSource) : Interface := .candidate m.name m.declarations

def scope (m : ModuleSource) (env : Environment) (settings : Settings) : ModuleView :=
  ⟨env, m.name, m.imports, settings⟩

/-- Duplicates in the list are reported only when it could be resolved. -/
def resolve (m : ModuleSource) (env : Environment) (settings : Settings) : Outcome Interface :=
  match m.exportList with
  | none => return m.candidate
  | some refs => do
    let narrowed ← .ofExcept (m.candidate.narrow m.name refs)
    let x ← (m.scope env settings).complete m.candidate narrowed refs
    if settings.reportDuplicateRefs then .emitAll (ExportRef.duplicates m.name refs)
    return x

end ModuleSource

end ModuleExports
