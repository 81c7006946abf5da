import ModuleExports.Import.Table
import ModuleExports.Outcome.Warning

/-!
Settling ambiguous imports. A name with several records can be used when all of them lead to one
home module, or when all but one of them came in through open imports.
-/
namespace ModuleExports

/-- Where an imported name is used. -/
structure UseSite where
  module : ModuleName
  kind : NameKind
  name : String
  span : Span
  reportShadowing : Bool
  deriving DecidableEq, Inhabited

namespace UseSite

/-- The warning that `chosen` hides the other records. -/
def shadowing (site : UseSite) (records : List ImportRecord) (chosen : ImportRecord) : Warning :=
  .shadowing site.module site.span site.kind site.name chosen.module
    (ModuleName.distinct ((records.map ImportRecord.module).filter (· != chosen.module)))

/-- The failure that the records disagree, with all the homes they lead to. -/
def conflict (site : UseSite) (records : List ImportRecord) : Failure :=
  .importConflict site.module site.span site.kind site.name
    (ModuleName.distinct (records.map ImportRecord.home))

/-- The record to which a use of the name refers. -/
def settle (site : UseSite) (records : List ImportRecord) : Outcome ImportRecord :=
  match records with
  | [] => .fail (.internal (.noRecords site.kind site.name))
  | first :: rest =>
    if rest.all (·.home == first.home) then pure first
    else match records.filter (·.style != .implicit) with
      | [chosen] => do
        if site.reportShadowing && chosen.style == .explicit then
          .emit (site.shadowing records chosen)
        return chosen
      | _ => .fail (site.conflict records)

end UseSite

end ModuleExports
