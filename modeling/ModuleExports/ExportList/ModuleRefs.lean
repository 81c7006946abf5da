import ModuleExports.Settings
import ModuleExports.Environment
import ModuleExports.ExportList.Basic
import ModuleExports.Import.Settling

/-!
What the refs to modules in an export list add. A ref to the module itself brings in all that it
declares. A ref to another module `x` publishes the names imported from `x`, or, where `x` qualifies
visible names, the names behind that qualifier. Each entry keeps the module that declares it and
notes the module it was imported from.
-/
namespace ModuleExports

/-- What a module sees when its export list is resolved. -/
structure ModuleView where
  env : Environment
  module : ModuleName
  imports : Imports
  settings : Settings
  deriving Inhabited

namespace ModuleView
variable (s : ModuleView)

/-- Whether a visible name is one that a ref to `x` publishes. -/
def belongs (x : ModuleName) (key : QualifiedName) (records : List ImportRecord) : Bool :=
  if s.imports.isQualifier x then key.hasQualifier x
  else key.isBare && records.any (·.module == x)

/-- The record under which a ref to `x` publishes a settled name. Names of the module itself are not
re-exported; an unqualified ref needs a record from `x` with the home that was settled on. -/
def published? (x : ModuleName) (settled : ImportRecord) (records : List ImportRecord) :
    Option ImportRecord :=
  if settled.module = s.module then none
  else if s.imports.isQualifier x || settled.module == x then some settled
  else records.find? fun r => r.module == x && r.home == settled.home

def site (span : Span) (kind : NameKind) (name : String) : UseSite :=
  ⟨s.module, kind, name, span, s.settings.reportShadowing⟩

/-- The records of one kind that a ref to `x` publishes, in the order of their keys. -/
def visible (x : ModuleName) (span : Span) (kind : NameKind) : Outcome (List ImportRecord) := do
  let keys := (s.imports.table kind).toList.filter fun k => s.belongs x k.1 k.2
  let found ← keys.mapM fun k => do
    let settled ← (s.site span kind k.1.name).settle k.2
    return s.published? x settled k.2
  return found.filterMap id

/-- The entry of an imported name, with those of its constructors that are imported with it. -/
def reexport (constructors : List ImportRecord) (r : ImportRecord) (ns : Namespace) :
    Except Failure (Entry ns) := do
  match (← s.env.expect r.module).get? ns r.name with
  | some e => return e.reexported r.module fun c =>
      constructors.any fun k => k.module == r.module && k.name == c
  | none => .error (.internal (.notExported ns r.name r.module))

/-- The records of the constructors that go with the names of a namespace. -/
def visibleConstructors (x : ModuleName) (span : Span) : Namespace → Outcome (List ImportRecord)
  | .type => s.visible x span .dataConstructor
  | .typeOperator | .typeClass | .value | .valueOperator => return []

/-- The names of one namespace that a ref to `x` publishes. -/
def moduleTable (x : ModuleName) (span : Span) (ns : Namespace) : Outcome (Table ns) := do
  let records ← s.visible x span ns
  let constructors ← s.visibleConstructors x span ns
  records.foldlM (fun t r => do
    return t.insert r.name (← .ofExcept (s.reexport constructors r ns))) ∅

/-- All names that a ref to the other module `x` publishes. -/
def moduleInterface (x : ModuleName) (span : Span) : Outcome Interface :=
  if s.imports.isQualifier x || s.imports.isOpened x then
    Interface.ofTablesM (s.moduleTable x span)
  else .fail (.unknownExport s.module span .module x.text)

/-- Adds what one ref stands for. What is there already yields to another module's names, but not to
the module's own. -/
def addRef (candidate acc : Interface) (r : ExportRef) : Outcome Interface :=
  match r.item.module? with
  | none => return acc
  | some x =>
    if x = s.module then return candidate.overlay acc
    else return acc.overlay (← s.moduleInterface x r.span)

/-- A narrowed table with all that the refs to modules add, in list order. -/
def complete (candidate narrowed : Interface) (refs : List ExportRef) : Outcome Interface :=
  refs.foldlM (s.addRef candidate) narrowed

end ModuleView

end ModuleExports
