import ModuleExports.ExportList.Basic
import ModuleExports.Interface.Basic
import ModuleExports.Outcome.Warning

/-!
Narrowing a candidate table to what an export list names. Refs to one type are merged; every other
ref must name something that the module itself declares. Refs to modules are left out here.
-/
namespace ModuleExports
open Std

/-- All refs to one type together: the span of the first, and the constructors listed in any of
them, or none where some ref asks for all. -/
structure TypeRequest where
  span : Span
  constructors : Option (List String)
  deriving DecidableEq, Inhabited

namespace TypeRequest

/-- A constructor keeps the place where it was first listed. -/
def merge (q : TypeRequest) (constructors : Option (List String)) : TypeRequest :=
  { q with constructors := do return ((← q.constructors) ++ (← constructors)).eraseDups }

abbrev Requests := ExtTreeMap String TypeRequest

def addRef (qs : Requests) (r : ExportRef) : Requests :=
  match r.item.type? with
  | none => qs
  | some (name, constructors) =>
    qs.insert name (((qs[name]?).getD ⟨r.span, some []⟩).merge constructors)

def ofRefs (refs : List ExportRef) : Requests := refs.foldl addRef ∅

end TypeRequest

namespace Interface

/-- The entry of a requested type, with all its constructors or with those asked for. -/
def narrowType (m : ModuleName) (candidate : Interface) (name : String) (q : TypeRequest) :
    Except Failure (Entry .type) :=
  match candidate.get? .type name with
  | none => .error (.unknownExport m q.span (.inNamespace .type) name)
  | some e =>
    match q.constructors with
    | none => .ok e
    | some requested =>
      match requested.find? (!e.constructors.contains ·) with
      | some unknown => .error (.unknownConstructor m q.span name unknown)
      | none => .ok ⟨requested, e.origin⟩

/-- The entry of a name that is neither a type nor a module. -/
def narrowPlain (m : ModuleName) (candidate : Interface) (span : Span) (ns : Namespace)
    (name : String) : Except Failure (Entry ns) :=
  match candidate.get? ns name with
  | some e =>
    if e.origin.definedIn = m then .ok e else .error (.unknownExport m span ns name)
  | none => .error (.unknownExport m span ns name)

/-- Types come first, in the order of their names, then all other refs in list order. -/
def narrow (m : ModuleName) (candidate : Interface) (refs : List ExportRef) :
    Except Failure Interface := do
  let types ← (TypeRequest.ofRefs refs).toList.foldlM (fun x (name, q) => do
    return x.insert .type name (← narrowType m candidate name q)) ∅
  refs.foldlM (fun x r => do
    match r.item.plain? with
    | none => return x
    | some (ns, name) => return x.insert ns name (← narrowPlain m candidate r.span ns name)) types

end Interface

end ModuleExports
