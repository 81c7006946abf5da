import ModuleExports.Interface.Basic
import ModuleExports.Json.Names

/-! Export tables as JSON, for keeping them between builds. -/
namespace ModuleExports
open Json Std

namespace Origin

def toJson (o : Origin) : Json :=
  .fields [("defined_in", o.definedIn.toJson),
    ("imported_from", ofOption ModuleName.toJson o.importedFrom)]

def decoder : Decoder Origin := .record ["defined_in", "imported_from"] false fun n fs =>
  match fs with
  | [home, hop] =>
    return ⟨← ModuleName.decoder.required n home, ← ModuleName.decoder.optional n hop⟩
  | _ => none

end Origin

namespace Payload

def toJson : {ns : Namespace} → Payload ns → Json
  | .type, cs => .array (cs.map .text)
  | .typeOperator, _ | .typeClass, _ | .value, _ | .valueOperator, _ => .null

def decoder : (ns : Namespace) → Decoder (Payload ns)
  | .type => .list .string
  | .typeOperator | .typeClass | .value | .valueOperator => .unit

end Payload

namespace Entry
variable {ns : Namespace}

def toJson (e : Entry ns) : Json :=
  .fields [("payload", e.payload.toJson), ("source", e.origin.toJson)]

def decoder : Decoder (Entry ns) := .record ["payload", "source"] false fun n fs =>
  match fs with
  | [payload, origin] =>
    return ⟨← (Payload.decoder ns).required n payload, ← Origin.decoder.required n origin⟩
  | _ => none

end Entry

namespace Table
variable {ns : Namespace}

/-- One member per name, in the order of the names. -/
def toJson (t : Table ns) : Json := .fields (t.toList.map fun e => (e.1, e.2.toJson))

/-- Of two members with one name the later counts. -/
def decoder : Decoder (Table ns)
  | n + 1, .object ms => do
    let entries ← (← Decoder.members? ms).mapM fun m => do return (m.1, ← Entry.decoder n m.2)
    return ExtTreeMap.ofList entries
  | _, _ => none

end Table

namespace Interface

def toJson (x : Interface) : Json :=
  .fields [("types", x.types.toJson), ("type_operators", x.typeOperators.toJson),
    ("type_classes", x.typeClasses.toJson), ("values", x.values.toJson),
    ("value_operators", x.valueOperators.toJson)]

def decoder : Decoder Interface :=
  .record ["types", "type_operators", "type_classes", "values", "value_operators"] false fun n fs =>
    match fs with
    | [types, typeOperators, typeClasses, values, valueOperators] =>
      return ⟨← Table.decoder.required n types, ← Table.decoder.required n typeOperators,
        ← Table.decoder.required n typeClasses, ← Table.decoder.required n values,
        ← Table.decoder.required n valueOperators⟩
    | _ => none

end Interface

end ModuleExports
