import ModuleExports.Settings
import ModuleExports.Source
import ModuleExports.ExportList.Basic
import ModuleExports.Import.Table
import ModuleExports.Json.Names

/-!
Declarations, export refs, import tables and settings as JSON. Binding groups may nest as deep as
the levels of the text allow.
-/
namespace ModuleExports
open Json Std

namespace ClassMember

def toJson (m : ClassMember) : Json := .fields [("name", .text m.name), ("span", m.span.toJson)]

def decoder : Decoder ClassMember := .record ["name", "span"] false fun n fs =>
  match fs with
  | [name, span] => return ⟨← Decoder.string.required n name, ← Span.decoder.required n span⟩
  | _ => none

end ClassMember

namespace Json

/-- A record with one field of text. -/
def single (field value : String) : Json := .fields [(field, .text value)]

def Decoder.single {α : Type} (field : String) (f : String → α) : Decoder α :=
  .record [field] false fun n fs =>
    match fs with
    | [value] => return f (← Decoder.string.required n value)
    | _ => none

end Json

namespace Declaration

mutual

def toJson : Declaration → Json
  | data name constructors => .tagged "Data"
      (.fields [("name", .text name), ("constructors", .array (constructors.map .text))])
  | typeSynonym name => .tagged "TypeSynonym" (.single "name" name)
  | foreignType name => .tagged "ForeignType" (.single "name" name)
  | typeClass name members => .tagged "TypeClass"
      (.fields [("name", .text name), ("members", .array (members.map ClassMember.toJson))])
  | value name => .tagged "Value" (.single "name" name)
  | foreignValue name => .tagged "ForeignValue" (.single "name" name)
  | valueFixity operator => .tagged "ValueFixity" (.single "operator" operator)
  | typeFixity operator => .tagged "TypeFixity" (.single "operator" operator)
  | typeInstance name => .tagged "TypeInstance" (.single "name" name)
  | kindSignature name => .tagged "KindSignature" (.single "name" name)
  | group members => .tagged "BindingGroup" (.array (listToJson members))

def listToJson : List Declaration → List Json
  | [] => []
  | d :: ds => d.toJson :: listToJson ds

end

def dataDecoder : Decoder Declaration := .record ["name", "constructors"] false fun n fs =>
  match fs with
  | [name, constructors] =>
    return data (← Decoder.string.required n name)
      (← (Decoder.list .string).required n constructors)
  | _ => none

def classDecoder : Decoder Declaration := .record ["name", "members"] false fun n fs =>
  match fs with
  | [name, members] =>
    return typeClass (← Decoder.string.required n name)
      (← (Decoder.list ClassMember.decoder).required n members)
  | _ => none

/-- The decoder of each case but the group. -/
def cases : List (String × Decoder Declaration) :=
  [("Data", dataDecoder), ("TypeSynonym", .single "name" typeSynonym),
    ("ForeignType", .single "name" foreignType), ("TypeClass", classDecoder),
    ("Value", .single "name" value), ("ForeignValue", .single "name" foreignValue),
    ("ValueFixity", .single "operator" valueFixity), ("TypeFixity", .single "operator" typeFixity),
    ("TypeInstance", .single "name" typeInstance), ("KindSignature", .single "name" kindSignature)]

def decoder : Decoder Declaration
  | n + 2, .object [(some "BindingGroup", .array items)] => return group (← items.mapM (decoder n))
  | n, j => Decoder.choice cases n j

end Declaration

namespace ExportItem

def toJson : ExportItem → Json
  | type name constructors => .tagged "Type" (.fields
      [("name", .text name),
        ("constructors", ofOption (fun cs => .array (cs.map .text)) constructors)])
  | typeOperator name => .tagged "TypeOperator" (.text name)
  | typeClass name => .tagged "TypeClass" (.text name)
  | value name => .tagged "Value" (.text name)
  | valueOperator name => .tagged "ValueOperator" (.text name)
  | module m => .tagged "Module" m.toJson

def typeDecoder : Decoder ExportItem := .record ["name", "constructors"] false fun n fs =>
  match fs with
  | [name, constructors] =>
    return type (← Decoder.string.required n name)
      (← (Decoder.list .string).optional n constructors)
  | _ => none

def named (f : String → ExportItem) : Decoder ExportItem := fun n j => (Decoder.string n j).map f

def cases : List (String × Decoder ExportItem) :=
  [("Type", typeDecoder), ("TypeOperator", named typeOperator), ("TypeClass", named typeClass),
    ("Value", named value), ("ValueOperator", named valueOperator), ("Module", named (module ⟨·⟩))]

def decoder : Decoder ExportItem := .choice cases

end ExportItem

namespace ExportRef

def toJson (r : ExportRef) : Json := .fields [("span", r.span.toJson), ("kind", r.item.toJson)]

def decoder : Decoder ExportRef := .record ["span", "kind"] false fun n fs =>
  match fs with
  | [span, item] =>
    return ⟨← Span.decoder.required n span, ← ExportItem.decoder.required n item⟩
  | _ => none

end ExportRef

namespace ImportStyle

def all : List ImportStyle := [implicit, explicit, declared, builtin]

def tag : ImportStyle → String
  | implicit => "Implicit"
  | explicit => "Explicit"
  | declared => "Local"
  | builtin => "Prim"

def toJson (s : ImportStyle) : Json := .text s.tag

def decoder : Decoder ImportStyle := .oneOf (all.map fun s => (s.tag, s))

end ImportStyle

namespace ImportRecord

def toJson (r : ImportRecord) : Json :=
  .fields [("module", r.module.toJson), ("name", .text r.name), ("source_module", r.home.toJson),
    ("span", r.span.toJson), ("provenance", r.style.toJson)]

def decoder : Decoder ImportRecord :=
  .record ["module", "name", "source_module", "span", "provenance"] false fun n fs =>
    match fs with
    | [module, name, home, span, style] =>
      return ⟨← ModuleName.decoder.required n module, ← Decoder.string.required n name,
        ← ModuleName.decoder.required n home, ← Span.decoder.required n span,
        ← ImportStyle.decoder.required n style⟩
    | _ => none

end ImportRecord

namespace Json

/-- The text of an object key, if the value can be one. -/
def key? : Json → Option String
  | .string s => s
  | _ => none

end Json

namespace ImportTable

/-- The table as an object, if the keys can be keys of one. -/
def toJson? (t : ImportTable) : Option Json := do
  let members ← t.toList.mapM fun (key, records) => do
    return (← key.toJson.key?, Json.array (records.map ImportRecord.toJson))
  return .fields members

def decoder : Decoder ImportTable
  | n + 1, .object ms => do
    let entries ← ms.mapM fun (key, records) => do
      return (← QualifiedName.decoder n (.string key),
        ← Decoder.list ImportRecord.decoder n records)
    return ExtTreeMap.ofList entries
  | _, _ => none

end ImportTable

namespace Imports

def toJson? (i : Imports) : Option Json :=
  return .fields [("types", ← i.types.toJson?), ("type_operators", ← i.typeOperators.toJson?),
    ("data_constructors", ← i.dataConstructors.toJson?),
    ("type_classes", ← i.typeClasses.toJson?), ("values", ← i.values.toJson?),
    ("value_operators", ← i.valueOperators.toJson?),
    ("unqualified_modules", .array (i.unqualified.toList.map ModuleName.toJson))]

def decoder : Decoder Imports :=
  .record ["types", "type_operators", "data_constructors", "type_classes", "values",
    "value_operators", "unqualified_modules"] false fun n fs =>
      match fs with
      | [types, typeOperators, dataConstructors, typeClasses, values, valueOperators, names] =>
        return ⟨← ImportTable.decoder.required n types,
          ← ImportTable.decoder.required n typeOperators,
          ← ImportTable.decoder.required n dataConstructors,
          ← ImportTable.decoder.required n typeClasses, ← ImportTable.decoder.required n values,
          ← ImportTable.decoder.required n valueOperators,
          .ofList (← (Decoder.list ModuleName.decoder).required n names)⟩
      | _ => none

end Imports

namespace Settings

def toJson (c : Settings) : Json :=
  .fields [("report_duplicate_refs", .bool c.reportDuplicateRefs),
    ("report_scope_shadowing", .bool c.reportShadowing),
    ("max_parallel_modules", .nat c.maxParallel.toNat)]

/-- Fields left out have their default values. -/
def decoder : Decoder Settings :=
  .record ["report_duplicate_refs", "report_scope_shadowing", "max_parallel_modules"] true
    fun n fs => match fs with
    | [duplicates, shadowing, parallel] => do
      return ⟨← Decoder.bool.defaulted true n duplicates, ← Decoder.bool.defaulted true n shadowing,
        ← Decoder.word64.defaulted 4 n parallel⟩
    | _ => none

end Settings

end ModuleExports
