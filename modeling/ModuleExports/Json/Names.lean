import ModuleExports.Json.Decoder
import ModuleExports.Name.Basic
import ModuleExports.Name.Kind
import ModuleExports.Source

/-! Names, namespaces and spans as JSON. -/
namespace ModuleExports
open Json

namespace Json

def ofOption {α : Type} (f : α → Json) : Option α → Json
  | none => .null
  | some a => f a

end Json

namespace ModuleName

def toJson (m : ModuleName) : Json := .text m.text

def decoder : Decoder ModuleName := fun n j => (Decoder.string n j).map ModuleName.mk

end ModuleName

namespace QualifiedName

def toJson (q : QualifiedName) : Json :=
  .fields [("module", ofOption ModuleName.toJson q.module), ("name", .text q.name)]

def decoder : Decoder QualifiedName := .record ["module", "name"] false fun n fs =>
  match fs with
  | [module, name] =>
    return ⟨← ModuleName.decoder.optional n module, ← Decoder.string.required n name⟩
  | _ => none

end QualifiedName

namespace Namespace

def tag : Namespace → String
  | type => "Type"
  | typeOperator => "TypeOperator"
  | typeClass => "TypeClass"
  | value => "Value"
  | valueOperator => "ValueOperator"

def toJson (ns : Namespace) : Json := .text ns.tag

def decoder : Decoder Namespace := .oneOf (all.map fun ns => (ns.tag, ns))

end Namespace

namespace NameKind

def tag : NameKind → String
  | inNamespace ns => ns.tag
  | dataConstructor => "DataConstructor"
  | module => "Module"

def toJson (k : NameKind) : Json := .text k.tag

def decoder : Decoder NameKind := .oneOf (all.map fun k => (k.tag, k))

end NameKind

namespace Position

def toJson (p : Position) : Json :=
  .fields [("line", .nat p.line.toNat), ("column", .nat p.column.toNat)]

def decoder : Decoder Position := .record ["line", "column"] false fun n fs =>
  match fs with
  | [line, column] =>
    return ⟨← Decoder.word32.required n line, ← Decoder.word32.required n column⟩
  | _ => none

end Position

namespace Span

def toJson (s : Span) : Json := .fields [("start", s.start.toJson), ("end", s.stop.toJson)]

def decoder : Decoder Span := .record ["start", "end"] false fun n fs =>
  match fs with
  | [start, stop] =>
    return ⟨← Position.decoder.required n start, ← Position.decoder.required n stop⟩
  | _ => none

end Span

end ModuleExports
