import ModuleExports.ExportList.Basic
import ModuleExports.Outcome.Warning

/-!
Warnings about what an export list names more than once. Refs of one kind and name form a group,
whatever constructors they list; a constructor repeated within one ref is a matter of that ref.
-/
namespace ModuleExports
open Std

namespace ExportRef

/-- The spans of the refs with the given kind and name, in list order. -/
def spansOf (refs : List ExportRef) (k : ItemKey) : List Span :=
  (refs.filter (·.item.key == k)).map span

/-- The kinds and names that occur in the list, each once and in increasing order. -/
def keys (refs : List ExportRef) : List ItemKey :=
  (ExtTreeSet.ofList (refs.map (·.item.key))).toList

/-- One warning for each group of two refs or more, placed at the second of them. -/
def repeatedItems (m : ModuleName) (refs : List ExportRef) : List Warning :=
  (keys refs).filterMap fun k =>
    match spansOf refs k with
    | _ :: second :: rest => some (.duplicateRef m second k.kind k.name (rest.length + 2))
    | _ => none

/-- One warning for each constructor that the ref lists twice or more, in order of their names. -/
def repeatedConstructors (m : ModuleName) (r : ExportRef) : List Warning :=
  let listed := r.item.listed
  ((ExtTreeSet.ofList listed).toList.filter (1 < listed.count ·)).map fun c =>
    .duplicateRef m r.span .dataConstructor c (listed.count c)

/-- By span; at one span repeated items come before repeated constructors. -/
def duplicates (m : ModuleName) (refs : List ExportRef) : List Warning :=
  (repeatedItems m refs ++ refs.flatMap (repeatedConstructors m)).mergeSort
    fun a b => (compare a.span b.span).isLE

end ExportRef

/-- Adds the warnings about duplicates in an export list of `m`. -/
def WarningLog.warnDuplicates (d : WarningLog) (m : ModuleName) (refs : List ExportRef) :
    WarningLog :=
  d.merge ⟨ExportRef.duplicates m refs⟩

end ModuleExports
