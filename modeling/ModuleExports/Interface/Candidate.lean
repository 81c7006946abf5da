import ModuleExports.Source
import ModuleExports.Interface.Basic

/-!
The candidate table of a module: all that it declares, as if no export list narrowed it. Of two
declarations of one name in a namespace the later counts.
-/
namespace ModuleExports

mutual

/-- Instances and kind signatures declare no name that could be exported. -/
def Declaration.declare (o : Origin) (x : Interface) : Declaration → Interface
  | .data name constructors => x.insert .type name ⟨constructors, o⟩
  | .typeSynonym name | .foreignType name => x.insert .type name (.plain o)
  | .typeClass name members =>
    members.foldl (fun x member => x.insert .value member.name (.plain o))
      (x.insert .typeClass name (.plain o))
  | .value name | .foreignValue name => x.insert .value name (.plain o)
  | .valueFixity operator => x.insert .valueOperator operator (.plain o)
  | .typeFixity operator => x.insert .typeOperator operator (.plain o)
  | .typeInstance _ | .kindSignature _ => x
  | .group members => declareAll o x members

def Declaration.declareAll (o : Origin) (x : Interface) : List Declaration → Interface
  | [] => x
  | d :: ds => declareAll o (d.declare o x) ds

end

namespace Interface

def candidate (m : ModuleName) (ds : List Declaration) : Interface :=
  Declaration.declareAll (.declared m) ∅ ds

end Interface

end ModuleExports
