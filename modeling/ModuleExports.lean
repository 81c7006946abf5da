import ModuleExports.Build.Run
import ModuleExports.Json.Interface
import ModuleExports.Json.Source
import ModuleExports.Proofs.Build.Abort
import ModuleExports.Proofs.Build.Agreement
import ModuleExports.Proofs.Build.Isolation
import ModuleExports.Proofs.Build.Provenance
import ModuleExports.Proofs.Build.Reordering
import ModuleExports.Proofs.Build.Reporting
import ModuleExports.Proofs.Import.Settling
import ModuleExports.Proofs.Reexport.Namespaces
import ModuleExports.Proofs.Reexport.Precedence
import ModuleExports.Proofs.Reexport.Qualifiers
import ModuleExports.Proofs.Reexport.Rearrangement
import ModuleExports.Proofs.Reexport.Relay
import ModuleExports.Proofs.Resolution.Blame
import ModuleExports.Settings
import ModuleExports.Proofs.Graph.Cycle
import ModuleExports.Proofs.Resolution.Candidate
import ModuleExports.Proofs.Graph.Depths
import ModuleExports.Proofs.Json.Source
import ModuleExports.Proofs.Graph.Indexed
