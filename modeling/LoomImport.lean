import LoomImport.PyText
import LoomImport.Lib.Dict
import LoomImport.Lib.StateOption
import LoomImport.Lib.Words
import LoomImport.Builders
import LoomImport.Cells
import LoomImport.Shifts
import LoomImport.Division
import LoomImport.Policy
import LoomImport.Translator
import LoomImport.Runs
import LoomImport.Prepare
import LoomImport.Prepared
import LoomImport.Blocking
import LoomImport.Termination
import LoomImport.CellRuns
import LoomImport.Bench
import LoomImport.Exactness
import LoomImport.Constants
import LoomImport.Lowering
import LoomImport.Memories
import LoomImport.Valuation
import LoomImport.Joining
import LoomImport.Soundness
import LoomImport.Translation
import LoomImport.Definedness
import LoomImport.Lib.MaskedWrites
import LoomImport.Widths
import LoomImport.Writes
import LoomImport.WriteExactness
import LoomImport.Parameters
import LoomImport.Registers
import LoomImport.RegisterExactness
import LoomImport.DagEncoding
import LoomImport.ImportJson
import LoomImport.DagRoundTrip
import LoomImport.Designs
import LoomImport.ModuleRefinement
import LoomImport.ComponentGraph
import LoomImport.Packages
import LoomImport.Hierarchy
import LoomImport.Documents
import LoomImport.Identifiers
import LoomImport.Exports
import LoomImport.StatelessRefinement
import LoomImport.ImportReads
