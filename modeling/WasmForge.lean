import WasmForge.Emit.Compile
import WasmForge.Host.LoaderScript
import WasmForge.Machine.Instance
import WasmForge.Program.Eval
import WasmForge.Program.Typing
import WasmForge.Proofs.Declaring
import WasmForge.Proofs.Histories
import WasmForge.Proofs.Sessions
import WasmForge.Proofs.Numbering
import WasmForge.Proofs.Reading
import WasmForge.Proofs.ModuleReading
import WasmForge.Proofs.Drafting
import WasmForge.Proofs.Slots
import WasmForge.Proofs.Linking
import WasmForge.Proofs.ModuleFormat
import WasmForge.Proofs.Lowering
import WasmForge.Proofs.Assembling
import WasmForge.Proofs.SlotTables
import WasmForge.Proofs.InternalErrors
import WasmForge.Proofs.StackTyping
import WasmForge.Proofs.Emitting
import WasmForge.Proofs.Acceptance
import WasmForge.Proofs.BodyFormat
import WasmForge.Proofs.Runs
import WasmForge.Proofs.Simulation
import WasmForge.Proofs.Execution
import WasmForge.Proofs.RenamedTrees
import WasmForge.Proofs.Correspondence
import WasmForge.Proofs.Renaming
import WasmForge.Proofs.PlainForm
import WasmForge.Proofs.TypeSafety
import WasmForge.Proofs.Recording
import WasmForge.Proofs.HostBoundary
import WasmForge.Proofs.HostAnswers
import WasmForge.Proofs.CellPlans
import WasmForge.Proofs.Instantiation
import WasmForge.Proofs.JsonReading
import WasmForge.Proofs.MapAgreement
import WasmForge.Proofs.MapRoundTrip
import WasmForge.Proofs.LoaderScripts
import WasmForge.Proofs.Relocation
import WasmForge.Proofs.NumberingRuns
import WasmForge.Proofs.BodyOrder
import WasmForge.Proofs.ParameterNames
import WasmForge.Proofs.StackDiscipline
import WasmForge.Proofs.ShortestForms
