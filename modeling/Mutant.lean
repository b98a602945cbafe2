import Mutant.Builtin.Equiv.AuditSound
import Mutant.Builtin.Equiv.Channels
import Mutant.Builtin.Equiv.Classified
import Mutant.Builtin.Equiv.IocBuiltins
import Mutant.Builtin.Equiv.JsonText
import Mutant.Builtin.Equiv.LedgerView
import Mutant.Builtin.Equiv.Range
import Mutant.Builtin.Equiv.RedactionStable
import Mutant.Builtin.Equiv.SigmaEngine
import Mutant.Builtin.Equiv.Tasks
import Mutant.Code.Equiv.Disassemble
import Mutant.Compiler.Equiv.ElementUpdate
import Mutant.Compiler.Equiv.Polymorphic
import Mutant.Compiler.Equiv.Recovery
import Mutant.Lsp.Equiv.FnSolver
import Mutant.Modules.Equiv.Graph
import Mutant.Modules.Equiv.Link
import Mutant.Mutil.Equiv.ReplSession
import Mutant.Object.Equiv.HashOrder
import Mutant.Object.Equiv.Index
import Mutant.Parser.Equiv.Errors
import Mutant.Security.Equiv.RecordGrant
import Mutant.Security.Equiv.SealRuns
import Mutant.Vm.Equiv.Decode
import Mutant.Vm.Equiv.Traceback
