import Peephole.Cli.Archive
import Peephole.Cli.Makefile
import Peephole.Emit.Summary
import Peephole.Grammar.Demonstration
import Peephole.Grammar.Task
import Peephole.Main
import Peephole.Number.Decimal
import Peephole.Proofs.Encode.Literal
import Peephole.Proofs.Verify.InitialMemory
import Peephole.Proofs.Verify.Reachability
import Peephole.Proofs.Verify.Coverage
import Peephole.Proofs.Encode.Reached
import Peephole.Proofs.Encode.Address
import Peephole.Proofs.Encode.Mask
import Peephole.Proofs.Program.Users
import Peephole.Proofs.Encode.Alignment
import Peephole.Proofs.Layout.Lookahead
import Peephole.Proofs.Emit.Constant
import Peephole.Proofs.Emit.Scope
import Peephole.Proofs.Cpp.Regroup
import Peephole.Proofs.Elaborate.Split
import Peephole.Proofs.Verify.Preorder
import Peephole.Proofs.Encode.Promise
import Peephole.Proofs.Encode.Order
import Peephole.Proofs.Elaborate.Precedence
import Peephole.Proofs.Emit.Meet
import Peephole.Proofs.Emit.Classes
import Peephole.Proofs.Logic.Logarithm
import Peephole.Proofs.Elaborate.Caret
