import LambdaCalculus.Main
import LambdaCalculus.Proofs.Alike
import LambdaCalculus.Proofs.Batch
import LambdaCalculus.Proofs.Blame
import LambdaCalculus.Proofs.Complaints
import LambdaCalculus.Proofs.Depth
import LambdaCalculus.Proofs.Dialogue
import LambdaCalculus.Proofs.Enclosing
import LambdaCalculus.Proofs.Entries
import LambdaCalculus.Proofs.Juxtaposition
import LambdaCalculus.Proofs.Nesting
import LambdaCalculus.Proofs.Once
import LambdaCalculus.Proofs.Placement
import LambdaCalculus.Proofs.Printing
import LambdaCalculus.Proofs.Referring
import LambdaCalculus.Proofs.Repair
import LambdaCalculus.Proofs.Slots
import LambdaCalculus.Proofs.Spelling
import LambdaCalculus.Proofs.Termination
import LambdaCalculus.Proofs.Transparency
import LambdaCalculus.Proofs.Unbound
import LambdaCalculus.Proofs.Writing
import LambdaCalculus.Session
import LambdaCalculus.Trace
