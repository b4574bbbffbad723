import Bytecode.Main
import Bytecode.Proofs.Budget
import Bytecode.Proofs.Context
import Bytecode.Proofs.HeapShape
import Bytecode.Proofs.Reference
import Bytecode.Proofs.ObjectShape
import Bytecode.Proofs.Equivariance
import Bytecode.Proofs.Opacity
import Bytecode.Proofs.History
import Bytecode.Proofs.LastWrite
import Bytecode.Proofs.Range
import Bytecode.Proofs.Caching
import Bytecode.Proofs.Statics
import Bytecode.Proofs.Paths
import Bytecode.Proofs.Registrations
import Bytecode.Proofs.Sources
import Bytecode.Proofs.Agreement
import Bytecode.Proofs.CallChain
import Bytecode.Proofs.Independence
import Bytecode.Proofs.Tracing
import Bytecode.Proofs.Counts
import Bytecode.Proofs.Texts
import Bytecode.Proofs.Grammar
import Bytecode.Proofs.Reading
import Bytecode.Proofs.Descriptors
import Bytecode.Proofs.MethodTexts
import Bytecode.Proofs.Printing
import Bytecode.Proofs.Words
import Bytecode.Proofs.Overloads
import Bytecode.Proofs.Increment
import Bytecode.Proofs.Entry
import Bytecode.Proofs.RegistryHistory
import Bytecode.Proofs.Branches
import Bytecode.Proofs.Equality
import Bytecode.Proofs.Spellings
import Bytecode.Proofs.Roots
import Bytecode.Proofs.Narrowing
