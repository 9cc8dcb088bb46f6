import MiniPascal.Wire
import MiniPascal.Main
import MiniPascal.Proofs.CallReturn
import MiniPascal.Proofs.Safety
import MiniPascal.Proofs.StackBalance
import MiniPascal.Proofs.StaticLinks
import MiniPascal.Proofs.FreeStore.Canonical
import MiniPascal.Proofs.Containment
import MiniPascal.Proofs.Derivation
import MiniPascal.Proofs.StatementMeaning
import MiniPascal.Proofs.Subranges
import MiniPascal.Proofs.Resumption
import MiniPascal.Proofs.LevelOperands
import MiniPascal.Proofs.ForwardPointers
import MiniPascal.Proofs.Indexing
import MiniPascal.Proofs.AggregateCopy
import MiniPascal.Proofs.FrameLayout
import MiniPascal.Proofs.Conversions
import MiniPascal.Proofs.TypeSoundness
import MiniPascal.Proofs.FreeStore.BestFit
import MiniPascal.Proofs.ProgramListing
import MiniPascal.Proofs.Diagnostics
import MiniPascal.Proofs.Scope.History
import MiniPascal.Proofs.StringLiterals
import MiniPascal.Proofs.IntegerArithmetic
import MiniPascal.Proofs.Scanning
