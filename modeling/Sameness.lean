import Sameness.Main
import Sameness.Table
import Sameness.Proofs.Identity
import Sameness.Proofs.Walk
import Sameness.Proofs.Comparison
import Sameness.Proofs.Alike
import Sameness.Proofs.PartialEquivalence
import Sameness.Proofs.HashConsistency
import Sameness.Proofs.Reach
import Sameness.Proofs.Cycles
import Sameness.Proofs.FiniteSide
import Sameness.Proofs.Recursion
import Sameness.Proofs.Bag
import Sameness.Proofs.TableRefinement
import Sameness.Proofs.Chain
import Sameness.Proofs.HashShape
import Sameness.Proofs.Shortcut
import Sameness.Proofs.Nearest
import Sameness.Proofs.NumberText
import Sameness.Proofs.Spelling
import Sameness.Proofs.PrintedAlike
import Sameness.Proofs.Tokens
import Sameness.Proofs.Readable
import Sameness.Proofs.Session
import Sameness.Proofs.BufferedOutput
import Sameness.Proofs.Interning
import Sameness.Proofs.EntryPoints
import Sameness.Proofs.LimitedSink
import Sameness.Proofs.Tracing
import Sameness.Proofs.DeepCopy
import Sameness.Proofs.OneLine
import Sameness.Proofs.CatalogueStore
import Sameness.Proofs.PredicateTable
import Sameness.Proofs.Spine
import Sameness.Proofs.FirstMatch
import Sameness.Proofs.CoarserSearch
import Sameness.Proofs.CorrectRounding
import Sameness.Proofs.ShortestDigits
import Sameness.Proofs.PrintedNumbers
import Sameness.Proofs.Mutation
import Sameness.Proofs.Unreached
import Sameness.Proofs.Skeleton
import Sameness.Proofs.CallLog
import Sameness.Proofs.Preorder
import Sameness.Proofs.ListWalk
import Sameness.Proofs.ListText
import Sameness.Proofs.Quoting
