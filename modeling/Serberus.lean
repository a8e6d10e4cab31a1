-- SUMMARY: Root of the development.
import Serberus.FordFulkerson.AnyGraph
import Serberus.FordFulkerson.Encoding
import Serberus.FordFulkerson.Optimal
import Serberus.FordFulkerson.WordsExact
import Serberus.MinCutGreedy.CheckCut
import Serberus.MinCutGreedy.Disjoint
import Serberus.MinCutGreedy.KnownCuts
import Serberus.MinCutGreedy.RedundantSt
import Serberus.MinCutGreedy.Sound
import Serberus.MinCutGreedy.Terminates
import Serberus.MinCutGreedy.Words
import Serberus.Lib.Propagate
import Serberus.SpeculativeTaint.Exact
import Serberus.ControlFlow.Frontier
import Serberus.CallGraph.FramePromotion
import Serberus.CallGraph.SharedCallees
import Serberus.Duplicate.Redirected
import Serberus.ConstantAddress.Greatest
import Serberus.Leakage.Dereferenced
import Serberus.Leakage.IncomingLoads
import Serberus.Mitigation.Coverage
import Serberus.Mitigation.Accesses
import Serberus.Inlining.Overflow
import Serberus.Mitigation.TaintedLoads
import Serberus.Contract.Exact
import Serberus.Stacks.StackPointers
import Serberus.StackInit.Stale
import Serberus.NoSpill.Kept
import Serberus.Mitigation.Speculation
