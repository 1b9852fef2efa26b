import UCDD.Diagram.Canonical
import UCDD.Diagram.Tautology
import UCDD.Diagram.Interval
import UCDD.Reduce.BellmanFord
import UCDD.Reduce.ApplyReduceCorrect
import UCDD.Reduce.Reduce2
import UCDD.Reduce.Incremental
import UCDD.Reduce.Terms
import UCDD.Reduce.Fixpoint
import UCDD.Quantify.Replace
import UCDD.Quantify.Endless
import UCDD.Zone.ExtractCalls
import UCDD.Zone.Contains
import UCDD.Zone.Conversion
import UCDD.Zone.Reachability
import UCDD.Output.BddArray
import UCDD.Output.StrategyCode
import UCDD.Output.DotCorrect
import UCDD.Kernel.Managers
import UCDD.Kernel.Reclaim
import UCDD.Kernel.TooWide
import UCDD.Kernel.NodeMarks
import UCDD.Kernel.UniqueTable
import UCDD.Kernel.Session
