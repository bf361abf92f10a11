import FrankenGraph.Order.Safety
import FrankenGraph.Order.Machine
import FrankenGraph.Chronicle.Durability
import FrankenGraph.Chronicle.ChainHistory
import FrankenGraph.Warden.Attenuation
import FrankenGraph.Resource.Runs
import FrankenGraph.Zset.JoinRuns
import FrankenGraph.Zset.TriangleRuns
import FrankenGraph.Zset.CoreRuns
import FrankenGraph.Zset.StrongRuns
import FrankenGraph.Zset.SetOperations
import FrankenGraph.Zset.TopK
import FrankenGraph.Zset.Distinct
import FrankenGraph.Codec.RoundTrip
import FrankenGraph.Collections.OrderedTree
import FrankenGraph.Temporal.CalendarSteps
import FrankenGraph.Temporal.TimeText
import FrankenGraph.Decimal.Arithmetic
import FrankenGraph.Bigint.CanonicalBytes
import FrankenGraph.Regex.CaseFolding
