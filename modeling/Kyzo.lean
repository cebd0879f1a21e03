import Kyzo.Value.Rows
import Kyzo.Value.ColumnRuns
import Kyzo.Store.WalLaws
import Kyzo.Store.Idempotency
import Kyzo.Store.RootHistory
import Kyzo.Store.WalFloors
import Kyzo.Store.Merkle
import Kyzo.Store.SweepDurable
import Kyzo.Store.BackupLaws
import Kyzo.Store.SkipWalkErrors
import Kyzo.Plan.StratifyLaws
import Kyzo.Plan.WellOrderLaws
import Kyzo.Plan.PartialEval
import Kyzo.Exec.MeetAdmission
import Kyzo.Exec.EvalFixpoint
import Kyzo.Exec.FilterPushdown
import Kyzo.Exec.Allen
import Kyzo.Exec.NumAccum
import Kyzo.Session.ConstraintRuns
import Kyzo.Session.PlainIndexRuns
import Kyzo.Rules.TopSort
import Kyzo.Rules.ShortestPathBfs
import Kyzo.Session.Footprint
import Kyzo.Project.ResidencyRuns
import Kyzo.React.StandingRuns
