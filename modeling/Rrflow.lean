import Rrflow.Lsm.Isolation
import Rrflow.Lsm.WalSpec
import Rrflow.Lsm.Termination
import Rrflow.Lsm.PointLookup
import Rrflow.Maintenance.Plan
import Rrflow.Security.Authorization
import Rrflow.Security.RoleWork
import Rrflow.Kernel.Domains
import Rrflow.Store.ControlSpec
import Rrflow.Store.LogTree
import Rrflow.Store.Projection
import Rrflow.Store.Recall
import Rrflow.Engine.ExactlyOnce
import Rrflow.Engine.SubscriptionSpec
import Rrflow.Query.TraversalSpec
import Rrflow.Store.Adjacency
import Rrflow.Store.Preview
import Rrflow.Vector.Filter
