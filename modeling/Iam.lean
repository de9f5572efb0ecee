import Iam.Domain.Basic
import Iam.Domain.Json
import Iam.Domain.JsonRoundTrip
import Iam.Domain.Entities
import Iam.Repository.Store
import Iam.Repository.Writes
import Iam.Repository.Associations
import Iam.Repository.Hierarchy
import Iam.Repository.Descendants
import Iam.Repository.Listings
import Iam.Repository.RoleLinks
import Iam.Service.Cache
import Iam.Service.CacheSpec
import Iam.Service.CacheRuns
import Iam.Service.CacheSweeps
import Iam.Service.RedisCache
import Iam.Service.Prog
import Iam.Service.Evaluator
import Iam.Service.EvaluatorSpec
import Iam.Service.IamService
import Iam.Runtime.World
import Iam.Runtime.Reach
import Iam.Runtime.Schedule
import Iam.Runtime.Evaluate
import Iam.Properties.Ancestry
import Iam.Properties.HierarchyReads
import Iam.Properties.Interleavings
import Iam.Properties.Integrity
import Iam.Properties.Failures
import Iam.Properties.PolicyWrites
import Iam.Properties.PolicyInvariants
import Iam.Properties.PolicyUpdate
import Iam.Properties.PolicyCreate
import Iam.Properties.ListingReads
import Iam.Properties.Coherence
import Iam.Properties.Inheritance
import Iam.Properties.Phases
import Iam.Properties.RoleEdits
import Iam.Properties.CustomRoles
import Iam.Properties.Names
import Iam.Properties.Members
