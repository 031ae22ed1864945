import CeQuery.Foundation.BoundedInt
import CeQuery.Foundation.FloatOrder
import CeQuery.Foundation.Packing
import CeQuery.Foundation.OrderedMap
import CeQuery.Foundation.MergeTree
import CeQuery.Foundation.Text
import CeQuery.Value
import CeQuery.Query.Predicate
import CeQuery.Query.Agg
import CeQuery.Combine.Accum
import CeQuery.Combine.Partial
import CeQuery.Query.Basic
import CeQuery.Combine.Reference
import CeQuery.Combine.MapReduce
import CeQuery.Dataset
import CeQuery.Foundation.Window
import CeQuery.Order
import CeQuery.Plan
import CeQuery.Engine.Basic
import CeQuery.Engine.Walk
import CeQuery.Engine.Run
import CeQuery.Engine.RunOrder
import CeQuery.Stats
import CeQuery.Pruning
import CeQuery.Engine.Projection
import CeQuery.Foundation.Schedule
import CeQuery.Engine.Quorum
import CeQuery.Engine.PrunedRun
import CeQuery.Engine.LyingHost
import CeQuery.Foundation.Codec
import CeQuery.ValueDocument
import CeQuery.Catalog.Basic
import CeQuery.Catalog.Register
import CeQuery.Catalog.RoundTrip
import CeQuery.Mesh.Wire
import CeQuery.Mesh.Host
import CeQuery.Mesh.Agreement
import CeQuery.Caps
import CeQuery.Mesh.Serve
import CeQuery.Catalog.Mutate
import CeQuery.Catalog.Exclusion
import CeQuery.Foundation.Reader
import CeQuery.Sql.Parser
import CeQuery.Sql.Printing
import CeQuery.Sql.RoundTrip
import CeQuery.Foundation.NestedLoop
import CeQuery.Join
import CeQuery.Equality
import CeQuery.Combine.IntegerSum
import CeQuery.Sql.Grammar
import CeQuery.Sql.Placement
import CeQuery.Sql.Soundness
import CeQuery.Sql.Shape
import CeQuery.Mesh.Request
import CeQuery.Catalog.Intact
import CeQuery.Engine.Collection
import CeQuery.Engine.TopRows
import CeQuery.Combine.Shape
import CeQuery.Engine.Deadline
import CeQuery.Sql.Spacing
import CeQuery.JoinedRow
import CeQuery.Foundation.StableSort
import CeQuery.Shaping
import CeQuery.Foundation.Rounding
import CeQuery.Foundation.Binary64
import CeQuery.IntegerOrder
import CeQuery.Foundation.Plurality
import CeQuery.Engine.Majority
import CeQuery.Foundation.ShortestPrefix
import CeQuery.Engine.Contacts
import CeQuery.Engine.Truncation
import CeQuery.Engine.Ceiling
import CeQuery.Rendezvous
import CeQuery.Engine.CostGate
import CeQuery.Combine.Readings
import CeQuery.Foundation.RoundRobin
import CeQuery.Sharding
import CeQuery.Foundation.Retry
import CeQuery.Catalog.Acquire
import CeQuery.Combine.Groups
import CeQuery.Combine.Lanes
import CeQuery.Foundation.Addition
import CeQuery.Combine.Skipping
import CeQuery.Foundation.Scientific
import CeQuery.Sql.WordLiterals
import CeQuery.Foundation.Hex
import CeQuery.Mesh.Agent
import CeQuery.Mesh.AgentRuns
import CeQuery.Engine.Faults
import CeQuery.Foundation.Stable
import CeQuery.Catalog.Atomic
import CeQuery.Mesh.Distributed
import CeQuery.Tables
import CeQuery.Command
import CeQuery.Engine.Believed
import CeQuery.Answers
import CeQuery.FirstAnswer
import CeQuery.PlanSummary
import CeQuery.Foundation.ExactAddition
import CeQuery.Combine.WholeNumbers
import CeQuery.Combine.JoinGroups
import CeQuery.Engine.Accounts
import CeQuery.Mesh.Fleet
import CeQuery.Snapshots
import CeQuery.Output
import CeQuery.Foundation.Distinct
import CeQuery.Hosts
import CeQuery.Completeness
