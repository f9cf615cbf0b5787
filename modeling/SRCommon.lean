import SRCommon.CommandManager.UndoRuns
import SRCommon.Common.Base64
import SRCommon.Common.EnumReflector
import SRCommon.Common.HashRoutes
import SRCommon.Common.LexicalCast
import SRCommon.Common.StringInterning
import SRCommon.Common.StringReplace
import SRCommon.Common.StringSplit
import SRCommon.Common.SubscriptionHolder
import SRCommon.Common.SubscriptionPools
import SRCommon.Common.SubscriptionRuns
import SRCommon.ECS.ComponentBlocks
import SRCommon.ECS.ComponentLife
import SRCommon.ECS.EffectiveActivity
import SRCommon.ECS.EffectiveLayers
import SRCommon.ECS.EntityIds
import SRCommon.ECS.EntityRefTargets
import SRCommon.ECS.FailedMoves
import SRCommon.ECS.HierarchyForest
import SRCommon.ECS.Priorities
import SRCommon.ECS.RelativePaths
import SRCommon.ECS.TagManager
import SRCommon.ECS.WorldMatrices
import SRCommon.FileSystem.AssimpCache
import SRCommon.FileSystem.AssimpLoading
import SRCommon.FileSystem.AssimpRoundTrip
import SRCommon.FileSystem.AssimpScene
import SRCommon.FileSystem.NodeNumbers
import SRCommon.FileSystem.PathMeaning
import SRCommon.FileSystem.PathParts
import SRCommon.Lib.BinarySearch
import SRCommon.Lib.LeftComplete
import SRCommon.Lib.MarkedBlocks
import SRCommon.Lib.Occurrences
import SRCommon.Lib.OnesComplement
import SRCommon.Lib.QueueSearch
import SRCommon.Lib.SearchTree
import SRCommon.Lib.WorkStack
import SRCommon.Localization.UtfExact
import SRCommon.Localization.UtfSkip
import SRCommon.Network.AnnouncementRuns
import SRCommon.Network.Announcements
import SRCommon.Network.Discovery
import SRCommon.Network.Framing
import SRCommon.Network.ICMPHeader
import SRCommon.Network.LinkAgreement
import SRCommon.Network.PeerToPeer
import SRCommon.Network.Registrations
import SRCommon.Resources.DependencyUses
import SRCommon.Resources.IndexAgreement
import SRCommon.Resources.ReloadNotifications
import SRCommon.Resources.ResourceDeletion
import SRCommon.Resources.WatcherRuns
import SRCommon.SRLM.ComputeNodes
import SRCommon.SRLM.DataOperators
import SRCommon.SRLM.DataTypeRoundTrip
import SRCommon.SRLM.EnclosedResets
import SRCommon.SRLM.FlowMachine
import SRCommon.SRLM.FlowOrder
import SRCommon.SRLM.FlowPreorder
import SRCommon.SRLM.FlowRuns
import SRCommon.SRLM.FlowTermination
import SRCommon.SRLM.LazyEvaluation
import SRCommon.SRLM.Optimize
import SRCommon.SRLM.ProcessReset
import SRCommon.Serialization.FieldRoundTrip
import SRCommon.Serialization.ReaderSafety
import SRCommon.Serialization.SavedFile
import SRCommon.Serialization.WalkerBalance
import SRCommon.TaskManager.ConditionGates
import SRCommon.TaskManager.Finalization
import SRCommon.TaskManager.FinalizeOrder
import SRCommon.TaskManager.FinalizeRaces
import SRCommon.TaskManager.TaskIds
import SRCommon.TaskManager.WorkerShutdown
import SRCommon.TypeTraits.PropertyRoundTrip
import SRCommon.Types.BinarySearchTree
import SRCommon.Types.BoneIndices
import SRCommon.Types.BoneSlots
import SRCommon.Types.FreeList
import SRCommon.Types.LinkedList
import SRCommon.Types.MarshalCalls
import SRCommon.Types.MarshalRoundTrip
import SRCommon.Types.MerkleBytes
import SRCommon.Types.MerkleNodes
import SRCommon.Types.MerkleRuns
import SRCommon.Types.MerkleTree
import SRCommon.Types.MerkleWalks
import SRCommon.Types.MutexRuns
import SRCommon.Types.PoolSet
import SRCommon.Types.ReadBounds
import SRCommon.Types.SafeGateArray
import SRCommon.Types.SafePtr
import SRCommon.Types.SafePtrRuns
import SRCommon.Types.SharedPtrOwnership
import SRCommon.Types.SortedVector
import SRCommon.Types.Stack
import SRCommon.Web.CSSStyle
import SRCommon.Web.Cascading
import SRCommon.Web.PrintedStyles
import SRCommon.World.ComponentPool
import SRCommon.World.ContainerKey
import SRCommon.World.Neighbour
import SRCommon.World.ObserverRuns
import SRCommon.World.PositionLookup
import SRCommon.World.RegionFile
import SRCommon.World.RegionRuns
import SRCommon.World.SceneRoots
import SRCommon.World.SceneSearch
