import MyKafka.LittleEndian
import MyKafka.Decimal
import MyKafka.Image
import MyKafka.FileSystem
import MyKafka.World
import MyKafka.Frames
import MyKafka.Descriptors
import MyKafka.Directory
import MyKafka.Error
import MyKafka.Index
import MyKafka.Segment
import MyKafka.FileName
import MyKafka.Partition
import MyKafka.ConfigManager
import MyKafka.Broker
import MyKafka.IndexSpec
import MyKafka.IndexReopen
import MyKafka.LogFormat
import MyKafka.SegmentFrame
import MyKafka.SegmentFiles
import MyKafka.SegmentOpen
import MyKafka.Bisection
import MyKafka.SegmentSpec
import MyKafka.LogCursor
import MyKafka.FindEntry
import MyKafka.Blocks
import MyKafka.Cut
import MyKafka.SegmentList
import MyKafka.PartitionOpen
import MyKafka.PartitionSpec
import MyKafka.PartitionLog
import MyKafka.FindSegment
import MyKafka.PartitionClose
import MyKafka.Runs
import MyKafka.RetainedLog
import MyKafka.PartitionRun
import MyKafka.PartitionRefinement
import MyKafka.PartitionStep
import MyKafka.PartitionLayout
import MyKafka.PartitionSize
import MyKafka.PartitionClean
import MyKafka.PartitionWhole
import MyKafka.PartitionStuck
import MyKafka.OpenFiles
import MyKafka.SegmentReads
import MyKafka.PartitionOwners
import MyKafka.PartitionLimits
import MyKafka.PartitionRetention
import MyKafka.SegmentFailure
import MyKafka.LogEntries
import MyKafka.SegmentRebuild
import MyKafka.SegmentCalls
import MyKafka.SegmentReuse
import MyKafka.SegmentDescriptors
import MyKafka.IndexBounds
import MyKafka.PartitionFrame
import MyKafka.PartitionClosable
import MyKafka.TornLog
import MyKafka.KeyName
import MyKafka.ConfigFrame
import MyKafka.ConfigSpec
import MyKafka.ConfigKill
import MyKafka.PersistentMap
import MyKafka.ConfigRun
import MyKafka.BrokerFrame
import MyKafka.BrokerRep
import MyKafka.BrokerRun
import MyKafka.BrokerLoad
import MyKafka.BrokerRefinement
import MyKafka.BrokerRestart
import MyKafka.OffsetsSnapshot
import MyKafka.BrokerKill
import MyKafka.OpenPartition
import MyKafka.BrokerOwners
import MyKafka.BrokerRequests
import MyKafka.BrokerIsolation
import MyKafka.BrokerClosable
import MyKafka.BrokerDeletion
import MyKafka.DeletionAtomicity
import MyKafka.CreationAtomicity
import MyKafka.Client
import MyKafka.ClientRun
import MyKafka.ConsumerLimit
import MyKafka.RpcServer
import MyKafka.RpcRun
import MyKafka.Monitor
import MyKafka.MonitorRun
import MyKafka.MonitorProgress
import MyKafka.BrokerInfo
import MyKafka.BrokerMethods
import MyKafka.BrokerServer
import MyKafka.BrokerServerRun
import MyKafka.BrokerServerOrder
import MyKafka.SmallSegments
import MyKafka.BrokerServerMap
import MyKafka.BrokerServerProgress
import MyKafka.Network
import MyKafka.NetworkStep
import MyKafka.NetworkRun
import MyKafka.ProducerRun
import MyKafka.Retention
import MyKafka.PartitionMachine
import MyKafka.AnyDirectory
import MyKafka.SegmentDump
import MyKafka.EmptyLog
import MyKafka.FailingCalls
import MyKafka.KeptMessages
