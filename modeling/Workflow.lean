import Workflow.Proofs.HttpStream
import Workflow.Proofs.DnsTermination
import Workflow.Proofs.MysqlTermination
import Workflow.Proofs.GovernanceBreaker
import Workflow.Proofs.ClientBalance
import Workflow.Proofs.SchedGroup
import Workflow.Proofs.PollerRuns
import Workflow.Proofs.KafkaVarint
import Workflow.Proofs.KafkaFraming
import Workflow.Proofs.MysqlFraming
import Workflow.Proofs.DnsStray
import Workflow.Proofs.RedisRoundTrip
import Workflow.Proofs.SeriesQueue
import Workflow.Proofs.UpstreamPolicy
import Workflow.Proofs.Vnswrr
import Workflow.Proofs.KafkaAssignor
import Workflow.Proofs.SchedWaiters
import Workflow.Proofs.KafkaBatch
import Workflow.Proofs.MsgQueue
import Workflow.Proofs.LRUCache
import Workflow.Proofs.ResourcePool
import Workflow.Proofs.ExecutorRuns
import Workflow.Proofs.ThrdpoolRuns
import Workflow.Proofs.CounterMap
import Workflow.Proofs.URIParser
import Workflow.Proofs.ClientSeries
import Workflow.Proofs.RouteBreaker
import Workflow.Proofs.HttpHeaderValue
import Workflow.Proofs.HttpChunkCursor
import Workflow.Proofs.HttpHeaderStore
import Workflow.Proofs.HttpMessage
import Workflow.Proofs.HttpInterim
import Workflow.Proofs.DnsAccess
import Workflow.Proofs.DnsUtil
import Workflow.Proofs.KafkaApi
import Workflow.Proofs.KafkaScram
import Workflow.Proofs.ConsistentHash
import Workflow.Proofs.WeightedRandom
import Workflow.Proofs.KafkaRange
import Workflow.Proofs.KafkaMemberAssignment
import Workflow.Proofs.MysqlHandshake
import Workflow.Proofs.KafkaProduceRuns
import Workflow.Proofs.UrlCoding
import Workflow.Proofs.QueryString
import Workflow.Proofs.EncodeVectors
import Workflow.Proofs.SendMessage
import Workflow.Proofs.DnsCache
import Workflow.Proofs.DnsClient
import Workflow.Proofs.CounterQueue
import Workflow.Proofs.MergeTask
import Workflow.Proofs.HttpRedirect
import Workflow.Proofs.ParSort
import Workflow.Proofs.MysqlByteorder
import Workflow.Proofs.RouteRecovery
import Workflow.Proofs.RedisState
import Workflow.Factory.HttpProxy
import Workflow.Proofs.HttpProxy
import Workflow.Factory.MysqlTransaction
import Workflow.Proofs.MysqlTransaction
import Workflow.Kernel.Transmission
import Workflow.Proofs.Transmission
import Workflow.Protocol.MysqlResult
import Workflow.Proofs.MysqlResult
import Workflow.Proofs.MysqlIteration
import Workflow.Lib.HeapValues
import Workflow.Algorithm.MapReduce
import Workflow.Lib.Combine
import Workflow.Proofs.MapReduce
import Workflow.Lib.LinkedTree
import Workflow.Lib.RedBlack
import Workflow.Kernel.Rbtree
import Workflow.Proofs.RbtreeInsert
import Workflow.Proofs.RbtreeErase
import Workflow.Proofs.Rbtree
