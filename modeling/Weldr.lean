import Weldr.TransitionSystems
import Weldr.ImperativeCode
import Weldr.CyclicScan
import Weldr.OrderedCollections
import Weldr.DelimitedText
import Weldr.RecordedHashMap
import Weldr.StreakCounters
import Weldr.RequestTargets
import Weldr.BackendPool
import Weldr.PoolSelection
import Weldr.PoolSteps
import Weldr.PoolFairness
import Weldr.Publisher
import Weldr.PoolServerSet
import Weldr.SubscriberLines
import Weldr.PublisherAccounting
import Weldr.HealthMonitor
import Weldr.HealthPhases
import Weldr.HealthThresholds
import Weldr.WorkerSubscriber
import Weldr.WorkerRouting
import Weldr.ManagementApi
import Weldr.ManagerProcess
import Weldr.ManagerRecords
import Weldr.ReplicaAgreement
import Weldr.LateSubscription
import Weldr.PoolRotation
import Weldr.HealthRecords
import Weldr.HttpHeaders
import Weldr.Proxy
import Weldr.ComposedUrls
import Weldr.RouteSafety
import Weldr.Registration
import Weldr.HeaderFiltering
import Weldr.Cluster
import Weldr.ClusterChannels
import Weldr.ClusterDelivery
import Weldr.ClusterAgreement
import Weldr.PublicationStory
import Weldr.CheckedPublications
import Weldr.UncheckableServers
import Weldr.WorkerLoad
import Weldr.ProxyChain
import Weldr.ClusterForwarding
import Weldr.HealthMemory
import Weldr.ClusterHealth
import Weldr.ClusterCutOff
