import ClusterRouter.QueueState
import ClusterRouter.QueueInsert
import ClusterRouter.QueueWorker
import ClusterRouter.QueueIndex
import ClusterRouter.QueueOrder
import ClusterRouter.QueuePool
import ClusterRouter.QueueRedirty
import ClusterRouter.QueueHistory
import ClusterRouter.QueueRetry
import ClusterRouter.QueueProgress
import ClusterRouter.QueueForget
import ClusterRouter.QueueEnqueue
import ClusterRouter.PodResources
import ClusterRouter.QueueKeys
