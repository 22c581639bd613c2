import Moli.Actions.Verify.Window
import Moli.IndexedDb.Verify.TransactionWakes
import Moli.IndexedDb.Verify.ConnectionNotifications
import Moli.MessagePort.Verify.Registry
import Moli.OwnerQueue.Verify.ReadyTaskSource
import Moli.OwnerQueue.Verify.OwnerTaskSource
import Moli.SharedWorker.Verify.Registry
import Moli.Timers.Verify.Scheduler
import Moli.Disk.Verify.Pool
import Moli.Dom.Verify.Runs
import Moli.FileApi.Verify.Read
import Moli.SessionHistory.Verify.Traversal
import Moli.SessionHistory.Verify.Nearest
import Moli.Cookies.Verify.Secure
import Moli.Cookies.Verify.Journal
import Moli.Dns.Verify.Service
import Moli.Quota.Verify.Windows
import Moli.Cookies.Verify.Database
import Moli.Connect.Verify.Target
import Moli.HttpCache.Verify.Revalidation
import Moli.HttpCache.Verify.Policy
import Moli.IndexedDb.Verify.ConnectionRequests
import Moli.Robots.Verify.RobotsTxt
import Moli.Csp.Verify.Checks
import Moli.Dom.Verify.ShadowOrder
import Moli.IndexedDb.Verify.Query
import Moli.Cookies.Verify.Quota
import Moli.BoundedJson.Verify.Serializer
import Moli.XPath.Verify.Axes
import Moli.LevelDb.Verify.Table
import Moli.StorageIo.Verify.Sequence
import Moli.Fetch.Verify.Cancellation
import Moli.IndexedDb.Verify.KeyPath
import Moli.WebSocket.Verify.Frames
import Moli.BoundedBuffer.Verify.Buffer
import Moli.Lib.Lists
