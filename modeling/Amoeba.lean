import Amoeba.CString.Basic
import Amoeba.QueryString.Basic
import Amoeba.SqlLiteral.Basic
import Amoeba.TokenBucket.Basic
import Amoeba.TokenBucket.Shaping
import Amoeba.SearchTree.Basic
import Amoeba.RedBlack.Basic
import Amoeba.RedBlack.Insert
import Amoeba.RedBlack.Delete
import Amoeba.Nginx.RbTree
import Amoeba.Nginx.RbTreeInsert
import Amoeba.Nginx.RbTreeDelete
import Amoeba.Nginx.RbTreeRuns
import Amoeba.Nginx.Queue
import Amoeba.Nginx.Timers
import Amoeba.DocStore.Basic
import Amoeba.DocStore.AppendNew
import Amoeba.Interleaving.Basic
import Amoeba.Markup.Basic
import Amoeba.Java.String
import Amoeba.Java.DateFormat
import Amoeba.Java.Integer
import Amoeba.Java.Charset
import Amoeba.Nginx.String
import Amoeba.Nginx.Arguments
import Amoeba.Nginx.RequestBody
import Amoeba.Nginx.Conf
import Amoeba.Nginx.Variables
import Amoeba.AccessControl.KeyTable
import Amoeba.AccessControl.Authorize
import Amoeba.AccessControl.Limiter
import Amoeba.AccessControl.Handler
import Amoeba.AccessControl.Extraction
import Amoeba.AccessControl.QueryString
import Amoeba.AccessControl.Segmentation
import Amoeba.AccessControl.Decision
import Amoeba.AccessControl.Approval
import Amoeba.AccessControl.Pinning
import Amoeba.AccessControl.Release
import Amoeba.AccessControl.TwoPhase
import Amoeba.AccessControl.ZoneTree
import Amoeba.AccessControl.ZoneMemory
import Amoeba.AccessControl.Expiry
import Amoeba.AccessControl.Bucket
import Amoeba.AccessControl.Quota
import Amoeba.AccessControl.Shaping
import Amoeba.AccessControl.WordArith
import Amoeba.AccessControl.Pairs
import Amoeba.AccessControl.Methods
import Amoeba.AccessControl.RowOrder
import Amoeba.AccessControl.DbConf
import Amoeba.HttpLog.Format
import Amoeba.HttpLog.Line
import Amoeba.HttpLog.Statement
import Amoeba.HttpLog.Conf
import Amoeba.HttpLog.Handler
import Amoeba.HttpLog.Session
import Amoeba.HttpLog.Independence
import Amoeba.HttpLog.Inheritance
import Amoeba.HttpLog.PoolLifetime
import Amoeba.Win32.MasterCycle
import Amoeba.SpringReader.Keywords
import Amoeba.SpringReader.Scheduler
import Amoeba.SpringReader.Subscribe
import Amoeba.SpringReader.Machine
import Amoeba.SpringReader.Duplicates
import Amoeba.SpringReader.Custody
import Amoeba.SpringReader.Windows
import Amoeba.SpringReader.Html
import Amoeba.SpringReader.DailyPush
import Amoeba.SpringReader.Alone
import Amoeba.SpringReader.Paging
import Amoeba.SpringReader.Tags
import Amoeba.SpringReader.Decoding
import Amoeba.RssFetcher.Push
import Amoeba.RssFetcher.Fetch
import Amoeba.RssFetcher.StoreOnce
import Amoeba.RssFetcher.Retry
import Amoeba.RssFetcher.Concurrent
import Amoeba.RssFetcher.Schedule
