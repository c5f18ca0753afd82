import MosqCluster.Client.StopRequest
import MosqCluster.Client.CommandQueue
import MosqCluster.Cluster.ProxyPass
import MosqCluster.Cluster.ClientId
import MosqCluster.Xauth.AppInfo
import MosqCluster.Helper.TaskQueue
import MosqCluster.Helper.Cache.Refinement
import MosqCluster.Http.Parser.MarkDiscipline
import MosqCluster.Http.Pipelining
import MosqCluster.Http.RequestText
import MosqCluster.Server.Ownership
import MosqCluster.Server.SendResponse
import MosqCluster.Helper.IniParser
import MosqCluster.AuthService.TrustedUsers
import MosqCluster.AuthPlugin.Verdict
import MosqCluster.Helper.LocalStream
import MosqCluster.Helper.StringConvert
import MosqCluster.Http.Response
import MosqCluster.Cluster.PeerList
import MosqCluster.Helper.SimplePool
import MosqCluster.Helper.ThreadPoolShutdown
import MosqCluster.Client.PublishLoop
import MosqCluster.Helper.IniFile
import MosqCluster.Helper.Cache.Regions
import MosqCluster.Http.Parser.Phases
import MosqCluster.Http.QueryString
import MosqCluster.Http.Queries
import MosqCluster.Helper.IniLoop
import MosqCluster.Helper.IniSections
import MosqCluster.Helper.IniLoads
import MosqCluster.Foundation.Blocks
import MosqCluster.Helper.Crypto.Alphabet
import MosqCluster.Helper.Crypto.Base64
import MosqCluster.Helper.Crypto.Base32
import MosqCluster.Helper.Crypto.HexStr
import MosqCluster.Helper.Crypto.BlockCipher
import MosqCluster.Helper.UrlEncode
import MosqCluster.Http.Lookup
import MosqCluster.Xauth.Dsn
import MosqCluster.Http.Parser.ParseUrl
import MosqCluster.Http.Parser.HeaderRun
import MosqCluster.Http.Target
import MosqCluster.Foundation.Execution
import MosqCluster.Foundation.Occurrences
import MosqCluster.Foundation.OrderedMultiMap
import MosqCluster.Helper.JsonPaths
import MosqCluster.Helper.JsonDocuments
import MosqCluster.Helper.Cache.NativeMemory
import MosqCluster.Helper.StringHelper.Basic
import MosqCluster.Helper.StringHelper.Replace
import MosqCluster.Helper.StringHelper.Remove
import MosqCluster.Helper.StringHelper.Trim
import MosqCluster.Helper.StringHelper.Termination
import MosqCluster.Helper.StringHelper.Split
import MosqCluster.Helper.StringHelper.Exist
import MosqCluster.Helper.HttpHeaders
import MosqCluster.Helper.UrlEscapes
import MosqCluster.Xauth.Statement
import MosqCluster.Helper.HttpCalls
import MosqCluster.Xauth.Applications
import MosqCluster.Foundation.PrefixCode
import MosqCluster.Helper.Utf8Encoding
import MosqCluster.Foundation.ComparisonMap
import MosqCluster.Helper.XStringOrder
import MosqCluster.Server.Routes
import MosqCluster.Helper.XStringBuffer
import MosqCluster.Server.Arrival
import MosqCluster.AuthService.OverHttp
import MosqCluster.Cluster.Pairs
import MosqCluster.Cluster.Settling
import MosqCluster.Cluster.JoinOverHttp
import MosqCluster.UntrustedText
