import SpaServer.Base.Program
import SpaServer.Base.Disk
import SpaServer.Base.Regex
import SpaServer.Base.Slice
import SpaServer.Base.PercentEncoding
import SpaServer.Base.AcceptEncoding
import SpaServer.Base.BufferUnordered
import SpaServer.Base.VersionStore
import SpaServer.Base.Provenance
import SpaServer.Base.Area
import SpaServer.Base.Isolation
import SpaServer.DomainStorage
import SpaServer.Storage.Outcome
import SpaServer.AdminServer
import SpaServer.Delete
import SpaServer.ConcurrentRelease
import SpaServer.Serve
import SpaServer.Storage.Init
import SpaServer.DeleteAll
import SpaServer.Markers
import SpaServer.Overwrite
import SpaServer.Crash
import SpaServer.Confine
import SpaServer.AdminRoutes
import SpaServer.Client.Api
import SpaServer.Client.Keys
import SpaServer.Client.Uploads
import SpaServer.Client.Mirror
import SpaServer.Client.Traffic
import SpaServer.Client.TwoClients
import SpaServer.Client.Resume
import SpaServer.Client.Decision
import SpaServer.Client.Publish
import SpaServer.ConcurrentUpload
import SpaServer.HotReload
import SpaServer.Reloads
import SpaServer.System
import SpaServer.LiveListeners
import SpaServer.Follow
import SpaServer.Position
import SpaServer.Scan
import SpaServer.HostName
import SpaServer.Restart
import SpaServer.CacheKeys
import SpaServer.Faults
import SpaServer.Site.StaticFile
import SpaServer.Site.Paths
import SpaServer.Site.Replies
import SpaServer.Site.Ranges
import SpaServer.Site.Service
import SpaServer.Site.Encoding
import SpaServer.Site.Redirect
import SpaServer.Site.Stable
import SpaServer.Refines
import SpaServer.Site.Published
import SpaServer.Deploy
import SpaServer.ConcurrentHandlers
import SpaServer.Isolation
import SpaServer.Md5File
import SpaServer.Tls
import SpaServer.Site.Headers
import SpaServer.Site.CrossOrigin
import SpaServer.Site.Validators
import SpaServer.HttpHandlers
import SpaServer.Client.Commands
import SpaServer.Client.TwoCommands
