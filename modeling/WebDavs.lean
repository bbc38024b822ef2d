import WebDavs.Posix.Path
import WebDavs.Posix.Tree
import WebDavs.Posix.Resolve
import WebDavs.Posix.Calls
import WebDavs.Posix.Effects
import WebDavs.Posix.Lasting
import WebDavs.Posix.Below
import WebDavs.Steps
import WebDavs.Pool
import WebDavs.AutoFs
import WebDavs.Upload
import WebDavs.UploadSteps
import WebDavs.UploadAtomic
import WebDavs.Uploads
import WebDavs.Site
import WebDavs.Exclusive
import WebDavs.Digest
import WebDavs.Recursive
import WebDavs.Mover
import WebDavs.Walk
import WebDavs.Job
import WebDavs.Handlers
import WebDavs.Sudo
import WebDavs.Replica
import WebDavs.Elevated
import WebDavs.Transfer
import WebDavs.Relocate
import WebDavs.MoveSafe
import WebDavs.Agree
import WebDavs.Delete
import WebDavs.DeleteExact
import WebDavs.Server
import WebDavs.Registry
import WebDavs.Tally
import WebDavs.Truthful
import WebDavs.Search
import WebDavs.Config
import WebDavs.Auth
import WebDavs.Serve
import WebDavs.Tls
import WebDavs.Calendar
import WebDavs.Logging
import WebDavs.Cut
import WebDavs.Codec
import WebDavs.Url
import WebDavs.Credentials
import WebDavs.Checksum
import WebDavs.Posix.Making
import WebDavs.Refusal
import WebDavs.Direct
import WebDavs.BrowserPut
import WebDavs.FreeDst
import WebDavs.Conduct
import WebDavs.Fresh
import WebDavs.Chunks
import WebDavs.Drives
import WebDavs.Writes
import WebDavs.Ways
import WebDavs.Walks
import WebDavs.Cycles
import WebDavs.Utf8
import WebDavs.Query
import WebDavs.Listing
import WebDavs.Selection
import WebDavs.Polling
import WebDavs.Temps
import WebDavs.Puts
import WebDavs.Drops
import WebDavs.Interleave
import WebDavs.Posix.Local
import WebDavs.Grounds
import WebDavs.Isolation
import WebDavs.Company
import WebDavs.Searches
import WebDavs.Carry
import WebDavs.Accord
import WebDavs.Panel
import WebDavs.Ending
import WebDavs.Dialogue
import WebDavs.Settling
import WebDavs.Restart
import WebDavs.Bars
