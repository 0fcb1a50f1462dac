import Fileloft.Memory.Patch
import Fileloft.Memory.Final
import Fileloft.Fs.Chunks
import Fileloft.Fs.Final
import Fileloft.Fs.Stable
import Fileloft.Fs.WriteRetry
import Fileloft.Fs.Locker
import Fileloft.Fs.Torn
import Fileloft.Memory.Limit
import Fileloft.Stores.Reuse
import Fileloft.Stores.Approval
import Fileloft.Fs.FinalizeRetry
import Fileloft.Stores.Removal
import Fileloft.Memory.Locker
import Fileloft.Memory.Checksum
import Fileloft.Memory.Events
import Fileloft.Memory.Expiry
import Fileloft.Memory.Secrecy
import Fileloft.Fs.Persist
import Fileloft.Memory.Consent
import Fileloft.Memory.Journal
import Fileloft.Fs.Revival
import Fileloft.Core.Metadata
import Fileloft.Server.Location
import Fileloft.Adapters.Actix
import Fileloft.Object.Multipart
import Fileloft.Object.Abort
import Fileloft.Object.Finish
import Fileloft.Object.Commit
import Fileloft.Object.Compose
import Fileloft.Object.Isolation
import Fileloft.Object.Sources
import Fileloft.Object.Resume
import Fileloft.Handler.Checksum
import Fileloft.Adapters.Standalone
import Fileloft.Adapters.CloudServer
import Fileloft.Memory.Deferral
import Fileloft.Memory.Cleanup
import Fileloft.Fs.Joining
import Fileloft.Fs.Confined
import Fileloft.Server.Transfer
import Fileloft.Stores.Transfer
import Fileloft.Stores.Apart
import Fileloft.Stores.Objects
import Fileloft.Stores.Serial
