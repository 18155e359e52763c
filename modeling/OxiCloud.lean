import OxiCloud.Retention
import OxiCloud.Sequential
import OxiCloud.Backing
import OxiCloud.Uploads
import OxiCloud.BackendConsistency
import OxiCloud.BackendMigration
import OxiCloud.BackendStack
import OxiCloud.Compensation
import OxiCloud.DerivedPurge
import OxiCloud.PartialPuts
import OxiCloud.RangeReads
import OxiCloud.LegacyConversion
import OxiCloud.Folders.Trash
import OxiCloud.Folders.Purge
import OxiCloud.Folders.Propagation
import OxiCloud.WebDav.Isolation
import OxiCloud.WebDav.Transfers
import OxiCloud.WebDav.Patches
import OxiCloud.Acl.Coherence
import OxiCloud.Acl.Ownership
import OxiCloud.Acl.Cycles
import OxiCloud.Calendar.Readability
import OxiCloud.Calendar.Served
import OxiCloud.Calendar.Edits
import OxiCloud.Contacts.RoundTrips
import OxiCloud.Chunks.Nextcloud
import OxiCloud.Auth.Accounts
import OxiCloud.Auth.Passwords
import OxiCloud.WriteGate
import OxiCloud.Middleware
import OxiCloud.Shares
import OxiCloud.Mounts
