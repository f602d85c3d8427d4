import QCap.PathTree
import QCap.PayloadMerkle
import QCap.Revocation
import QCap.WriteLog
import QCap.Archive
import QCap.Identity
import QCap.Json
import QCap.KeyWrap
import QCap.OpenArchive
import QCap.PlainExport
import QCap.GoDocuments
import QCap.IndexJson
import QCap.IssuerCommands
import QCap.IssuerHistory
import QCap.RegistryPublish
import QCap.RegistryRoles
import QCap.RegistryRuns
import QCap.RevokedOpen
import QCap.SealedOpen
import QCap.JsonReader
import QCap.RevocationRuns
import QCap.WriterAccepted
import QCap.GrantScope
import QCap.PayloadRoot
import QCap.HostWrites
import QCap.ExportFaults
import QCap.PackVerify
import QCap.ListAgreement
import QCap.IndexReload
import QCap.ArchiveSizes
import QCap.Replacement
import QCap.Keyfiles
import QCap.RegistryNames
import QCap.DirWalk
import QCap.OrderedCodes
import QCap.InputTree
import QCap.HostArchive
import QCap.HostPack
import QCap.HostSeal
import QCap.QuietHost
import QCap.LeftOut
import QCap.RelyGuarantee
import QCap.RegistryCalls
import QCap.RegistryService
import QCap.RegistryMoments
import QCap.RegistryPool
import QCap.RegistryKills
import QCap.RegistryRefinement
import QCap.SealedDocuments
import QCap.ArtifactAgreement
import QCap.Exchange
import QCap.HtmlEscape
import QCap.IndexPage
