import Alpine.Proofs.VersionOrder
import Alpine.Proofs.ProviderChoice
import Alpine.Proofs.SudoOptions
import Alpine.Proofs.InstallPaths
import Alpine.Proofs.AuditMissing
import Alpine.Proofs.MainLoop
import Alpine.Proofs.DepList
import Alpine.Proofs.DepAdb
import Alpine.Proofs.AdbReaders
import Alpine.Proofs.XattrText
import Alpine.Proofs.DepPrint
import Alpine.Proofs.DigestText
import Alpine.Proofs.UrlSanitize
import Alpine.Proofs.UnisoExtract
import Alpine.Proofs.ExtractV3
import Alpine.Proofs.GzSplit
import Alpine.Proofs.AbuildTar
import Alpine.Proofs.PkgName
import Alpine.Proofs.RepoTags
import Alpine.Proofs.FdbRoom
import Alpine.Proofs.FdbScope
import Alpine.Proofs.AdbBlobReads
import Alpine.Proofs.AdbCopy
import Alpine.Proofs.DepAnalyze
import Alpine.Proofs.AdbSort
import Alpine.Proofs.IstreamCalls
import Alpine.Proofs.IstreamDelim
import Alpine.Proofs.Query
import Alpine.Proofs.FindFs
import Alpine.Proofs.SerializerBounds
import Alpine.Proofs.Balloc
import Alpine.Proofs.Arrays
import Alpine.Proofs.RepoVariables
import Alpine.Proofs.ConfigFiles
