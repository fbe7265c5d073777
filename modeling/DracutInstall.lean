import DracutInstall.Elfkit.LdSoCache
import DracutInstall.Elfkit.Decode
import DracutInstall.Elfkit.Malformed
import DracutInstall.Elfkit.LoadContent
import DracutInstall.Elfkit.Strides
import DracutInstall.Modules.Closure
import DracutInstall.Modules.Filter
import DracutInstall.File.CopyFallback
import DracutInstall.File.CopyPlaced
import DracutInstall.File.RelativeLink
import DracutInstall.Elfkit.LddUnique
import DracutInstall.Elfkit.LddEnds
import DracutInstall.Elfkit.LddProvenance
import DracutInstall.Elfkit.LddFailure
import DracutInstall.Elfkit.LddSchedule
import DracutInstall.Elfkit.LddMissing
import DracutInstall.Elfkit.LddOrder
import DracutInstall.Elfkit.ReplaceSlice
import DracutInstall.Elfkit.LoadReader
import DracutInstall.Elfkit.DynamicGrammar
import DracutInstall.Acl.CopyFd
import DracutInstall.File.CloneSound
import DracutInstall.File.CloneTrace
import DracutInstall.File.InstallOrder
import DracutInstall.File.InstallAgain
import DracutInstall.File.InstallNeeds
import DracutInstall.File.CloneContained
import DracutInstall.File.CloneFaithful
import DracutInstall.File.CloneImage
import DracutInstall.File.CloneSpares
import DracutInstall.File.CloneRetry
import DracutInstall.File.CloneTermination
import DracutInstall.Lib.TreeBelow
import DracutInstall.Lib.Collect
import DracutInstall.Lib.Accepts
import DracutInstall.Elfkit.Accepted
import DracutInstall.Elfkit.CacheAccepted
import DracutInstall.Modules.Failure
import DracutInstall.Modules.Modalias
import DracutInstall.Install.Files
import DracutInstall.Install.Modules
import DracutInstall.Install.Image
import DracutInstall.Install.Main
import DracutInstall.File.CopyFailure
