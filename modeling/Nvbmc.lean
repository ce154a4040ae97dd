import Nvbmc.RunQueue.StampExclusion
import Nvbmc.AsyncRpc.Framing
import Nvbmc.PRServ.UniqueValues
import Nvbmc.PRServ.NeverDown
import Nvbmc.HashServ.GarbageCollection
import Nvbmc.HashServ.Upstream
import Nvbmc.HashServ.Stability
import Nvbmc.Firewall.RuleIds
import Nvbmc.WorkerPipe.EndToEnd
import Nvbmc.FpgaRegtbl.NoLostAlert
import Nvbmc.CowDict.Independence
import Nvbmc.Events.UiQueue
import Nvbmc.Wic.LayoutSafety
import Nvbmc.SigGen.Recompute
import Nvbmc.License.FilteredLicense
import Nvbmc.SigGen.LockedSigs
import Nvbmc.OutHash.SameText
import Nvbmc.RunQueue.PrioMap
import Nvbmc.FileChecksums.Relocation
import Nvbmc.SigGen.SigDiffs
import Nvbmc.DataSmart.Assignments
import Nvbmc.Versions.Preorder
import Nvbmc.PRServ.RevisionTexts
import Nvbmc.Providers.ProviderChoice
import Nvbmc.DepVersions.Accepted
import Nvbmc.RunQueue.NextTaskChoice
import Nvbmc.RunQueue.RehashOrder
import Nvbmc.Prepare.PruningClosure
import Nvbmc.Prepare.DirectLaw
import Nvbmc.SigGen.RecipeInfo
import Nvbmc.FaultSpec.RoundTrip
import Nvbmc.Parse.ReadersAgree
import Nvbmc.Fetch2.Srcrev
import Nvbmc.MctpVdm.CachedStatus
import Nvbmc.FpgaRegtbl.AlertFiles
import Nvbmc.FpgaRegtbl.InjectionAgreement
import Nvbmc.Fetch2.MirrorChains
import Nvbmc.Fetch2.ReplaceOutcome
import Nvbmc.Fetch2.UriRoundTrip
import Nvbmc.OePatch.TreeRuns
import Nvbmc.OePatch.PatchedFiles
import Nvbmc.Build.TasksBetween
import Nvbmc.Build.TaskRuns
import Nvbmc.CodeParser.ShellTexts
import Nvbmc.CodeParser.PythonTexts
import Nvbmc.Identifiers.TidNames
import Nvbmc.Progress.Overwritten
import Nvbmc.CveCheck.Status
import Nvbmc.CveCheck.VersionOrder
import Nvbmc.PackageData.RoundTrip
import Nvbmc.PackageData.Rename
