import BashOs.Bc.Sqrt
import BashOs.Dns.DenialTruth
import BashOs.Git.Config.Override
import BashOs.Git.Diff.Rebuild
import BashOs.Git.History.TopoOrder
import BashOs.Git.Ignore.Wild
import BashOs.Git.IndexFile.Stages
import BashOs.Git.IndexFile.Write
import BashOs.Git.Merge.AutoMerged
import BashOs.Git.Merge.Laws
import BashOs.Git.Pack.Pays
import BashOs.Git.Patch.ReadBack
import BashOs.Git.Refs.FailedDelete
import BashOs.Git.Refs.LockNames
import BashOs.Git.Refs.Swap
import BashOs.Git.Remote.Credentials
import BashOs.Git.Remote.Fetch
import BashOs.Git.Remote.Push
import BashOs.Git.Remote.Report
import BashOs.Git.Remote.Ssh
import BashOs.Git.Rename.Score
import BashOs.Git.Store.Abbrev
import BashOs.Git.Store.Fsck
import BashOs.Git.Store.Housekeeping
import BashOs.Git.Store.IndexHeads
import BashOs.Git.Store.Process
import BashOs.Git.WorkTree.Confined
import BashOs.Git.WorkTree.Entries
import BashOs.Git.WorkTree.MergeCommand
import BashOs.Git.WorkTree.TreeOrder
import BashOs.Rsync.Delta
