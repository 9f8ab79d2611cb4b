import Mise.Env.Nested
import Mise.HookEnv.Deactivate
import Mise.HookEnv.Session
import Mise.Task.DepsRun
import Mise.Task.DropReports
import Mise.Lockfile.Trust
import Mise.Lockfile.BindingsRun
import Mise.Lockfile.Coherence
import Mise.Lockfile.PlatformToml
import Mise.Task.KeepOrderRun
import Mise.Edits.UnapplyBlock
import Mise.Merge.Conflicts
import Mise.Lockfile.SidecarDirs
import Mise.Shell.Fish
import Mise.Sync.Divergence
import Mise.Sync.Layout
import Mise.Util.Userinfo
import Mise.Watch.Restart
import Mise.Task.Lock
import Mise.Task.CacheContain
import Mise.Install.Provenance
import Mise.Shell.Nushell
import Mise.Shell.Quotes
import Mise.Shell.Xonsh
import Mise.Task.KeepOrderSlots
import Mise.Relocation.InPlace
import Mise.Env.ExportPRoundTrip
import Mise.Relocation.MachOPatch
import Mise.Lockfile.Canonical
import Mise.Task.FindCycles
import Mise.Task.PostParents
import Mise.Toolset.OptionsResolved
import Mise.Lockfile.Baselines
import Mise.Aqua.Exact
import Mise.Dotenv.CrLf
import Mise.Edits.LineConverge
import Mise.Install.DigestChecked
import Mise.Task.DepsLinear
import Mise.Task.LiteralVars
import Mise.Task.SummaryBuffer
import Mise.Util.CommandLine
import Mise.Util.Wildcard
import Mise.Util.PathRoundTrip
import Mise.Toolset.InstallRun
import Mise.Bootstrap.Sequence
