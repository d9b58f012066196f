import Shuriken.Fs.HashInputs
import Shuriken.Fs.History
import Shuriken.Fs.Spellings
import Shuriken.Log.Recompacted
import Shuriken.Build.Generators
import Shuriken.Build.Rebuild
import Shuriken.Cmd.Subprocesses
import Shuriken.Trace.Descriptors
import Shuriken.Trace.TraceRequests
import Shuriken.Trace.ToJson
import Shuriken.Rpc.Answers
import Shuriken.Rs.Backpressure
import Shuriken.Rs.Progress
import Shuriken.Rs.Take
import Shuriken.Rs.FromStart
import Shuriken.Manifest.RuleVariables
import Shuriken.Manifest.Inclusion
import Shuriken.Manifest.ReportedCycle
import Shuriken.Manifest.Targets
import Shuriken.Manifest.Fresh
import Shuriken.Manifest.StepHash
import Shuriken.Cmd.EscapedCommand
import Shuriken.Build.CreatedDirectories
import Shuriken.Rs.IfEmpty
import Shuriken.Rs.Concatenation
import Shuriken.Rs.Reduce
import Shuriken.Store.Server
import Shuriken.Tools.Deletions
import Shuriken.Tools.Cleaned
