import Dataflow.Command.Sandbox
import Dataflow.Main
import Dataflow.Network.Listing
import Dataflow.Proofs.Compilation.Condensed
import Dataflow.Proofs.Compilation.Scheduled
import Dataflow.Proofs.Drawing.Faithful
import Dataflow.Proofs.Drawing.Highlight
import Dataflow.Proofs.Meaning.Coalesce
import Dataflow.Proofs.Meaning.Merge
import Dataflow.Proofs.Network.Names
import Dataflow.Proofs.Region.Maximal
import Dataflow.Proofs.Region.Pairwise
import Dataflow.Proofs.Schedule.Tick
import Dataflow.Proofs.Transform.Effect
import Dataflow.Proofs.Transform.Exhausted
import Dataflow.Proofs.Transform.Flattenable
import Dataflow.Proofs.Transform.Idle
import Dataflow.Proofs.Transform.Redirect
