import Fern.Proofs.Store.Swap
import Fern.Proofs.Store.Crash
import Fern.Proofs.Hibernate.Output
import Fern.Proofs.Backup.Upload
import Fern.Proofs.Actor.Dial
import Fern.Proofs.Actor.Mailbox
import Fern.Proofs.Actor.Fence
import Fern.Proofs.Actor.Sweep
import Fern.Proofs.Setup.Key
import Fern.Proofs.Actor.Golden
import Fern.Proofs.Runsc.Net
import Fern.Proofs.Image.Keep
import Fern.Proofs.Actor.Waits
import Fern.Proofs.Store.Readopt
import Fern.Proofs.Store.Unlink
import Fern.Proofs.Boxexec.Jobs
import Fern.Proofs.Boxexec.Output
import Fern.Proofs.Watch.Event
import Fern.Proofs.Actor.Loop
import Fern.Proofs.Actor.Fork
import Fern.Proofs.Store.Overlay
import Fern.Proofs.Store.Strip
import Fern.Proofs.Store.Retention
import Fern.Proofs.Boxexec.Exec
import Fern.Proofs.Watch.Known
import Fern.Proofs.Store.GitDir
import Fern.Proofs.Store.Find
import Fern.Proofs.Backup.Serve
import Fern.Proofs.Init.OnDemand
import Fern.Proofs.Init.Services
