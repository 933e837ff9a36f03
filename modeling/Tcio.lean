import Tcio.Exec
import Tcio.Layout
import Tcio.Handover
import Tcio.Alone
import Tcio.Leaks
import Tcio.Reuse
import Tcio.Rejoin
import Tcio.Gets
import Tcio.Puts
import Tcio.Sink
import Tcio.WriteAll
import Tcio.Vectored
import Tcio.Texts
import Tcio.NumSpec
import Tcio.Slices
import Tcio.Tags
import Tcio.WriteVectored
import Tcio.Absorb
import Tcio.Draws
import Tcio.Pour
import Tcio.Fields
import Tcio.FmtSpec
import Tcio.FuturesSpec
import Tcio.Portions
import Tcio.Recycle
