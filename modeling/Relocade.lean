import Relocade.Compiler.Emit.Wide
import Relocade.Compiler.Emit.Switch
import Relocade.Compiler.Emit.Encoder
import Relocade.Compiler.Emit.Memory
import Relocade.Compiler.Emit.Forward
import Relocade.Compiler.Place.Sharing
import Relocade.Compiler.Body.Prune
import Relocade.Physical.View
import Relocade.Pit.Polling
import Relocade.Runtime.Suspended
import Relocade.Virtual.Accesses
import Relocade.Flags.LazyFlags
import Relocade.Worker.Wakes
import Relocade.Dos.Mz
import Relocade.Vga.State
import Relocade.Segment.Spans
import Relocade.Segment.Tables
import Relocade.Vga.Upload
import Relocade.Floating.SquareRoot
import Relocade.X87.Remainder
import Relocade.Alu.Divide
import Relocade.X87.Binary
import Relocade.X87.SavedState
import Relocade.Dispatch.Batches
import Relocade.Speaker.Audio
import Relocade.Dos.SearchChain
import Relocade.Vfs.Changes
import Relocade.Keyboard.Decoder
