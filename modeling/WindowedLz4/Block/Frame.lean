/-
Encoding into a growing destination.

The room for a frame is set aside before it is written, and a frame that does
not fit it is refused with the destination as it was.
-/
import WindowedLz4.Block.Printer
import WindowedLz4.Block.Search
import WindowedLz4.Failure
namespace WindowedLz4

/-- Appends the frame of `input` after `dictionary` to `dst`, and tells its length. -/
def appendFrame (dictionary input dst : Bytes) : Outcome Nat Bytes :=
  let frame := (Block.encode dictionary input).bytes
  if frame.length ≤ encodingRoom input.size then .done frame.length (dst ++ frame)
  else .refused .encoderRejected dst

end WindowedLz4
