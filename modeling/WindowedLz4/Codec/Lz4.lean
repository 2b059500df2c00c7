/-
The LZ4 codec.

Its context is the history of retired windows and nothing else, and both sides
keep it in the same way.  A frame is a bare block: no size, no checksum.
-/
import WindowedLz4.Block.Expand
import WindowedLz4.Block.Frame
import WindowedLz4.Codec.Basic
import WindowedLz4.Config
import WindowedLz4.History
namespace WindowedLz4

/-- The context of one side of an LZ4 stream. -/
structure Lz4Context where
  history : History
  deriving DecidableEq, Repr, Inhabited

namespace Lz4Context

/-- A context whose history spans at most the dictionary size of `config`. -/
def ofConfig (config : WindowConfig) : Lz4Context :=
  ⟨.ofDictionarySize config.dictionarySize⟩

/-- The context once a window is gone. -/
def retire (c : Lz4Context) (window : Bytes) : Lz4Context :=
  ⟨c.history.retire window⟩

/-- Appends the frame of the message that starts at `start`. -/
def encode (c : Lz4Context) (window : Bytes) (start : Nat) (dst : Bytes) :
    Outcome Nat (Lz4Context × Bytes) :=
  if window.size < start then .refused .startBeyondWindow (c, dst)
  else
    let (dictionary, history) := c.history.dictionary (window.extract 0 start)
    (appendFrame dictionary (window.extract start window.size) dst).mapAfter (⟨history⟩, ·)

/-- Writes the plaintext of a frame at `start`.  A frame that does not decode leaves what it
stood for up to its fault. -/
def decode {n : Nat} (c : Lz4Context) (frame : Bytes) (window : Vector UInt8 n)
    (start capacity : Nat) : Outcome Nat (Lz4Context × Vector UInt8 n) :=
  if n < start + capacity then .refused .regionBeyondWindow (c, window)
  else
    let (dictionary, history) := c.history.dictionary (window.toArray.extract 0 start)
    match expandFrame dictionary capacity frame with
    | .ok plain => .done plain.size (⟨history⟩, overwrite window start plain.toList)
    | .error plain => .refused .malformed (⟨history⟩, overwrite window start plain.toList)

instance : Encoder Lz4Context where
  encode := encode
  retire := retire

instance : Decoder Lz4Context where
  decode := decode
  retire := retire

end Lz4Context

end WindowedLz4
