/-
The sending side of a stream.

A message is written in any number of chunks and then processed into one frame.
The dictionary of a frame is what was processed before it, so the frames make
sense only in their order, each exactly once.
-/
import WindowedLz4.Codec.Lz4
import WindowedLz4.Ledger
import WindowedLz4.Window.Growing
namespace WindowedLz4

/-- A session that encodes messages with a codec whose contexts are of type `ε`. -/
structure Compressor (ε : Type) where
  config : WindowConfig
  encoder : ε
  window : Growing
  ledger : Ledger

namespace Compressor

/-- A new session with this codec context.  The configuration is clamped. -/
def withEncoder {ε : Type} (config : WindowConfig) (encoder : ε) : Compressor ε where
  config := config.clamped
  encoder
  window := .ofConfig config.clamped
  ledger := {}

/-- A new LZ4 session. -/
def lz4 (config : WindowConfig) : Compressor Lz4Context :=
  withEncoder config (.ofConfig config.clamped)

variable {ε : Type}

/-- The length of the message written so far and not yet processed. -/
def pendingSize (s : Compressor ε) : Nat := s.window.pendingSize

/-- Adds `src` to the pending message, unless the message would get too long.  Nothing is
always accepted. -/
def write (s : Compressor ε) (src : Bytes) : Outcome Unit (Compressor ε) :=
  if src.size = 0 then .done () s
  else if s.config.maxMessageSize < s.pendingSize + src.size then
    .refused (.messageTooLarge s.pendingSize src.size s.config.maxMessageSize) s
  else
    match s.window.append src with
    | .ok window => .done () { s with window }
    | .error failure => .refused failure s

variable [Encoder ε]

/-- Commits the message that was encoded as a frame of `frameSize` bytes. -/
def commit (s : Compressor ε) (frameSize : Nat) : Outcome Nat (Compressor ε) :=
  let size := s.pendingSize
  match s.window.advance size with
  | .error failure => .refused failure s
  | .ok (advance, window) =>
    let encoder := match advance with
      | .continued => s.encoder
      | .rolledOver retired => Encoder.retire s.encoder retired
    .done frameSize { s with encoder, window, ledger := s.ledger.record size frameSize }

/-- Appends the frame of the pending message to `dst`, and tells its length. -/
def process (s : Compressor ε) (dst : Bytes) : Outcome Nat (Compressor ε × Bytes) :=
  if s.pendingSize = 0 then .refused .noData (s, dst)
  else
    let ⟨verdict, encoder, dst⟩ := Encoder.encode s.encoder s.window.buffer s.window.start dst
    let s := { s with encoder }
    match verdict with
    | .error failure => .refused failure (s, dst)
    | .ok frameSize => (s.commit frameSize).mapAfter (·, dst)

/-- Writes a message and processes what is pending then. -/
def compressMessage (s : Compressor ε) (message dst : Bytes) : Outcome Nat (Compressor ε × Bytes) :=
  let ⟨verdict, s⟩ := s.write message
  match verdict with
  | .error failure => .refused failure (s, dst)
  | .ok () => s.process dst

end Compressor

end WindowedLz4
