/-
The receiving side of a stream.

A frame is decoded into the ring at the cursor, the message is copied out, and
the ring is advanced past it.  A frame that is refused leaves no trace but stale
bytes from the cursor on, which nothing reads.
-/
import WindowedLz4.Codec.Lz4
import WindowedLz4.Ledger
import WindowedLz4.Window.Ring
namespace WindowedLz4

/-- A session that decodes frames with a codec whose contexts are of type `δ`. -/
structure Decompressor (δ : Type) where
  config : WindowConfig
  decoder : δ
  window : Ring config
  ledger : Ledger

namespace Decompressor

/-- A new session with this codec context.  The configuration is clamped. -/
def withDecoder {δ : Type} (config : WindowConfig) (decoder : δ) : Decompressor δ where
  config := config.clamped
  decoder
  window := .empty config.clamped
  ledger := {}

/-- A new LZ4 session. -/
def lz4 (config : WindowConfig) : Decompressor Lz4Context :=
  withDecoder config (.ofConfig config.clamped)

variable {δ : Type}

/-- Where in the ring the next message is decoded. -/
def cursor (s : Decompressor δ) : Nat := s.window.cursor

variable [Decoder δ]

/-- Copies out and commits the message of `size` bytes that a frame of `frameSize` bytes was
decoded to. -/
def commit (s : Decompressor δ) (frameSize size : Nat) (dst : Bytes) :
    Outcome Nat (Decompressor δ × Bytes) :=
  match s.window.message size with
  | .error failure => .refused failure (s, dst)
  | .ok message =>
    let dst := dst ++ message
    match s.window.advance size with
    | .error failure => .refused failure (s, dst)
    | .ok (advance, window) =>
      let decoder := match advance with
        | .continued => s.decoder
        | .rolledOver retired => Decoder.retire s.decoder retired
      .done size ({ s with decoder, window, ledger := s.ledger.record frameSize size }, dst)

/-- Appends the message of a frame to `dst`, and tells its length.  A frame that stands for no
byte at all is no message. -/
def process (s : Decompressor δ) (dst frame : Bytes) : Outcome Nat (Decompressor δ × Bytes) :=
  if frame.size = 0 then .refused .noData (s, dst)
  else if !s.window.isConsistent then .refused .cursorOutsideDictionary (s, dst)
  else
    let ⟨verdict, decoder, bytes⟩ :=
      Decoder.decode s.decoder frame s.window.bytes s.window.cursor s.window.messageCapacity
    let s := { s with decoder, window := { s.window with bytes } }
    match verdict with
    | .error failure => .refused failure (s, dst)
    | .ok 0 => .refused .malformed (s, dst)
    | .ok size => s.commit frame.size size dst

end Decompressor

end WindowedLz4
