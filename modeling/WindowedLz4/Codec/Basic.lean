/-
What a session asks of a codec.

A codec keeps a context from call to call.  An encoder reads the message out of
the window and appends a frame; a decoder writes the message into the window,
which it cannot resize.  Both are told when a window is about to be given up.
Either may fail, and then keeps whatever context it has come to.
-/
import WindowedLz4.Failure
namespace WindowedLz4

/-- The encoding side of a codec, with contexts of type `ε`. -/
class Encoder (ε : Type) where
  /-- Appends a frame for `window` from `start` on to `dst`, and tells its length.  The window
  before `start` and the windows retired so far may be referred to. -/
  encode (context : ε) (window : Bytes) (start : Nat) (dst : Bytes) : Outcome Nat (ε × Bytes)
  /-- The window is about to be cleared. -/
  retire (context : ε) (window : Bytes) : ε

/-- The decoding side of a codec, with contexts of type `δ`. -/
class Decoder (δ : Type) where
  /-- Decodes `frame` into the `capacity` bytes of the window from `start` on, and tells the
  length of the plaintext. -/
  decode {n : Nat} (context : δ) (frame : Bytes) (window : Vector UInt8 n) (start capacity : Nat) :
    Outcome Nat (δ × Vector UInt8 n)
  /-- The window up to the end of the last message is about to be given up. -/
  retire (context : δ) (window : Bytes) : δ

end WindowedLz4
