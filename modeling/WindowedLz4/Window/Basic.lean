/-
Windows of recent plaintext.

A window holds the bytes before its cursor, which the next message may refer
to.  Committing a message moves the cursor past it; once the cursor would reach
the dictionary size, the window rolls over instead and starts again at 0.  The
sending side keeps a `Growing` window and the receiving side a `Ring`, and for
the same messages the two have the same cursor and the same history.
-/
import WindowedLz4.Config
import WindowedLz4.Failure
namespace WindowedLz4

/-- What committing a message did to a window. -/
inductive Advance where
  /-- The cursor moved past the message. -/
  | continued
  /-- The window held these bytes, message included, and starts again at 0. -/
  | rolledOver (retired : Bytes)
  deriving DecidableEq, Repr, Inhabited

/-- The bytes that an advance gives up, if it does. -/
def Advance.retired? : Advance → Option Bytes
  | continued => none
  | rolledOver retired => some retired

end WindowedLz4
