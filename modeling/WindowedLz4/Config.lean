/-
The two sizes that both ends of a stream must agree on.

Nothing on the wire carries them.  A configuration may hold any two sizes, as
read from a file; a session works with the clamped ones.
-/
import WindowedLz4.Limits
namespace WindowedLz4

/-- The sizes of a session's window. -/
structure WindowConfig where
  /-- Bytes of earlier plaintext that a message may refer to. -/
  dictionarySize : Nat := defaultDictionarySize
  /-- The longest single message. -/
  maxMessageSize : Nat := defaultMaxMessageSize
  deriving DecidableEq, Repr, Inhabited

namespace WindowConfig

/-- Both sizes raised to their minimum and capped at their maximum. -/
def clamped (config : WindowConfig) : WindowConfig where
  dictionarySize := max minDictionarySize (min config.dictionarySize maxDictionarySize)
  maxMessageSize := max minMessageSize (min config.maxMessageSize WindowedLz4.maxMessageSize)

/-- The configuration with these sizes, clamped. -/
def ofSizes (dictionarySize maxMessageSize : Nat) : WindowConfig :=
  clamped { dictionarySize, maxMessageSize }

/-- Room for a full dictionary and one message of the greatest length, as far as
a size can be written. -/
def ringCapacity (config : WindowConfig) : Nat :=
  min (config.dictionarySize + config.maxMessageSize) maxWord

/-- Clamping a second time changes nothing. -/
theorem clamped_clamped (config : WindowConfig) : config.clamped.clamped = config.clamped := by
  simp only [clamped, minDictionarySize, maxDictionarySize, minMessageSize,
    WindowedLz4.maxMessageSize, maxInputSize, mk.injEq]
  omega

/-- A clamped dictionary is never empty. -/
theorem dictionarySize_clamped_pos (config : WindowConfig) : 0 < config.clamped.dictionarySize := by
  simp only [clamped, minDictionarySize]
  omega

/-- The ring of a clamped configuration holds exactly a dictionary and a message. -/
theorem ringCapacity_clamped (config : WindowConfig) :
    config.clamped.ringCapacity =
      config.clamped.dictionarySize + config.clamped.maxMessageSize := by
  simp only [ringCapacity, clamped, minDictionarySize, maxDictionarySize, minMessageSize,
    WindowedLz4.maxMessageSize, maxInputSize, maxWord, UInt64.size]
  omega

end WindowConfig

end WindowedLz4
