/-
The stored forms of configurations and ledgers.
-/
import WindowedLz4.Config
import WindowedLz4.Json.Record
import WindowedLz4.Ledger
namespace WindowedLz4

namespace WindowConfig

/-- The names of the two sizes. -/
def fieldNames : Vector String 2 := #v["dictionary_size", "max_message_size"]

/-- The configuration as JSON text. -/
def toJson (config : WindowConfig) : String :=
  .ofList (Json.writeRecord fieldNames #v[config.dictionarySize, config.maxMessageSize])

/-- The configuration that a JSON text holds, as it stands there. -/
def ofJson? (text : String) : Except Json.Fault WindowConfig := do
  let values ← Json.readRecord fieldNames text.toList
  return { dictionarySize := values[0], maxMessageSize := values[1] }

end WindowConfig

namespace Ledger

/-- The names of the three counts. -/
def fieldNames : Vector String 3 := #v["calls_processed", "total_src_bytes", "total_out_bytes"]

/-- The ledger as JSON text. -/
def toJson (l : Ledger) : String :=
  .ofList (Json.writeRecord fieldNames #v[l.calls, l.sourceBytes, l.outputBytes])

/-- The ledger that a JSON text holds. -/
def ofJson? (text : String) : Except Json.Fault Ledger := do
  let values ← Json.readRecord fieldNames text.toList
  return { calls := values[0], sourceBytes := values[1], outputBytes := values[2] }

end Ledger

end WindowedLz4
