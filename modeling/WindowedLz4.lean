import WindowedLz4.Codec.Scripted
import WindowedLz4.Json.Stored
import WindowedLz4.OneShot
import WindowedLz4.Session.Compressor
import WindowedLz4.Session.Decompressor
import WindowedLz4.Proofs.OneShot
import WindowedLz4.Proofs.Session.Link
import WindowedLz4.Proofs.Session.Relay
import WindowedLz4.Proofs.Session.Wider
import WindowedLz4.Proofs.Window.Twins
import WindowedLz4.Proofs.Codec.Lz4
import WindowedLz4.Proofs.Session.Bound
import WindowedLz4.Proofs.Ledger
import WindowedLz4.Proofs.Session.Contained
import WindowedLz4.Proofs.Session.Accounts
import WindowedLz4.Proofs.Session.Cut
import WindowedLz4.Proofs.Codec.Confined
import WindowedLz4.Proofs.Session.Conforming
import WindowedLz4.Proofs.History
import WindowedLz4.Proofs.Window.Positions
import WindowedLz4.Proofs.Session.Atomic
import WindowedLz4.Proofs.Json.Stored
