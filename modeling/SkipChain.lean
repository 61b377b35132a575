import SkipChain.Ascending.Map
import SkipChain.Ascending.Set
import SkipChain.Bytes
import SkipChain.Bytes.Hex
import SkipChain.Bytes.Utf8
import SkipChain.Cache
import SkipChain.Digest
import SkipChain.ErrorKind
import SkipChain.Hash.Algorithm
import SkipChain.Hash.Blake3
import SkipChain.Hash.Crc32
import SkipChain.Hash.Sha256
import SkipChain.Instant
import SkipChain.Journal.Basic
import SkipChain.Journal.Disclosure
import SkipChain.Journal.Error
import SkipChain.Journal.Operation
import SkipChain.Json.Basic
import SkipChain.Json.Decimal
import SkipChain.Json.Printer
import SkipChain.Json.Reader
import SkipChain.Ledger.Basic
import SkipChain.Ledger.Error
import SkipChain.Ledger.Link
import SkipChain.Ledger.Store
import SkipChain.Morsel.Basic
import SkipChain.Morsel.Decode
import SkipChain.Morsel.Encode
import SkipChain.Morsel.Error
import SkipChain.Morsel.Info
import SkipChain.Morsel.Limits
import SkipChain.Morsel.RowParsing
import SkipChain.Morsel.Section
import SkipChain.Morsel.Timechain
import SkipChain.Path.Basic
import SkipChain.Path.Build
import SkipChain.Path.Verify
import SkipChain.Report.Authentication
import SkipChain.Report.Basic
import SkipChain.Report.Verify
import SkipChain.Settings
import SkipChain.Settings.Document
import SkipChain.Skip
import SkipChain.Skip.Levels
import SkipChain.Skip.Links
import SkipChain.Table.Cell
import SkipChain.Table.CellJson
import SkipChain.Table.Column
import SkipChain.Table.Row
import SkipChain.Table.SaltScheme
import SkipChain.Table.TableSalt
import SkipChain.Text.Blank
import SkipChain.Text.Quoted
import SkipChain.Text.Split
import SkipChain.Text.Unprintable
import SkipChain.Toml.Basic
import SkipChain.Toml.Reader
import SkipChain.ValueError
import SkipChain.Wire.Decoder
import SkipChain.Wire.Encode
import SkipChain.Wire.Words
import SkipChain.Word
import SkipChain.Proofs.Outcome
import SkipChain.Proofs.Skip.Shortest
import SkipChain.Proofs.Skip.Links
import SkipChain.Proofs.Ledger.Reachable
import SkipChain.Proofs.Ledger.Commitment
import SkipChain.Proofs.Path.Descent
import SkipChain.Proofs.Path.Check
import SkipChain.Proofs.Path.Soundness
import SkipChain.Proofs.Path.Build
import SkipChain.Proofs.Path.Completeness
import SkipChain.Proofs.Path.Coherence
import SkipChain.Proofs.Path.Damage
import SkipChain.Proofs.Path.Minimal
import SkipChain.Proofs.Path.Size
import SkipChain.Proofs.Ascending
import SkipChain.Proofs.Report.Checks
import SkipChain.Proofs.Report.Authenticity
import SkipChain.Proofs.Report.Trust
import SkipChain.Proofs.Report.Agreement
import SkipChain.Proofs.Wire.Utf8
import SkipChain.Proofs.Wire.Reads
import SkipChain.Proofs.Wire.Yields
import SkipChain.Proofs.Wire.Varint
import SkipChain.Proofs.Table.Codec
import SkipChain.Proofs.Table.Accepted
import SkipChain.Proofs.Wire.Contained
import SkipChain.Proofs.Table.Contained
import SkipChain.Proofs.Morsel.Section
import SkipChain.Proofs.Morsel.Accepted
import SkipChain.Proofs.Morsel.Package
import SkipChain.Proofs.Morsel.RoundTrip
import SkipChain.Proofs.Morsel.Decoded
import SkipChain.Proofs.Morsel.Order
import SkipChain.Proofs.Morsel.Normal
import SkipChain.Proofs.Journal.Disclosure
import SkipChain.Proofs.Journal.Operation
import SkipChain.Proofs.Journal.Transparency
import SkipChain.Proofs.Report.Honest
import SkipChain.Proofs.Report.EndToEnd
import SkipChain.Ledger.Operation
import SkipChain.Proofs.Ledger.Inputs
import SkipChain.Proofs.Hash.Crc32
import SkipChain.Proofs.Morsel.Corruption
import SkipChain.Proofs.Morsel.Spelling
import SkipChain.Proofs.Morsel.Extension
import SkipChain.Proofs.Journal.Secrecy
import SkipChain.Proofs.Morsel.Truncation
import SkipChain.Proofs.Report.Confluence
import SkipChain.Report.Checked
import SkipChain.Report.Passes
import SkipChain.Proofs.Report.Derivation
import SkipChain.Proofs.Report.Arithmetic
import SkipChain.Journal.Consultation
import SkipChain.Proofs.Journal.Consultation
import SkipChain.Proofs.Morsel.Timechain
import SkipChain.Proofs.Morsel.RowParsing
import SkipChain.Report.Tally
import SkipChain.Proofs.Report.Accounting
import SkipChain.Morsel.Blocks
import SkipChain.Proofs.Morsel.Blocks
import SkipChain.Proofs.Table.Redaction
import SkipChain.Proofs.Table.Commitment
import SkipChain.Cache.Call
import SkipChain.Proofs.Cache.Recency
import SkipChain.Proofs.Cache.History
import SkipChain.Cache.Lazy
import SkipChain.Proofs.Cache.Lazy
import SkipChain.Proofs.Table.Delimited
import SkipChain.Proofs.Morsel.Limits
import SkipChain.Proofs.Journal.Salting
import SkipChain.Journal.Packing
import SkipChain.Proofs.Journal.Packing
