import ReadOnlyKeys.Lib.Outcome
import ReadOnlyKeys.Lib.Bytes
import ReadOnlyKeys.Lib.Cursor
import ReadOnlyKeys.Lib.PrefixCode
import ReadOnlyKeys.Lib.KeyTree
import ReadOnlyKeys.Lib.Paths
import ReadOnlyKeys.Lib.LexicalPath
import ReadOnlyKeys.Lib.Protobuf
import ReadOnlyKeys.Lib.Radix
import ReadOnlyKeys.Lib.Utf8
import ReadOnlyKeys.Lib.Base64
import ReadOnlyKeys.Lib.Hex
import ReadOnlyKeys.Lib.Runs
import ReadOnlyKeys.Lib.Requests
import ReadOnlyKeys.Lib.Answers
import ReadOnlyKeys.Lib.Json
import ReadOnlyKeys.Error
import ReadOnlyKeys.Scope
import ReadOnlyKeys.ScopeTree
import ReadOnlyKeys.ScopeGrammar
import ReadOnlyKeys.Crypto
import ReadOnlyKeys.Transparent
import ReadOnlyKeys.Keys
import ReadOnlyKeys.Hierarchy
import ReadOnlyKeys.ScopeValues
import ReadOnlyKeys.Envelope
import ReadOnlyKeys.EnvelopeCodec
import ReadOnlyKeys.SignableBytes
import ReadOnlyKeys.Encrypt
import ReadOnlyKeys.Access
import ReadOnlyKeys.Rekey
import ReadOnlyKeys.Identity
import ReadOnlyKeys.Sectioned
import ReadOnlyKeys.ParserSafety
import ReadOnlyKeys.Proto
import ReadOnlyKeys.Encoding
import ReadOnlyKeys.Reencode
import ReadOnlyKeys.SectionedCodec
import ReadOnlyKeys.Prost
import ReadOnlyKeys.SectionedProto
import ReadOnlyKeys.SectionNames
import ReadOnlyKeys.Hybrid
import ReadOnlyKeys.AlgorithmLabel
import ReadOnlyKeys.DecryptSections
import ReadOnlyKeys.OutputPaths
import ReadOnlyKeys.Truncation
import ReadOnlyKeys.Keyring
import ReadOnlyKeys.Vault
import ReadOnlyKeys.Storage
import ReadOnlyKeys.Memory
import ReadOnlyKeys.Listing
import ReadOnlyKeys.Preview
import ReadOnlyKeys.Fileverse
import ReadOnlyKeys.FileverseRuns
import ReadOnlyKeys.Backends
import ReadOnlyKeys.FileverseMap
import ReadOnlyKeys.StoreRuns
import ReadOnlyKeys.Policy
import ReadOnlyKeys.PolicyCodec
import ReadOnlyKeys.Pipeline
import ReadOnlyKeys.Session
import ReadOnlyKeys.Resources
import ReadOnlyKeys.Sync
import ReadOnlyKeys.Service
import ReadOnlyKeys.Setup
import ReadOnlyKeys.SessionScope
import ReadOnlyKeys.Tools
import ReadOnlyKeys.ToolRuns
import ReadOnlyKeys.Restart
import ReadOnlyKeys.FileNames
import ReadOnlyKeys.FileCommands
import ReadOnlyKeys.SectionCommands
import ReadOnlyKeys.KeyringRuns
import ReadOnlyKeys.KeyCommands
import ReadOnlyKeys.InspectCommands
import ReadOnlyKeys.SignCommands
import ReadOnlyKeys.MemoryCommands
import ReadOnlyKeys.VaultRuns
import ReadOnlyKeys.SectionRuns
