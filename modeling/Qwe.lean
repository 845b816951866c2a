import Qwe.Lib.Masking
import Qwe.Lib.Holes
import Qwe.Lib.CutTexts
import Qwe.Lib.Tables
import Qwe.Template.Expr
import Qwe.Template.Document
import Qwe.Template.Check
import Qwe.Template.Resolve
import Qwe.Template.Strings
import Qwe.Template.Argv
import Qwe.Template.Accepted
import Qwe.Template.Outputs
import Qwe.Template.Secrecy
import Qwe.Template.Sound
import Qwe.Template.Stored
import Qwe.Template.Masked
import Qwe.Template.TwoRuns
import Qwe.Redact.Stream
import Qwe.Redact.Laws
import Qwe.Kernel.Lifecycle
import Qwe.Kernel.Phase
import Qwe.Kernel.Job
import Qwe.Kernel.Sched
import Qwe.Lib.Machine
import Qwe.Lib.Inevitable
import Qwe.Lib.History
import Qwe.Kernel.Loop
import Qwe.Kernel.Fits
import Qwe.Kernel.Calls
import Qwe.Kernel.Sound
import Qwe.Kernel.NoAbort
import Qwe.Kernel.View
import Qwe.Kernel.Teardown
import Qwe.Kernel.Records
import Qwe.Kernel.Verdicts
import Qwe.Kernel.Cancel
import Qwe.Kernel.Unstarted
import Qwe.Kernel.Dispatch
import Qwe.Lib.Counting
import Qwe.Kernel.Limits
import Qwe.Lib.Graph
import Qwe.Kernel.Progress
import Qwe.Kernel.Join
import Qwe.Kernel.ExitCode
import Qwe.Lib.Cbor
import Qwe.Lua.Value
import Qwe.Lua.Cbor
import Qwe.Lua.RoundTrip
import Qwe.Yaml.Transcode
import Qwe.Yaml.Meaning
import Qwe.Yaml.Preserves
import Qwe.Kernel.Message
import Qwe.Kernel.Classify
import Qwe.Kernel.Reasons
import Qwe.Kernel.Payload
import Qwe.Kernel.Plugin
import Qwe.Kernel.SentMessage
import Qwe.Kernel.Honest
import Qwe.Template.Scopes
import Qwe.Redact.Calls
import Qwe.Lib.Circular
import Qwe.Kernel.Ring
import Qwe.Kernel.JobLog
import Qwe.Lib.Search
import Qwe.Yaml.Positions
import Qwe.Yaml.Pointers
import Qwe.Yaml.Lookup
import Qwe.Yaml.Repeats
import Qwe.Yaml.Duplicates
import Qwe.Lib.Shell
import Qwe.Kernel.Preamble
import Qwe.Schema.Keywords
import Qwe.Schema.Inventory
import Qwe.Schema.Raises
import Qwe.Schema.Reports
import Qwe.Schema.Workflow
import Qwe.Schema.Envelopes
import Qwe.Schema.Strays
import Qwe.Schema.Passed
import Qwe.Lib.Chunk
import Qwe.Lib.ChunkRules
import Qwe.Plugin.Shape
import Qwe.Plugin.Load
import Qwe.Plugin.Exports
import Qwe.Kernel.Dag
import Qwe.Kernel.Select
import Qwe.Lib.Pattern
import Qwe.Lib.Lines
import Qwe.Files.Backend
import Qwe.Files.Line
import Qwe.Files.LineRuns
import Qwe.Files.Ensure
import Qwe.Lib.HolePattern
import Qwe.Lib.Words
import Qwe.Lib.Numerals
import Qwe.Lib.Separators
import Qwe.Lib.Grep
import Qwe.Template.OutputFile
import Qwe.Template.SinglePass
import Qwe.Template.Remote
import Qwe.Kernel.Token
import Qwe.Lua.Paths
import Qwe.Schema.Pointers
import Qwe.Lib.Regular
import Qwe.Yaml.Scalars
import Qwe.Lib.Fifo
import Qwe.Kernel.RingRuns
import Qwe.Kernel.Sink
import Qwe.Kernel.ResultPipe
import Qwe.Lib.Markdown
import Qwe.Kernel.LogTail
import Qwe.Kernel.Report
import Qwe.Kernel.Summary
import Qwe.Lib.Json
import Qwe.Kernel.ResultJson
import Qwe.Lib.Writer
import Qwe.Lua.Encoder
import Qwe.Lua.Stack
import Qwe.Lua.Encode
import Qwe.Lua.Parser
import Qwe.Lua.Decode
import Qwe.Lua.Balance
import Qwe.Lua.Encodes
import Qwe.Lua.Canonical
import Qwe.Lua.Retries
import Qwe.Lib.Regroup
import Qwe.Secrets.Base64
import Qwe.Secrets.Envelope
import Qwe.Secrets.KeyFile
import Qwe.Secrets.Encrypt
import Qwe.Lib.Pipe
import Qwe.Kernel.Exec
import Qwe.Kernel.ExecRuns
import Qwe.Lua.Heads
import Qwe.Lua.Walk
import Qwe.Lua.Decodes
import Qwe.Lua.ByteTrip
import Qwe.Yaml.Refusals
import Qwe.Lua.Extends
import Qwe.Kernel.Child
import Qwe.Kernel.Delivered
import Qwe.Kernel.Heard
import Qwe.Kernel.Lifetime
