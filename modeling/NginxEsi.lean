import NginxEsi.Lib.BranchTable
import NginxEsi.Lib.Run
import NginxEsi.Lib.LinkedList
import NginxEsi.Lib.Automaton
import NginxEsi.Machine
import NginxEsi.Parser
import NginxEsi.Events
import NginxEsi.Scanner
import NginxEsi.Stage
import NginxEsi.Refinement
import NginxEsi.Text
import NginxEsi.Scan
import NginxEsi.Frame
import NginxEsi.Chunking
import NginxEsi.Room
import NginxEsi.TagFree
import NginxEsi.Rejected
import NginxEsi.Names
import NginxEsi.Capacity
import NginxEsi.Overflow
import NginxEsi.FastPath
import NginxEsi.Turns
import NginxEsi.Genuine
import NginxEsi.Pointers
import NginxEsi.Attributes
import NginxEsi.Isolation
import NginxEsi.Segments
import NginxEsi.Values
import NginxEsi.Grammar
import NginxEsi.Compiled
import NginxEsi.Tag
import NginxEsi.AttributeHeap
import NginxEsi.Filter
import NginxEsi.Routing
import NginxEsi.Elements
import NginxEsi.TagList
import NginxEsi.Ignored
import NginxEsi.Unknown
import NginxEsi.Delivery
import NginxEsi.Nesting
import NginxEsi.Removed
import NginxEsi.Calls
import NginxEsi.Relay
import NginxEsi.Handover
import NginxEsi.Leaks
import NginxEsi.Forwarded
import NginxEsi.Pieces
import NginxEsi.Buffers
import NginxEsi.Provenance
import NginxEsi.Resume
import NginxEsi.Configuration
import NginxEsi.BareTags
import NginxEsi.Downstream
import NginxEsi.Documents
import NginxEsi.Tagless
import NginxEsi.Responses
import NginxEsi.Tokens
import NginxEsi.Keys
import NginxEsi.Quoted
