import Nkit.Base.OrderedMap
import Nkit.Base.Renumber
import Nkit.Base.InvertedIndex
import Nkit.Base.RowIndex
import Nkit.Base.FlatRows
import Nkit.Base.Runs
import Nkit.Base.Traverse
import Nkit.Base.GroupFold
import Nkit.Base.RefGraph
import Nkit.Base.Region
import Nkit.Base.Spans
import Nkit.Base.Collect
import Nkit.Base.BitFields
import Nkit.Base.Calendar
import Nkit.Base.Continuation
import Nkit.Base.Scan
import Nkit.Base.Forest
import Nkit.Base.FirstOccurrences
import Nkit.Base.Wholes
import Nkit.Base.AnsweredLoop
import Nkit.Base.Chunks
import Nkit.Base.BitSubsets
import Nkit.Base.Strip
import Nkit.Base.Delimited
import Nkit.Base.Ledger
import Nkit.Base.Overlay
import Nkit.Tools
import Nkit.Tools.Scanning
import Nkit.Tools.Trimming
import Nkit.Tools.Splitting
import Nkit.Tools.Combinations
import Nkit.Utf8
import Nkit.Encoding.Utf8Codec
import Nkit.Encoding.Transcoder
import Nkit.Encoding.EncodedText
import Nkit.Dynamic.Data
import Nkit.Dynamic.Memory
import Nkit.Dynamic.Assignment
import Nkit.Dynamic.Objects
import Nkit.Dynamic.Reads
import Nkit.Dynamic.Store
import Nkit.Dynamic.Update
import Nkit.Dynamic.Layers
import Nkit.Dynamic.Merge
import Nkit.Dynamic.Numbers
import Nkit.Dynamic.Ordering
import Nkit.Dynamic.OrderLaws
import Nkit.Dynamic.Clone
import Nkit.Dynamic.Separation
import Nkit.Dynamic.Integers
import Nkit.Dynamic.Operators
import Nkit.Dynamic.OperandReads
import Nkit.Dynamic.Repetition
import Nkit.Dynamic.StringReplace
import Nkit.Dynamic.DateTime
import Nkit.Dynamic.Shifts
import Nkit.Dynamic.Scanf
import Nkit.Dynamic.DateTimeText
import Nkit.Table.Compare
import Nkit.Table.KeyOrder
import Nkit.Table.SharedTable
import Nkit.Table.ColumnNames
import Nkit.Table.Rows
import Nkit.Table.Calls
import Nkit.Table.Indexing
import Nkit.Table.IndexRuns
import Nkit.Table.Rejection
import Nkit.Table.Traversal
import Nkit.Table.RefCounts
import Nkit.Table.World
import Nkit.Table.KeyStrings
import Nkit.Table.Group
import Nkit.Table.Grouping
import Nkit.Table.GroupStream
import Nkit.Table.Comparators
import Nkit.Table.KeyLimit
import Nkit.Table.IndexAndGroup
import Nkit.Table.Lookups
import Nkit.Table.IndexHandles
import Nkit.Table.Extremes
import Nkit.Base.RollUp
import Nkit.Table.RollUp
import Nkit.Table.ShortRows
import Nkit.Xml.AnyXml
import Nkit.Xml.Reading
import Nkit.Xml.StackMachine
import Nkit.Xml.Recycling
import Nkit.Json.Sax
import Nkit.Json.Construction
import Nkit.Json.Decimal
import Nkit.Json.Writer
import Nkit.Json.Grammar
import Nkit.Json.NumberLiterals
import Nkit.Json.RoundTrip
import Nkit.Json.Escapes
import Nkit.Json.Keys
import Nkit.Path.DynamicPath
import Nkit.Path.Order
import Nkit.Path.Parsing
import Nkit.Path.WellFormed
import Nkit.Path.Printing
import Nkit.Getter.DynamicGetter
import Nkit.Getter.Outputs
import Nkit.Getter.ObjectMaps
import Nkit.Getter.Options
import Nkit.Getter.OptionErrors
import Nkit.Xml.Var2Xml
import Nkit.Xml.Grammar
import Nkit.Xml.Parsing
import Nkit.Xml.Written
import Nkit.Xml.Formatting
import Nkit.Xml.RoundTrip
import Nkit.Xml.Cdata
import Nkit.Xml.Escaping
import Nkit.Xml.Converter
import Nkit.Xml.TextValues
import Nkit.Xml.Elements
import Nkit.Xml.MemberOrder
import Nkit.Xml.Priority
import Nkit.Xml.LostText
import Nkit.Xml.TextPieces
import Nkit.Mapping.Targets
import Nkit.Mapping.StructXml
import Nkit.Mapping.ElementIds
import Nkit.Mapping.Compiled
import Nkit.Mapping.Loading
import Nkit.Mapping.NamedRun
import Nkit.Mapping.Independence
import Nkit.Mapping.Wiring
import Nkit.Mapping.Verdicts
import Nkit.Mapping.FailedAdds
import Nkit.Mapping.AttributePaths
import Nkit.Mapping.TextChunks
import Nkit.Mapping.Moves
import Nkit.Mapping.MoveOrder
import Nkit.Mapping.Clearing
import Nkit.Mapping.TwoRuns
import Nkit.Mapping.ListItems
import Nkit.Mapping.Meaning
import Nkit.Mapping.ItemCalls
import Nkit.Mapping.Tally
import Nkit.Mapping.Tallied
import Nkit.Mapping.Leaving
import Nkit.Mapping.SpecCompiled
import Nkit.Mapping.Evaluation
import Nkit.Mapping.Preservation
import Nkit.Mapping.WrittenElements
import Nkit.Mapping.Shapes
import Nkit.Mapping.ShapedValues
import Nkit.Mapping.Exports
import Nkit.Logger.LocalTime
import Nkit.Logger.RotateLogger
import Nkit.Logger.ArchiveNames
import Nkit.Logger.LogFiles
import Nkit.Base.Interleaving
import Nkit.Logger.LoggerAccessor
import Nkit.Logger.RSysLogger
