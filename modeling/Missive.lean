import Missive.Compile
import Missive.Config
import Missive.Error
import Missive.Example
import Missive.Json.Basic
import Missive.Json.Number
import Missive.Json.Parse
import Missive.Json.Print
import Missive.Json.Reader
import Missive.Json.Writer
import Missive.Message.Access
import Missive.Message.Basic
import Missive.Message.Binary
import Missive.Message.Catalog
import Missive.Message.Json
import Missive.Message.Primitive
import Missive.Message.Property
import Missive.Message.Xml
import Missive.Model.Basic
import Missive.Model.Error
import Missive.Model.Identify
import Missive.Model.Lineage
import Missive.Model.Plan
import Missive.Model.Resolve
import Missive.Number.Double
import Missive.Number.Format
import Missive.Number.Reading
import Missive.Number.Shortest
import Missive.Proofs.Closing
import Missive.Proofs.Except
import Missive.Proofs.Json.Number
import Missive.Proofs.Json.Reader
import Missive.Proofs.Json.Repeated
import Missive.Proofs.Json.Stream
import Missive.Proofs.Message.Amplification
import Missive.Proofs.Message.BinaryRoundTrip
import Missive.Proofs.Message.Catalog
import Missive.Proofs.Message.Clock
import Missive.Proofs.Message.Constants
import Missive.Proofs.Message.Dispatch
import Missive.Proofs.Message.Fits
import Missive.Proofs.Message.Forward
import Missive.Proofs.Message.Framing
import Missive.Proofs.Message.Incremental
import Missive.Proofs.Message.JsonProperties
import Missive.Proofs.Message.JsonRoundTrip
import Missive.Proofs.Message.JsonValue
import Missive.Proofs.Message.LastValue
import Missive.Proofs.Message.MapEntries
import Missive.Proofs.Message.Progress
import Missive.Proofs.Message.Property
import Missive.Proofs.Message.RepeatedNames
import Missive.Proofs.Message.Slots
import Missive.Proofs.Message.Tolerance
import Missive.Proofs.Message.Tree
import Missive.Proofs.Message.Writing
import Missive.Proofs.Message.XmlNames
import Missive.Proofs.Message.XmlTolerance
import Missive.Proofs.Model.Accepted
import Missive.Proofs.Model.Descent
import Missive.Proofs.Model.Fields
import Missive.Proofs.Model.Gaps
import Missive.Proofs.Model.Growth
import Missive.Proofs.Model.Identifiers
import Missive.Proofs.Model.Lineage
import Missive.Proofs.Model.Numbering
import Missive.Proofs.Model.Registration
import Missive.Proofs.Model.Resolution
import Missive.Proofs.Model.Stability
import Missive.Proofs.Model.Units
import Missive.Proofs.Model.Variants
import Missive.Proofs.Model.WellFormed
import Missive.Proofs.Number.Format
import Missive.Proofs.Number.Value
import Missive.Proofs.Reading
import Missive.Proofs.Schema.Document
import Missive.Proofs.Source.Accessors
import Missive.Proofs.Source.Balance
import Missive.Proofs.Source.Block
import Missive.Proofs.Source.Clashes
import Missive.Proofs.Source.Definitions
import Missive.Proofs.Source.Distinct
import Missive.Proofs.Source.Fresh
import Missive.Proofs.Source.Generation
import Missive.Proofs.Source.Identifier
import Missive.Proofs.Source.Indentation
import Missive.Proofs.Source.Instance
import Missive.Proofs.Source.Items
import Missive.Proofs.Source.Legal
import Missive.Proofs.Source.Members
import Missive.Proofs.Source.Reflection
import Missive.Proofs.Source.Supported
import Missive.Proofs.Source.Upcast
import Missive.Proofs.Source.Visitor
import Missive.Proofs.Text.Base64
import Missive.Proofs.Text.Words
import Missive.Proofs.Wire.Clock
import Missive.Proofs.Wire.Incremental
import Missive.Proofs.Wire.Machine
import Missive.Proofs.Wire.Progress
import Missive.Proofs.Wire.Reader
import Missive.Proofs.Wire.Recognition
import Missive.Proofs.Wire.Safety
import Missive.Proofs.Wire.Session
import Missive.Proofs.Wire.Spelling
import Missive.Proofs.Wire.Tree
import Missive.Proofs.Wire.Varint
import Missive.Proofs.Wire.Walk
import Missive.Reading
import Missive.Scalar
import Missive.Schema.Basic
import Missive.Schema.Build
import Missive.Schema.Document
import Missive.Source.Accessor
import Missive.Source.BinaryCodec
import Missive.Source.Enumeration
import Missive.Source.Error
import Missive.Source.Expression
import Missive.Source.Identifier
import Missive.Source.JsonCodec
import Missive.Source.Layout
import Missive.Source.Message
import Missive.Source.Module
import Missive.Source.Plugin
import Missive.Source.Properties
import Missive.Source.View
import Missive.Source.Visitor
import Missive.Source.XmlCodec
import Missive.Text.Alphanumeric
import Missive.Text.Base64
import Missive.Text.Blank
import Missive.Text.Case
import Missive.Text.Hex
import Missive.Text.Lines
import Missive.Text.Printable
import Missive.Text.Quoted
import Missive.Text.Runs
import Missive.Text.Scan
import Missive.Text.Utf8
import Missive.Text.Words
import Missive.Toml.Basic
import Missive.Toml.Number
import Missive.Toml.Parse
import Missive.Wire.Encoding
import Missive.Wire.Kind
import Missive.Wire.Reader
import Missive.Wire.Writer
import Missive.Xml.Basic
import Missive.Xml.Name
import Missive.Xml.Parse
import Missive.Xml.Value
