import Tablescope.Attribute.Coercion
import Tablescope.Attribute.Scalar
import Tablescope.Attribute.Value
import Tablescope.Attribute.Wire
import Tablescope.Browser
import Tablescope.Cursor.Basic
import Tablescope.Cursor.Wire
import Tablescope.Error
import Tablescope.Filter.Criterion
import Tablescope.Filter.Expression
import Tablescope.Filter.Operator
import Tablescope.Filter.Wire
import Tablescope.Json.Basic
import Tablescope.Json.Reader
import Tablescope.Json.Record
import Tablescope.Json.Token
import Tablescope.Json.Verbatim
import Tablescope.Key.Primary
import Tablescope.Key.Token
import Tablescope.NameMap
import Tablescope.Numeral
import Tablescope.Numeral.Double
import Tablescope.Paging.Page
import Tablescope.Paging.Settings
import Tablescope.Schema.Description
import Tablescope.Schema.Key
import Tablescope.Schema.Table
import Tablescope.Service.Client
import Tablescope.Service.Endpoint
import Tablescope.Service.Reply
import Tablescope.Service.Shape
import Tablescope.Store.Action
import Tablescope.Store.Basic
import Tablescope.Store.Chain
import Tablescope.Store.Logged
import Tablescope.Store.Memory
import Tablescope.Store.Scripted
import Tablescope.Text.Base64
import Tablescope.Text.Blank
import Tablescope.Text.Hex
import Tablescope.Text.Percent
import Tablescope.Text.Utf8
import Tablescope.Proofs.Text.Base64
import Tablescope.Proofs.Text.Percent
import Tablescope.Proofs.Text.Order
import Tablescope.Proofs.Attribute.Scalar
import Tablescope.Proofs.Except
import Tablescope.Proofs.NameMap
import Tablescope.Proofs.Key.Primary
import Tablescope.Proofs.Key.Token
import Tablescope.Proofs.Key.Conformance
import Tablescope.Proofs.Schema.Table
import Tablescope.Proofs.Schema.Declaration
import Tablescope.Proofs.Schema.Elements
import Tablescope.Proofs.Schema.Description
import Tablescope.Proofs.Schema.Continuation
import Tablescope.Proofs.Store.Keyed
import Tablescope.Proofs.Cursor.Names
import Tablescope.Proofs.Store.Action
import Tablescope.Proofs.Store.Reading
import Tablescope.Proofs.Paging.Page
import Tablescope.Proofs.Browser.Browse
import Tablescope.Proofs.Json.Token
import Tablescope.Proofs.Json.Reader
import Tablescope.Proofs.Json.Grammar
import Tablescope.Proofs.Cursor.Format
import Tablescope.Proofs.Cursor.Wire
import Tablescope.Proofs.Cursor.RoundTrip
import Tablescope.Proofs.Browser.Traversal
import Tablescope.Proofs.Filter.Criterion
import Tablescope.Proofs.Filter.Phrase
import Tablescope.Proofs.Filter.Placeholder
import Tablescope.Proofs.Filter.Compilation
import Tablescope.Proofs.Filter.Meaning
import Tablescope.Proofs.Store.Lookup
import Tablescope.Proofs.Browser.Editing
import Tablescope.Proofs.Browser.Interleaving
import Tablescope.Proofs.Filter.KeyCondition
import Tablescope.Proofs.Store.Logged
import Tablescope.Proofs.Store.Chain
import Tablescope.Proofs.Browser.Requests
import Tablescope.Proofs.Paging.Outcome
import Tablescope.Proofs.Paging.Readings
import Tablescope.Proofs.Paging.Ceiling
import Tablescope.Proofs.Paging.Surplus
import Tablescope.Proofs.Browser.Alignment
import Tablescope.Proofs.Browser.Columns
import Tablescope.Proofs.Browser.Listing
import Tablescope.Proofs.Filter.Offence
import Tablescope.Proofs.Filter.Split
import Tablescope.Proofs.Filter.Occurrence
import Tablescope.Proofs.Service.Exchange
import Tablescope.Proofs.Service.Request
import Tablescope.Proofs.Cursor.Adoption
import Tablescope.Proofs.Service.Continuation
import Tablescope.Proofs.Service.Placeholders
import Tablescope.Proofs.Text.Run
import Tablescope.Proofs.Text.Blank
import Tablescope.Proofs.Numeral.Grammar
import Tablescope.Proofs.Numeral.Range
import Tablescope.Proofs.Numeral.Validation
import Tablescope.Proofs.Attribute.Coercion
import Tablescope.Proofs.Json.Words
import Tablescope.Proofs.Json.Integer
import Tablescope.Proofs.Paging.Settings
import Tablescope.Proofs.Browser.Settings
