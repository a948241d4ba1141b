import Tablescope.Filter.Operator
import Tablescope.Text.Utf8

/-!
# Errors

Every failure is a cause with what is needed to tell it. `InputError` is about what a caller passes
in, `SchemaError` about the description of a table, and `Error` adds the failures of a store and
the limit on how often a store is asked for one page. The wording is in the `message` functions and
nowhere else.
-/

namespace Tablescope

/-- Why a text is no cursor, or a map of attributes none. -/
inductive CursorFault where
  /-- The name occurs a second time. -/
  | duplicate (name : String)
  | notANumber (name text : String)
  | notBase64 (name : String)
  | notAScalar (name : String)
  /-- The percent-coded bytes are no text. -/
  | notUtf8 (fault : Text.Utf8.Fault)
  /-- It is not the JSON of a cursor. -/
  | malformed
  deriving DecidableEq, Repr

/-- How a cursor fault reads. -/
def CursorFault.message : CursorFault → String
  | duplicate name => s!"duplicate attribute `{name}`"
  | notANumber name text => s!"`{text}` for attribute `{name}` is not a number"
  | notBase64 name => s!"attribute `{name}` is not valid base64"
  | notAScalar name => s!"attribute `{name}` is not a scalar"
  | notUtf8 fault => fault.message
  | malformed => "malformed"

/-- What is wrong with what a caller passes in. -/
inductive InputError where
  | invalidNumber (name value : String)
  | invalidBinary (name : String)
  | betweenArity (name : String) (found : Nat)
  | unknownOperator (text : String)
  | unknownScalarType (text : String)
  | unknownAccessMode (text : String)
  | keyArity (expected found : Nat)
  | missingKeyAttribute (name : String)
  | keyTypeMismatch (name : String) (expected : ScalarType)
  | illegalKeyCondition (name : String) (operator : Operator)
  | duplicateKeyCondition (name : String)
  | missingKeyCondition (name : String)
  | invalidToken (component : String)
  | invalidCursor (fault : CursorFault)
  deriving DecidableEq, Repr

/-- How an input error reads. -/
def InputError.message : InputError → String
  | invalidNumber name value =>
    s!"value `{value}` for attribute `{name}` is not a valid number"
  | invalidBinary name => s!"value for attribute `{name}` is not valid base64"
  | betweenArity name found =>
    s!"between on `{name}` requires exactly two comma-separated values, got {found}"
  | unknownOperator text => s!"unknown filter operator `{text}`"
  | unknownScalarType text => s!"unknown scalar type `{text}`"
  | unknownAccessMode text => s!"unknown access mode `{text}`"
  | keyArity expected found =>
    s!"key token has {found} components but the key schema expects {expected}"
  | missingKeyAttribute name => s!"item is missing key attribute `{name}`"
  | keyTypeMismatch name expected =>
    s!"key attribute `{name}` must be of type {expected.descriptor}"
  | illegalKeyCondition name operator =>
    s!"operator `{operator.symbol}` is not allowed on hash key attribute `{name}`"
  | duplicateKeyCondition name =>
    s!"more than one key condition targets key attribute `{name}`"
  | missingKeyCondition name =>
    s!"query requires an `=` condition on hash key attribute `{name}`"
  | invalidToken component =>
    s!"key token component `{component}` is not valid percent-encoded UTF-8"
  | invalidCursor fault => s!"invalid cursor: {fault.message}"

/-- The table or index that a schema error is about. -/
inductive SchemaContext where
  | table (name : String)
  | index (name : String)
  deriving DecidableEq, Repr

/-- How a context is named in a message. -/
def SchemaContext.message : SchemaContext → String
  | table name => s!"table `{name}`"
  | index name => s!"index `{name}`"

/-- What is wrong with the description of a table, or with what is looked for in it. -/
inductive SchemaError where
  | undefinedAttribute (name : String) (context : SchemaContext)
  | conflictingAttributeType (name : String) (declared used : ScalarType)
      (context : SchemaContext)
  | unsupportedAttributeType (name found : String)
  | missingHashKey (context : SchemaContext)
  | unknownIndex (table index : String)
  | missingTableName
  | tableNotFound (table : String)
  deriving DecidableEq, Repr

/-- How a schema error reads. -/
def SchemaError.message : SchemaError → String
  | undefinedAttribute name context =>
    s!"key attribute `{name}` of {context.message} is not declared in the attribute definitions"
  | conflictingAttributeType name declared used context =>
    s!"attribute `{name}` is declared as {declared.descriptor} but used as {used.descriptor} by {context.message}"
  | unsupportedAttributeType name found =>
    s!"attribute `{name}` has unsupported scalar type `{found}`"
  | missingHashKey context => s!"{context.message} has no hash key"
  | unknownIndex table index => s!"table `{table}` has no index named `{index}`"
  | missingTableName => "table description has no table name"
  | tableNotFound table => s!"table `{table}` was not found"

/-- Why a call failed. -/
inductive Error where
  | input (e : InputError)
  | schema (e : SchemaError)
  /-- The store could not answer; `source` is the reason it gives. -/
  | transport (operation source : String)
  /-- The store was asked as often as allowed and has not been exhausted. -/
  | roundTripLimit (roundTrips accumulated : Nat)
  deriving DecidableEq, Repr

/-- How an error reads. -/
def Error.message : Error → String
  | input e => e.message
  | schema e => e.message
  | transport operation _ => s!"{operation} request failed"
  | roundTripLimit roundTrips accumulated =>
    s!"page not filled after {roundTrips} physical round trips ({accumulated} matching items accumulated)"

end Tablescope
