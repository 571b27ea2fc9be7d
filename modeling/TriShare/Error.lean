import TriShare.Text.Hex
import TriShare.Text.Latin1
import TriShare.Text.Quoted
/-!
What can go wrong while a table is shared, profiled or padded, and how it is said.
-/

namespace TriShare

/-- The kinds of JSON values. -/
inductive ValueKind
  | null
  | boolean
  | number
  | string
  | array
  | record
  deriving DecidableEq, Repr

def ValueKind.name : ValueKind → String
  | .null => "null"
  | .boolean => "boolean"
  | .number => "number"
  | .string => "string"
  | .array => "array"
  | .record => "record"

/-- Why a value does not have the shape that its column requires. -/
inductive Mismatch
  | notDecimal (text : String)
  | inNumeric (kind : ValueKind)
  | inPassthrough (kind : ValueKind)
  /-- A per-party record stands in a column that is not byte-shared. -/
  | nestedRecord
  deriving DecidableEq, Repr

def Mismatch.message : Mismatch → String
  | .notDecimal text => s!"'{text}' is not a decimal number"
  | .inNumeric kind => s!"numeric column holds a {kind.name}"
  | .inPassthrough kind => s!"passthrough column holds a {kind.name}"
  | .nestedRecord => "nested record in a numeric or passthrough column"

def Hex.Fault.message : Hex.Fault → String
  | .oddLength => "Odd number of digits"
  | .badDigit byte position =>
    s!"Invalid character {Text.quoted (Latin1.charOf byte)} at position {position}"

/-- Why a text is no share of a party. -/
inductive ShareFault
  | noSpace
  | unequalHalves (t s : Nat)
  | notHex
  | oddDigits (digits : Nat)
  | numericDigits (found : Nat)
  | undecodable (text : String) (fault : Hex.Fault)
  deriving DecidableEq, Repr

/-- How many digits each half of a numeric share has. -/
def numericShareDigits : Nat := 16

def ShareFault.message : ShareFault → String
  | .noSpace => "expected two space separated hex values"
  | .unequalHalves t s => s!"halves of unequal length {t} and {s}"
  | .notHex => "halves must be hex encoded"
  | .oddDigits digits => s!"hex value of odd length {digits}"
  | .numericDigits found =>
    s!"numeric share halves need {numericShareDigits} hex digits, found {found}"
  | .undecodable text fault => s!"'{text}' is not hex: {fault.message}"

/-- What ends the program on the spot, so that no caller is handed it as an error. -/
inductive Panic
  /-- A list would take more bytes than can be allocated. -/
  | capacityOverflow
  deriving DecidableEq, Repr

def Panic.message : Panic → String
  | .capacityOverflow => "capacity overflow"

/-- Why an operation has no result: an error for its caller, or a panic. -/
inductive Halt (ε : Type)
  | error (e : ε)
  | panic (cause : Panic)
  deriving DecidableEq, Repr

/-- An error that is told in other words. -/
def Halt.map {ε ε' : Type} (f : ε → ε') : Halt ε → Halt ε'
  | .error e => .error (f e)
  | .panic cause => .panic cause

/-- An error that concerns a single value of a single record. -/
inductive FieldError
  | overflow (text : String)
  | mismatch (reason : Mismatch)
  | unencodable (found : Latin1.Unencodable)
  | unsupported (kind : ValueKind)
  | invalidShare (fault : ShareFault)
  | tooWide (bytes blocks : Nat)
  deriving DecidableEq, Repr

def FieldError.message : FieldError → String
  | .overflow text => s!"'{text}' does not fit into the 64-bit field after fixed-point encoding"
  | .mismatch reason => s!"schema mismatch: {reason.message}"
  | .unencodable found =>
    s!"character {Text.quoted found.char} at position {found.position} is outside of the "
      ++ "single-byte range"
  | .unsupported kind => s!"no encoding strategy for a value of type {kind.name}"
  | .invalidShare fault => s!"invalid party share: {fault.message}"
  | .tooWide bytes blocks => s!"value of {bytes} bytes does not fit into {blocks} blocks"

/-- Why a configuration is not usable. -/
inductive ConfigFault
  | notJson
  | fieldBits (found : Nat)
  | precision (bits width : Nat)
  | overlap (column : String)
  deriving DecidableEq, Repr

/-- The only width of the field in which numbers are shared. -/
def fieldWidth : Nat := 64

def ConfigFault.message : ConfigFault → String
  | .notJson => "json"
  | .fieldBits found => s!"field width must be {fieldWidth} bits, found {found}"
  | .precision bits width =>
    s!"{bits} fractional bits leave no integer bits in a {width}-bit field"
  | .overlap column => s!"column '{column}' is both numeric and passthrough"

/-- The error of a column, before it is known to which record of the table it belongs. -/
structure Rejection where
  path : String
  cause : FieldError
  deriving DecidableEq, Repr

/-- An error of an operation on records and tables. -/
inductive Error
  | field (record : Nat) (path : String) (cause : FieldError)
  | emptyTable
  | otherSchema (expected actual : String)
  | noWidth (path : String)
  | invalidConfig (fault : ConfigFault)
  deriving DecidableEq, Repr

def Error.message : Error → String
  | .field record path cause => s!"record {record}, column '{path}': {cause.message}"
  | .emptyTable => "cannot profile column widths of an empty table"
  | .otherSchema expected actual =>
    s!"column widths were computed for schema {expected}, but the configuration is {actual}"
  | .noWidth path => s!"no column width known for '{path}'"
  | .invalidConfig fault => s!"invalid configuration: {fault.message}"

/-- The message and, for an error of a field, that of its cause. -/
def Error.lines : Error → List String
  | .field record path cause => [(Error.field record path cause).message, cause.message]
  | e => [e.message]

/-- Says to which record a rejected column belongs. -/
def Rejection.inRecord (record : Nat) (r : Rejection) : Error := .field record r.path r.cause

end TriShare
