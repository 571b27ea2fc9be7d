import TriShare.Bytes
import TriShare.Container.NameSet
import TriShare.Error
import TriShare.Hash.Blake3
/-!
The configuration that all parties share: the precision of numbers and the columns that are not
byte-shared. It is identified by a hash of a byte string that determines it.
-/

namespace TriShare

/-- A configuration, which may still be inconsistent. -/
structure Config where
  precisionBits : UInt32
  fieldBits : UInt32
  numericColumns : NameSet
  passthroughColumns : NameSet
  deriving DecidableEq

namespace Config

def defaultNumericColumns : NameSet := NameSet.ofList
  ["debit", "credit", "balance", "Unit Price", "Unit Price Tax", "Shipping Charge",
    "Total Discounts", "Total Owed", "Shipment Item Subtotal", "Shipment Item Subtotal Tax",
    "quantity", "ReturnAmount"]

def defaultPassthroughColumns : NameSet := NameSet.ofList
  ["user_name", "DateOfReturn", "RMA Creation Date", "Order Date", "Ship Date", "created_at",
    "date", "date_of_transaction_completion"]

/-- The configuration that is used where none is given. -/
def default : Config := ⟨10, 64, defaultNumericColumns, defaultPassthroughColumns⟩

/-- The first of the faults that a configuration is looked through for: another field than that of
64 bits, no bit left for integers, a column with two classes. -/
def fault? (c : Config) : Option ConfigFault :=
  if c.fieldBits.toNat ≠ fieldWidth then some (.fieldBits c.fieldBits.toNat)
  else if c.fieldBits ≤ c.precisionBits then
    some (.precision c.precisionBits.toNat c.fieldBits.toNat)
  else (c.numericColumns.firstCommon? c.passthroughColumns).map .overlap

/-- A column in the byte string: a tag for its class, the length of its name, its name. -/
def columnBytes (tag : UInt8) (name : String) : List UInt8 :=
  let bytes := Bytes.ofText name
  tag :: Bytes.littleEndian 8 bytes.length ++ bytes

def numericTag : UInt8 := 0x6E

def passthroughTag : UInt8 := 0x70

/-- The byte string that stands for a configuration: both bit counts, the numeric columns and the
passthrough columns, each set in the order of the names. -/
def bytes (c : Config) : List UInt8 :=
  Bytes.littleEndian 4 c.precisionBits.toNat ++ Bytes.littleEndian 4 c.fieldBits.toNat
    ++ c.numericColumns.names.flatMap (columnBytes numericTag)
    ++ c.passthroughColumns.names.flatMap (columnBytes passthroughTag)

/-- The text that identifies a configuration. -/
def fingerprint (c : Config) : String := Hex.encode (Blake3.hash c.bytes)

end Config

end TriShare
