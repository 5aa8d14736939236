-- SUMMARY: The words of the domain: values of expressions, addresses, and their bytes.

/-!
# Values and addresses

Expressions are worth signed 32-bit values and wrap; the program counter and the origin
are 16-bit addresses and wrap too. Bytes are stored with the low one first.
-/
namespace Asm65

/-- The value of a symbol or an expression. -/
abbrev Value := Int32

/-- A place in the 64K address space. -/
abbrev Address := UInt16

namespace Value

def lowByte (v : Value) : UInt8 := v.toUInt32.toUInt8

def highByte (v : Value) : UInt8 := (v.toUInt32 >>> 8).toUInt8

/-- The low sixteen bits, low byte first. -/
def wordBytes (v : Value) : List UInt8 := [v.lowByte, v.highByte]

/-- The low sixteen bits as an address. -/
def toAddress (v : Value) : Address := v.toUInt32.toUInt16

/-- The value is an address in page zero. -/
def inZeroPage (v : Value) : Bool := 0 ≤ v && v < 256

end Value

namespace Address

def toValue (a : Address) : Value := Int32.ofNat a.toNat

/-- The address that many bytes further on. -/
def advance (a : Address) (bytes : Nat) : Address := a + UInt16.ofNat bytes

end Address

end Asm65
