-- SUMMARY: The opcode table: the modes of every mnemonic with their opcode bytes.
import Asm65.Mnemonic
import Asm65.Mode

/-!
# Opcodes

Every instruction has an opcode byte for each mode it supports. The groups that the
processor decodes by bit fields are given by a base byte, the rest one by one.
-/
namespace Asm65

/-- A mode of an instruction and the opcode byte that stands for both. -/
structure Encoding where
  mode : Mode
  opcode : UInt8
  deriving DecidableEq, Inhabited

namespace Encoding

/-- The modes that every instruction on the accumulator and memory has. -/
def accumulatorGroup (base : UInt8) : List Encoding :=
  [⟨.absolute, base + 0x0C⟩, ⟨.zeroPage, base + 0x04⟩, ⟨.absoluteX, base + 0x1C⟩,
    ⟨.absoluteY, base + 0x18⟩, ⟨.zeroPageX, base + 0x14⟩, ⟨.zeroPageXIndirect, base⟩,
    ⟨.zeroPageIndirectY, base + 0x10⟩]

/-- The accumulator group with an immediate operand as well. -/
def arithmeticGroup (base : UInt8) : List Encoding :=
  ⟨.immediate, base + 0x08⟩ :: accumulatorGroup base

/-- The modes of an instruction that changes memory in place. -/
def memoryGroup (base : UInt8) : List Encoding :=
  [⟨.absolute, base + 0x08⟩, ⟨.zeroPage, base⟩, ⟨.absoluteX, base + 0x18⟩,
    ⟨.zeroPageX, base + 0x10⟩]

/-- A shift or rotation, which works on memory or on the accumulator. -/
def shiftGroup (base : UInt8) : List Encoding :=
  ⟨.accumulator, base + 0x04⟩ :: memoryGroup base

end Encoding

namespace Mnemonic

open Encoding

def encodings : Mnemonic → List Encoding
  | ora => arithmeticGroup 0x01
  | and => arithmeticGroup 0x21
  | eor => arithmeticGroup 0x41
  | adc => arithmeticGroup 0x61
  | sta => accumulatorGroup 0x81
  | lda => arithmeticGroup 0xA1
  | cmp => arithmeticGroup 0xC1
  | sbc => arithmeticGroup 0xE1
  | asl => shiftGroup 0x06
  | rol => shiftGroup 0x26
  | lsr => shiftGroup 0x46
  | ror => shiftGroup 0x66
  | dec => memoryGroup 0xC6
  | inc => memoryGroup 0xE6
  | ldx => [⟨.immediate, 0xA2⟩, ⟨.absolute, 0xAE⟩, ⟨.zeroPage, 0xA6⟩, ⟨.absoluteY, 0xBE⟩,
      ⟨.zeroPageY, 0xB6⟩]
  | ldy => [⟨.immediate, 0xA0⟩, ⟨.absolute, 0xAC⟩, ⟨.zeroPage, 0xA4⟩, ⟨.absoluteX, 0xBC⟩,
      ⟨.zeroPageX, 0xB4⟩]
  | stx => [⟨.absolute, 0x8E⟩, ⟨.zeroPage, 0x86⟩, ⟨.zeroPageY, 0x96⟩]
  | sty => [⟨.absolute, 0x8C⟩, ⟨.zeroPage, 0x84⟩, ⟨.zeroPageX, 0x94⟩]
  | cpx => [⟨.immediate, 0xE0⟩, ⟨.absolute, 0xEC⟩, ⟨.zeroPage, 0xE4⟩]
  | cpy => [⟨.immediate, 0xC0⟩, ⟨.absolute, 0xCC⟩, ⟨.zeroPage, 0xC4⟩]
  | bit => [⟨.absolute, 0x2C⟩, ⟨.zeroPage, 0x24⟩]
  | jmp => [⟨.absolute, 0x4C⟩, ⟨.indirect, 0x6C⟩]
  | jsr => [⟨.absolute, 0x20⟩]
  | bpl => [⟨.relative, 0x10⟩]
  | bmi => [⟨.relative, 0x30⟩]
  | bvc => [⟨.relative, 0x50⟩]
  | bvs => [⟨.relative, 0x70⟩]
  | bcc => [⟨.relative, 0x90⟩]
  | bcs => [⟨.relative, 0xB0⟩]
  | bne => [⟨.relative, 0xD0⟩]
  | beq => [⟨.relative, 0xF0⟩]
  | brk => [⟨.implied, 0x00⟩]
  | clc => [⟨.implied, 0x18⟩]
  | cld => [⟨.implied, 0xD8⟩]
  | cli => [⟨.implied, 0x58⟩]
  | clv => [⟨.implied, 0xB8⟩]
  | dex => [⟨.implied, 0xCA⟩]
  | dey => [⟨.implied, 0x88⟩]
  | inx => [⟨.implied, 0xE8⟩]
  | iny => [⟨.implied, 0xC8⟩]
  | nop => [⟨.implied, 0xEA⟩]
  | pha => [⟨.implied, 0x48⟩]
  | php => [⟨.implied, 0x08⟩]
  | pla => [⟨.implied, 0x68⟩]
  | plp => [⟨.implied, 0x28⟩]
  | rti => [⟨.implied, 0x40⟩]
  | rts => [⟨.implied, 0x60⟩]
  | sec => [⟨.implied, 0x38⟩]
  | sed => [⟨.implied, 0xF8⟩]
  | sei => [⟨.implied, 0x78⟩]
  | tax => [⟨.implied, 0xAA⟩]
  | tay => [⟨.implied, 0xA8⟩]
  | tsx => [⟨.implied, 0xBA⟩]
  | txa => [⟨.implied, 0x8A⟩]
  | txs => [⟨.implied, 0x9A⟩]
  | tya => [⟨.implied, 0x98⟩]

/-- The encoding of an instruction in a mode, if it has that mode. -/
def encoding? (m : Mnemonic) (mode : Mode) : Option Encoding :=
  m.encodings.find? fun e => e.mode == mode

theorem mem_encodings_of_encoding? {m : Mnemonic} {mode : Mode} {e : Encoding}
    (h : m.encoding? mode = some e) : e ∈ m.encodings :=
  List.mem_of_find?_eq_some h

theorem mode_of_encoding? {m : Mnemonic} {mode : Mode} {e : Encoding}
    (h : m.encoding? mode = some e) : e.mode = mode := by
  simpa using List.find?_some h

def supports (m : Mnemonic) (mode : Mode) : Bool := (m.encoding? mode).isSome

/-- The first of several modes that the instruction has. -/
def select? (m : Mnemonic) (modes : List Mode) : Option Encoding :=
  modes.findSome? m.encoding?

/-- The encoding with a one-byte address that can stand in for a wide one. -/
def zeroPageForm? (m : Mnemonic) (wide : Mode) : Option Encoding :=
  wide.zeroPageForm?.bind m.encoding?

end Mnemonic

end Asm65
