-- SUMMARY: The fifty-six instruction mnemonics and their spelling.
import Asm65.Text

/-!
# Mnemonics

The instructions of the 6502, named by three upper-case letters.
-/
namespace Asm65

inductive Mnemonic where
  | adc | and | asl | bcc | bcs | beq | bit | bmi | bne | bpl | brk | bvc | bvs | clc
  | cld | cli | clv | cmp | cpx | cpy | dec | dex | dey | eor | inc | inx | iny | jmp
  | jsr | lda | ldx | ldy | lsr | nop | ora | pha | php | pla | plp | rol | ror | rti
  | rts | sbc | sec | sed | sei | sta | stx | sty | tax | tay | tsx | txa | txs | tya
  deriving DecidableEq, Inhabited

namespace Mnemonic

def all : List Mnemonic :=
  [adc, and, asl, bcc, bcs, beq, bit, bmi, bne, bpl, brk, bvc, bvs, clc,
    cld, cli, clv, cmp, cpx, cpy, dec, dex, dey, eor, inc, inx, iny, jmp,
    jsr, lda, ldx, ldy, lsr, nop, ora, pha, php, pla, plp, rol, ror, rti,
    rts, sbc, sec, sed, sei, sta, stx, sty, tax, tay, tsx, txa, txs, tya]

theorem mem_all (m : Mnemonic) : m ∈ all := by cases m <;> decide

def name : Mnemonic → String
  | adc => "ADC" | and => "AND" | asl => "ASL" | bcc => "BCC" | bcs => "BCS" | beq => "BEQ"
  | bit => "BIT" | bmi => "BMI" | bne => "BNE" | bpl => "BPL" | brk => "BRK" | bvc => "BVC"
  | bvs => "BVS" | clc => "CLC" | cld => "CLD" | cli => "CLI" | clv => "CLV" | cmp => "CMP"
  | cpx => "CPX" | cpy => "CPY" | dec => "DEC" | dex => "DEX" | dey => "DEY" | eor => "EOR"
  | inc => "INC" | inx => "INX" | iny => "INY" | jmp => "JMP" | jsr => "JSR" | lda => "LDA"
  | ldx => "LDX" | ldy => "LDY" | lsr => "LSR" | nop => "NOP" | ora => "ORA" | pha => "PHA"
  | php => "PHP" | pla => "PLA" | plp => "PLP" | rol => "ROL" | ror => "ROR" | rti => "RTI"
  | rts => "RTS" | sbc => "SBC" | sec => "SEC" | sed => "SED" | sei => "SEI" | sta => "STA"
  | stx => "STX" | sty => "STY" | tax => "TAX" | tay => "TAY" | tsx => "TSX" | txa => "TXA"
  | txs => "TXS" | tya => "TYA"

/-- The mnemonic spelled exactly so. -/
def ofText? (t : Text) : Option Mnemonic := all.find? fun m => m.name.toList == t

theorem ofText?_name (m : Mnemonic) : ofText? m.name.toList = some m := by cases m <;> decide

theorem name_of_ofText? {t : Text} {m : Mnemonic} (h : ofText? t = some m) :
    m.name.toList = t := by
  simpa using List.find?_some h

end Mnemonic

end Asm65
