import Asm65.Main
import Asm65.Proofs.Selection
import Asm65.Proofs.Layout
import Asm65.Proofs.FixedPoint
import Asm65.Proofs.Closed
import Asm65.Proofs.Locality
import Asm65.Proofs.Placement
import Asm65.Proofs.DefinitionOrder
import Asm65.Proofs.Disassembly
import Asm65.Proofs.Movement
import Asm65.Proofs.NameIndependence
import Asm65.Proofs.ZeroPage
import Asm65.Proofs.Branches
import Asm65.Proofs.PositionIndependence
import Asm65.Proofs.InOrder
import Asm65.Proofs.Grammar
import Asm65.Proofs.WrittenLine
import Asm65.Proofs.Words
import Asm65.Proofs.Decoration
import Asm65.Proofs.Definedness
import Asm65.Proofs.ListingReader
import Asm65.Proofs.Remarks
import Asm65.Proofs.DataLines
import Asm65.Proofs.HexNumerals
