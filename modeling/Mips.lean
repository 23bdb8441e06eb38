import Mips.Assembly
import Mips.Main
import Mips.Tool.Program
import Mips.Proofs.Encoding
import Mips.Proofs.Image
import Mips.Proofs.Symbol
import Mips.Proofs.Layout
import Mips.Proofs.Realization
import Mips.Proofs.Operand
import Mips.Proofs.Assembly
import Mips.Proofs.Expr
import Mips.Proofs.Field
import Mips.Proofs.Relocation
import Mips.Proofs.Target
import Mips.Proofs.Report
import Mips.Proofs.Outcome
import Mips.Proofs.Bounds
import Mips.Proofs.Isolation
import Mips.Proofs.Mask
import Mips.Proofs.Scan
import Mips.Proofs.Spelling
import Mips.Proofs.Display
import Mips.Proofs.Disassembly
import Mips.Proofs.ByteOrder
import Mips.Proofs.History
import Mips.Proofs.Evaluation
import Mips.Proofs.Constancy
import Mips.Proofs.Extension
import Mips.Proofs.Module
import Mips.Proofs.Label
import Mips.Proofs.Reference
import Mips.Proofs.Literal
import Mips.Proofs.Lexeme
import Mips.Proofs.Inline
import Mips.Proofs.Substitution
import Mips.Proofs.Comment
import Mips.Proofs.Origin
import Mips.Proofs.Name
import Mips.Proofs.Revision
import Mips.Proofs.Grammar
import Mips.Proofs.SymbolFile
import Mips.Proofs.Path
import Mips.Proofs.FileTree
import Mips.Proofs.PlainTree
import Mips.Proofs.Session
import Mips.Proofs.Footprint
import Mips.Proofs.Data
import Mips.Proofs.Value
import Mips.Proofs.Number
import Mips.Proofs.Reach
import Mips.Proofs.Execution
import Mips.Proofs.Expansion
import Mips.Proofs.Spacing
import Mips.Proofs.Width
import Mips.Proofs.Decoding
import Mips.Proofs.Numeral
import Mips.Proofs.Replay
import Mips.Proofs.BitRange
