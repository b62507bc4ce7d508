import Calculator.Numeral
import Calculator.Remainder
import Calculator.Token.Scan
import Calculator.Bindings
import Calculator.Tree.Outline
import Calculator.Assembly
import Calculator.Assembly.Descent
import Calculator.Statement
import Calculator.Plot
import Calculator.Plot.Protocol
import Calculator.Requests
import Calculator.CommandLine.Setting
import Calculator.CommandLine.Caret
import Calculator.CommandLine.Arguments
import Calculator.CommandLine.Run
import Calculator.Main
import Calculator.Formula
import Calculator.Formula.Grammar
import Calculator.Formula.Spelling
import Calculator.Tree.Reading
import Calculator.Proofs.Assembly
import Calculator.Proofs.Grammar
import Calculator.Proofs.Statement
import Calculator.Proofs.ImpliedProduct
import Calculator.Proofs.Spelling
import Calculator.Proofs.Scan
import Calculator.Proofs.SyntaxError
import Calculator.Proofs.Session
import Calculator.Proofs.Grid
import Calculator.Proofs.EqualsSigns
import Calculator.Proofs.Sampling
import Calculator.Proofs.Values
import Calculator.Proofs.Cut
import Calculator.Proofs.Correspondence
import Calculator.Proofs.Independence
import Calculator.Tree.Relocation
import Calculator.Proofs.ErrorPosition
import Calculator.Proofs.Reading
import Calculator.Proofs.WhiteSpace
import Calculator.Proofs.Stretch
import Calculator.Proofs.RightSide
import Calculator.Proofs.Decimal
import Calculator.Proofs.Numeral
import Calculator.Proofs.Separation
import Calculator.Proofs.Spacing
import Calculator.Proofs.Rows
import Calculator.Proofs.Outline
import Calculator.Proofs.Positions
import Calculator.Proofs.EndOfInput
import Calculator.Proofs.Reads
import Calculator.Proofs.Composition
import Calculator.Proofs.FaultPosition
import Calculator.Proofs.Descent
import Calculator.Proofs.Listing
import Calculator.Proofs.ByteOrder
import Calculator.Proofs.Requests
