import ArrayLogic.Main
import ArrayLogic.Proofs.Cover
import ArrayLogic.Proofs.Formula.Expansion
import ArrayLogic.Proofs.NormalForm.Spelling
import ArrayLogic.Proofs.NormalForm.Reader
import ArrayLogic.Proofs.NormalForm.RoundTrip
import ArrayLogic.Proofs.Formula.Grammar
import ArrayLogic.Proofs.Formula.Reader
import ArrayLogic.Proofs.Formula.Spelling
import ArrayLogic.Proofs.Definitions.Execution
import ArrayLogic.Proofs.Definitions.Outputs
import ArrayLogic.Proofs.FuseMap.Assembly
import ArrayLogic.Proofs.FuseMap.Function
import ArrayLogic.Proofs.Compilation.Success
import ArrayLogic.Proofs.Compilation.Correctness
import ArrayLogic.Proofs.Definitions.Prefix
import ArrayLogic.Proofs.FuseMap.Layout
import ArrayLogic.Proofs.Formula.Rendering
import ArrayLogic.Proofs.Cover.Irredundance
import ArrayLogic.Proofs.Definitions.Attempts
import ArrayLogic.Proofs.Formula.Dependence
import ArrayLogic.Proofs.Definitions.Agreement
import ArrayLogic.Proofs.Source
import ArrayLogic.Proofs.Compilation.Exchange
import ArrayLogic.Proofs.Compilation.Deletion
import ArrayLogic.Proofs.Text.Replacement
import ArrayLogic.Proofs.Formula.Run
import ArrayLogic.Proofs.Formula.Substitution
import ArrayLogic.Proofs.Cover.Absorption
import ArrayLogic.Proofs.Cover.Lattice
import ArrayLogic.Proofs.Cover.Stability
import ArrayLogic.Proofs.Cover.Unate
import ArrayLogic.Proofs.Definitions.Selection
import ArrayLogic.Proofs.FuseMap.Outcome
import ArrayLogic.Proofs.BitMatrix
import ArrayLogic.Proofs.FuseMap.Places
import ArrayLogic.Proofs.FuseMap.Extension
import ArrayLogic.Proofs.FuseMap.ReadBack
import ArrayLogic.Proofs.FuseMap.Packing
import ArrayLogic.Proofs.FuseMap.Encoding
import ArrayLogic.Proofs.Formula.RoundTrip
import ArrayLogic.Proofs.Text.Places
import ArrayLogic.Proofs.Formula.Failure
import ArrayLogic.Proofs.NormalForm.Failure
import ArrayLogic.Proofs.Text.Trimming
import ArrayLogic.Proofs.Source.Rendering
import ArrayLogic.Proofs.Source.Concatenation
import ArrayLogic.Proofs.Source.Alphabet
import ArrayLogic.Proofs.Cube.Semantics
import ArrayLogic.Proofs.Formula.Support
import ArrayLogic.Proofs.Formula.TruthTable
import ArrayLogic.Proofs.Device
import ArrayLogic.Proofs.FuseMap.Diagram
import ArrayLogic.Proofs.BitMatrix.Guarded
import ArrayLogic.Proofs.FuseMap.Buffer
import ArrayLogic.Proofs.FuseMap.Guarded
import ArrayLogic.Proofs.Formula.Occurrence
import ArrayLogic.Proofs.TermPool.Numbering
import ArrayLogic.Proofs.Text.Numeral
import ArrayLogic.Proofs.Literal.Spelling
import ArrayLogic.Proofs.Term
