import RegisterLang.Main
import RegisterLang.Text.Template
import RegisterLang.Proofs.Encoding
import RegisterLang.Proofs.Reference
import RegisterLang.Proofs.Execution
import RegisterLang.Proofs.Patterns
import RegisterLang.Proofs.Quiet
import RegisterLang.Proofs.Lowered
import RegisterLang.Proofs.Planned
import RegisterLang.Proofs.Tables
import RegisterLang.Proofs.Linked
import RegisterLang.Proofs.Rules
import RegisterLang.Proofs.Parsed
import RegisterLang.Proofs.Expectation
import RegisterLang.Proofs.Typed
import RegisterLang.Proofs.Scene
import RegisterLang.Proofs.Expressions
import RegisterLang.Proofs.Statements
import RegisterLang.Proofs.Calls
import RegisterLang.Proofs.WellFormed
import RegisterLang.Proofs.Correctness
import RegisterLang.Proofs.Guarded
import RegisterLang.Proofs.Access
import RegisterLang.Proofs.MemorySafety
import RegisterLang.Proofs.Convention
import RegisterLang.Proofs.LabelSets
import RegisterLang.Proofs.Whole
import RegisterLang.Proofs.Emission
import RegisterLang.Proofs.Strict
import RegisterLang.Proofs.Generation
import RegisterLang.Proofs.Lockstep
import RegisterLang.Proofs.Purity
import RegisterLang.Proofs.Definite
import RegisterLang.Proofs.Kinds
import RegisterLang.Proofs.KindedBodies
import RegisterLang.Proofs.Activations
import RegisterLang.Proofs.TypeSoundness
import RegisterLang.Proofs.Codec
import RegisterLang.Proofs.Interpreter
import RegisterLang.Proofs.Plain
import RegisterLang.Proofs.Elaboration
import RegisterLang.Proofs.Inference
import RegisterLang.Proofs.Twins
import RegisterLang.Proofs.Agreement
import RegisterLang.Proofs.Quoting
import RegisterLang.Proofs.Rounding
import RegisterLang.Proofs.Numerals
import RegisterLang.Proofs.Literals
import RegisterLang.Proofs.Spelling
import RegisterLang.Proofs.Grammar
import RegisterLang.Proofs.Reading
import RegisterLang.Proofs.ReadingFiles
import RegisterLang.Proofs.Writing
import RegisterLang.Proofs.RoundTrip
import RegisterLang.Proofs.Allocation
import RegisterLang.Proofs.Confinement
import RegisterLang.Proofs.Shape
import RegisterLang.Proofs.Annotated
import RegisterLang.Proofs.SameTokens
import RegisterLang.Proofs.Buffering
import RegisterLang.Proofs.WrittenImages
import RegisterLang.Proofs.Resources
import RegisterLang.Proofs.Layers
import RegisterLang.Proofs.BuriedBranches
import RegisterLang.Proofs.Exponents
import RegisterLang.Proofs.Indentation
import RegisterLang.Proofs.Rechecked
import RegisterLang.Proofs.Offsets
import RegisterLang.Proofs.Positions
import RegisterLang.Proofs.OnDemand
import RegisterLang.Proofs.WholeNumbers
import RegisterLang.Proofs.Headers
import RegisterLang.Proofs.Markers
import RegisterLang.Proofs.RecordSizes
import RegisterLang.Proofs.FiniteSets
import RegisterLang.Proofs.ByteStack
import RegisterLang.Proofs.CharLiterals
