import Stack6502.Text.Blank
import Stack6502.Text.Case
import Stack6502.Text.Quoted
import Stack6502.Number.FloatText
import Stack6502.Number.FloatLiteral
import Stack6502.Number.FiveByte
import Stack6502.Program.InstrText
import Stack6502.Program.Listing
import Stack6502.Program.Wire
import Stack6502.Program.Naming
import Stack6502.Charset
import Stack6502.BitSet
import Stack6502.Emit.Peephole
import Stack6502.Emit.DataLine
import Stack6502.Lower.InPlace
import Stack6502.Lower.Move
import Stack6502.Emit.Assembly
import Stack6502.Main
import Stack6502.Proofs.Processor
import Stack6502.Proofs.OperandStack
import Stack6502.Proofs.InPlace
import Stack6502.Proofs.EvaluationStack
import Stack6502.Proofs.StackTemplates
import Stack6502.Proofs.StackSimulation
import Stack6502.Proofs.PatternSafety
import Stack6502.Proofs.SelectionOffers
import Stack6502.Proofs.SelectionProgress
import Stack6502.Proofs.SelectionPolicy
import Stack6502.Proofs.AskedPatterns
import Stack6502.Proofs.JumpSelection
import Stack6502.Proofs.Characters
import Stack6502.Proofs.EmittedLines
import Stack6502.Proofs.ForwardLabels
import Stack6502.Proofs.JumpTargets
import Stack6502.Proofs.Renaming
import Stack6502.Proofs.RegisterNames
import Stack6502.Proofs.QualifiedNames
import Stack6502.Proofs.BitSets
import Stack6502.Proofs.MarkedLines
import Stack6502.Proofs.AssembledText
import Stack6502.Proofs.LabelPlaces
import Stack6502.Proofs.CancelledRuns
import Stack6502.Proofs.VerbatimText
import Stack6502.Proofs.Breakpoints
import Stack6502.Proofs.FloatLiterals
import Stack6502.Proofs.SharedLiterals
import Stack6502.Proofs.LiteralSection
import Stack6502.Proofs.CancelledFlags
import Stack6502.Proofs.InPlaceHomes
import Stack6502.Proofs.ByteAssignments
import Stack6502.Proofs.NearestDouble
import Stack6502.Proofs.ShortestDecimal
import Stack6502.Proofs.Numerals
import Stack6502.Proofs.DecimalLiterals
import Stack6502.Proofs.FloatReadBack
import Stack6502.Proofs.Words
import Stack6502.Proofs.InstrReadBack
import Stack6502.Proofs.WordCopies
import Stack6502.Proofs.Widening
import Stack6502.Proofs.ConstantSteps
import Stack6502.Proofs.ElementAddresses
import Stack6502.Proofs.FloatMoves
import Stack6502.Proofs.DeclinedInstructions
import Stack6502.Proofs.WindowGrowth
import Stack6502.Proofs.StepLines
import Stack6502.Proofs.IntegerLiterals
import Stack6502.Proofs.IntegerValues
import Stack6502.Proofs.SourceLines
import Stack6502.Proofs.DataReadBack
import Stack6502.Proofs.CharacterCodes
import Stack6502.Proofs.StringReadBack
import Stack6502.Proofs.DeclarationOrder
import Stack6502.Proofs.FloatTruncation
import Stack6502.Proofs.TranscodingSteps
import Stack6502.Proofs.ChunkedTranscoding
import Stack6502.Proofs.InstrGrammar
import Stack6502.Proofs.AnonymousTargets
import Stack6502.Proofs.GeneratedFiles
import Stack6502.Proofs.InlineListings
import Stack6502.Proofs.BinaryItems
import Stack6502.Proofs.SetSteps
import Stack6502.Proofs.WireForms
