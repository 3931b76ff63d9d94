import X86Assembler.Library.CString
import X86Assembler.Library.LittleEndian
import X86Assembler.Library.HashChain
import X86Assembler.Library.Fallible
import X86Assembler.Library.Walk
import X86Assembler.Assemble
import X86Assembler.TimesExpansion
import X86Assembler.DecoderSafety
import X86Assembler.ParserTermination
import X86Assembler.AssemblyRun
import X86Assembler.RipReferences
import X86Assembler.LabelLayout
import X86Assembler.SymbolReach
import X86Assembler.LocalScopes
import X86Assembler.SectionOverflow
import X86Assembler.DataItems
import X86Assembler.CanonicalProgram
import X86Assembler.SectionNames
import X86Assembler.Contributions
import X86Assembler.LineAttribution
import X86Assembler.Listing
import X86Assembler.Library.Loop
import X86Assembler.Macros
import X86Assembler.Includes
import X86Assembler.Preprocessor
import X86Assembler.ConditionalPasses
import X86Assembler.SourceLines
import X86Assembler.DeadBranches
import X86Assembler.BranchTargets
import X86Assembler.Constants
import X86Assembler.EquConstants
import X86Assembler.ElfFormat
import X86Assembler.ElfReader
import X86Assembler.ElfSafety
import X86Assembler.DebugSections
import X86Assembler.Library.DwarfLine
import X86Assembler.LineProgram
import X86Assembler.ElfRoundTrip
import X86Assembler.DebugInfo
import X86Assembler.InfoUnit
import X86Assembler.InfoSymbols
import X86Assembler.IncludeExpansion
import X86Assembler.MacroDefinitions
import X86Assembler.ConditionalText
import X86Assembler.EncoderNames
import X86Assembler.LeftoverSymbols
import X86Assembler.LeftoverPasses
import X86Assembler.RepeatedRuns
import X86Assembler.ByteEncoders
import X86Assembler.DisassemblySweep
import X86Assembler.FixupFields
import X86Assembler.CmovDecoding
import X86Assembler.EncodedInstruction
import X86Assembler.MoveEncoding
import X86Assembler.ArithmeticEncoding
import X86Assembler.SizedEncoding
import X86Assembler.XchgEncoding
import X86Assembler.Library.SseReader
import X86Assembler.AddressEncoding
import X86Assembler.SseEncoding
import X86Assembler.SseMoves
import X86Assembler.DecoderGrowth
import X86Assembler.Library.Replacement
import X86Assembler.MacroExpansion
import X86Assembler.Library.Digits
import X86Assembler.NumberLiterals
import X86Assembler.PreprocessorTermination
import X86Assembler.PlainText
import X86Assembler.LiteralScan
import X86Assembler.TimesStatements
import X86Assembler.MemoryTerms
import X86Assembler.MemoryOperands
import X86Assembler.DefineSubstitution
import X86Assembler.MacroArguments
import X86Assembler.MacroInvocations
import X86Assembler.CheckedAppends
import X86Assembler.NameDistance
import X86Assembler.JsonEscape
import X86Assembler.Utf8Validation
import X86Assembler.IncludeStack
import X86Assembler.AlignedLayout
import X86Assembler.CommonSymbols
import X86Assembler.SymbolAttributes
import X86Assembler.Library.PrefixCode
import X86Assembler.Library.FurtherReader
import X86Assembler.Library.InstructionStream
import X86Assembler.OperandReading
import X86Assembler.FurtherEncoding
import X86Assembler.FurtherEncoders
import X86Assembler.AddressedEncoding
import X86Assembler.SseAddressing
import X86Assembler.StatementMeaning
import X86Assembler.Relocation
import X86Assembler.LocatedProgram
import X86Assembler.ProgramText
import X86Assembler.Library.InstructionFlow
import X86Assembler.ProgramFlow
import X86Assembler.Library.Processor
import X86Assembler.ElfLoader
import X86Assembler.SourceSteps
import X86Assembler.Execution
import X86Assembler.SourceGrammar
import X86Assembler.TokenSpelling
import X86Assembler.SourcePrinter
import X86Assembler.ParsedStatements
import X86Assembler.Library.JsonObject
import X86Assembler.JsonDiagnostics
import X86Assembler.Library.Reporting
import X86Assembler.ReportedFailures
