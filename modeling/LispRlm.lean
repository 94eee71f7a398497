import LispRlm.Foundation.Effect
import LispRlm.Foundation.TwoRuns
import LispRlm.Foundation.WeightedMap
import LispRlm.Foundation.Listing
import LispRlm.Foundation.StepLog
import LispRlm.Foundation.Simulation
import LispRlm.NearMock.State
import LispRlm.NearMock.Value
import LispRlm.NearMock.Engine
import LispRlm.NearMock.Hosts
import LispRlm.NearMock.HostSteps
import LispRlm.NearMock.Promises
import LispRlm.NearMock.ExecuteTx
import LispRlm.NearMock.Frame
import LispRlm.NearMock.Conservation
import LispRlm.NearMock.Leftovers
import LispRlm.NearMock.HostMatches
import LispRlm.NearMock.EngineMatches
import LispRlm.NearMock.Independence
import LispRlm.NearMock.Visits
import LispRlm.NearMock.Receipts
import LispRlm.NearMock.Draining
import LispRlm.NearMock.Atomicity
import LispRlm.WasmEmit.WriteThrough
import LispRlm.WasmEmit.Closures
import LispRlm.Foundation.StackCode
import LispRlm.Foundation.Validation
import LispRlm.Foundation.Liveness
import LispRlm.Foundation.Nesting
import LispRlm.Foundation.Windows
import LispRlm.Foundation.Ranges
import LispRlm.WasmEmit.Instructions
import LispRlm.WasmEmit.Operators
import LispRlm.WasmEmit.OperatorValues
import LispRlm.WasmEmit.TailCalls
import LispRlm.WasmEmit.PlainEvaluation
import LispRlm.WasmEmit.TailLoop
import LispRlm.WasmEmit.TailCallsCorrect
import LispRlm.WasmEmit.InstructionStreams
import LispRlm.WasmEmit.Peephole
import LispRlm.WasmEmit.MemoryLayout
import LispRlm.WasmEmit.IntegerOperators
import LispRlm.WasmEmit.CheckedWords
import LispRlm.WasmEmit.OperatorRuns
import LispRlm.WasmEmit.OperatorsAgree
import LispRlm.WasmEmit.NumericProvenance
import LispRlm.WasmEmit.ProvenanceSound
import LispRlm.WasmEmit.LoopLifting
import LispRlm.WasmEmit.LoopLiftingSound
import LispRlm.WasmEmit.ParseCache
import LispRlm.WasmEmit.MemoLocals
import LispRlm.WasmEmit.ParseCacheSound
import LispRlm.Foundation.MemoTable
import LispRlm.Bytecode.Values
import LispRlm.Bytecode.Memoized
import LispRlm.WasmEmit.CompositeKeys
import LispRlm.WasmEmit.DecimalLimbs
import LispRlm.WasmEmit.StorageCells
import LispRlm.Bytecode.SelfCall
import LispRlm.Bytecode.LoopFusion
import LispRlm.Bytecode.DictUpdates
import LispRlm.Schnorr.Scalars
import LispRlm.Foundation.Limbs
import LispRlm.Schnorr.Limbs
import LispRlm.WasmEmit.ChainedComparisons
import LispRlm.Bytecode.RecurTails
import LispRlm.Foundation.LongDivision
import LispRlm.WasmEmit.HalfLimbs
import LispRlm.WasmEmit.HalfLimbDivision
import LispRlm.WasmEmit.WideCells
import LispRlm.WasmEmit.U128Helpers
import LispRlm.WasmEmit.U256Helpers
import LispRlm.WasmEmit.U256Text
import LispRlm.WasmEmit.U256Decimal
import LispRlm.WasmEmit.U128Decimal
import LispRlm.WasmEmit.NumberText
import LispRlm.WasmEmit.FixedPointNewton
import LispRlm.WasmEmit.FixedPointWords
import LispRlm.WasmEmit.ForLoops
import LispRlm.WasmEmit.MemoGuard
import LispRlm.WasmEmit.TickPrices
import LispRlm.WasmEmit.LoopHoisting
import LispRlm.WasmEmit.TryCatch
import LispRlm.WasmEmit.ValueEquality
import LispRlm.WasmEmit.U256Composition
import LispRlm.WasmEmit.U256Root
import LispRlm.WasmEmit.FixedPoint
import LispRlm.Schnorr.Signing
import LispRlm.Surface.Clojure
import LispRlm.Surface.Quasiquote
import LispRlm.WasmEmit.TreeShake
import LispRlm.Bytecode.Sorting
import LispRlm.Bytecode.VerifierSound
import LispRlm.Bytecode.Traversal
import LispRlm.Bytecode.TraversalAgreement
import LispRlm.Bytecode.Patterns
import LispRlm.Bytecode.PatternChecks
import LispRlm.Bytecode.PatternAgreement
import LispRlm.Bytecode.JsonPrinting
import LispRlm.Bytecode.IntegerRoot
import LispRlm.NearMock.BatchReverts
import LispRlm.Bytecode.StorageIteration
import LispRlm.Bytecode.CrossContract
import LispRlm.Typing.ClosureSums
import LispRlm.Typing.JsonReads
import LispRlm.Typing.StorageSites
import LispRlm.Typing.StorageCalls
import LispRlm.Schnorr.FieldPrime
import LispRlm.Foundation.WideProducts
import LispRlm.Schnorr.FieldAgreement
import LispRlm.Foundation.TextPositions
import LispRlm.Surface.DotimesLowering
import LispRlm.Surface.ErrorPositions
import LispRlm.Surface.SourceLayouts
import LispRlm.Surface.Printing
import LispRlm.WasmEmit.SectionCodecs
import LispRlm.Foundation.Inclusion
import LispRlm.WasmEmit.ModuleGraphs
import LispRlm.Schnorr.PublicInverse
import LispRlm.Foundation.Flow
import LispRlm.Instrument.Pass
import LispRlm.Instrument.Machine
import LispRlm.Instrument.Lockstep
import LispRlm.Instrument.EmittedCode
import LispRlm.Instrument.Streams
import LispRlm.Instrument.Modules
import LispRlm.Instrument.OriginalRuns
