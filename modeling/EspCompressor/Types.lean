import Mathlib.Tactic

/-! The value types of the library: errors, configuration, progress and results. -/
namespace EspCompressor

def kESPCompressorDefaultBlockSize : ℕ := 2048
def kESPCompressorDefaultWindowSize : ℕ := 2048
def kESPCompressorDefaultTaskStackSize : ℕ := 8192

/-- `UINT32_MAX`. -/
def uint32Max : ℕ := 4294967295

inductive CompressionOperation
  | compress | decompress
  deriving DecidableEq, Repr

inductive CompressionError
  | ok | notInitialized | busy | invalidArgument | openFailed | readFailed | writeFailed
  | outputOverflow | cancelled | corruptData | unsupportedVersion | unsupportedAlgorithm
  | noMemory | internalError
  deriving DecidableEq, Repr

/-- The fields that the two run loops read; the task fields belong to the scheduler. -/
structure ESPCompressorConfig where
  blockSize : ℕ := kESPCompressorDefaultBlockSize
  windowSize : ℕ := kESPCompressorDefaultWindowSize
  taskStackSize : ℕ := kESPCompressorDefaultTaskStackSize
  deriving DecidableEq, Repr

structure CompressionJobOptions where
  allowPartialOutput : Bool := false
  deriving DecidableEq, Repr

/-- One progress report. The floating-point `percent` is derived from the other
fields for display and is left out. -/
structure CompressionProgress where
  operation : CompressionOperation := .compress
  totalInputBytes : UInt64 := 0
  processedInputBytes : UInt64 := 0
  totalOutputBytes : UInt64 := 0
  producedOutputBytes : UInt64 := 0
  hasKnownTotalInput : Bool := false
  done : Bool := false
  cancelled : Bool := false
  deriving DecidableEq, Repr

structure CompressionResult where
  error : CompressionError := .ok
  operation : CompressionOperation := .compress
  inputBytes : UInt64 := 0
  outputBytes : UInt64 := 0
  blocksProcessed : ℕ := 0
  deriving DecidableEq, Repr

def makeResult (operation : CompressionOperation) (error : CompressionError) : CompressionResult :=
  { operation, error }

end EspCompressor
