import BinaryLog.Args
import BinaryLog.Lib.Simulation

set_option autoImplicit false

/-! # The writers both packers share

`packer` and `ringbuffer_packer` repeat the same member functions over two buffer functions,
`buffer_or_write` for the log and `buffer_or_write_index_file` for the index, and one that writes a
runlength record; those members are written here once, over `PackerBuffers`. What an argument writer
writes is a list of byte strings, one for each call of a buffer function, and the lemmas
`…_eq_foldlM` say so: they are all that later modules need to know about these functions. -/

namespace BinaryLog

open Bytes Simulation

/-- How an operation can end other than by returning. -/
inductive Fault where
  /-- A `memcpy` past its array, a loop that makes no progress, or a static that its own initialiser
      comes by. -/
  | undefinedBehaviour
  /-- `front()` of an empty `std::queue`. -/
  | emptyQueue
  /-- `pop_front()` of an empty `std::deque`. -/
  | emptyDeque
  /-- `abort()`. -/
  | abort
  deriving DecidableEq, Repr

/-- The members for run-length encoding: `m_runlength_index` and `m_current_runlength`, a
    `uint64_t`. -/
structure RunState where
  runlengthIndex : Nat
  currentRunlength : Nat
  deriving DecidableEq, Repr

/-- Both packers start with id 0 and run length 0. -/
def RunState.initial : RunState := ⟨0, 0⟩

/-- `m_current_runlength++`. -/
def RunState.increment (run : RunState) : RunState :=
  { run with currentRunlength := (run.currentRunlength + 1) % 2 ^ 64 }

/-- The bytes of one runlength record: the low two bytes of `m_runlength_index`, then
    `m_current_runlength`. -/
def RunState.recordBytes (run : RunState) : List UInt8 :=
  toLittleEndian 2 run.runlengthIndex ++ toLittleEndian 8 run.currentRunlength

@[simp] theorem RunState.length_recordBytes (run : RunState) : run.recordBytes.length = 10 := by
  simp [RunState.recordBytes]

/-- The members the shared functions of a packer class are built on. -/
class PackerBuffers (σ : Type) where
  /-- `buffer_or_write(input, size)` on the `size` bytes at `input`. -/
  bufferOrWrite : σ → List UInt8 → Except Fault σ
  /-- `buffer_or_write_index_file(input, size)` on the `size` bytes at `input`. -/
  bufferOrWriteIndexFile : σ → List UInt8 → Except Fault σ
  /-- `write_current_runlength_to_runlength_file`. -/
  writeCurrentRunlengthToRunlengthFile : σ → Except Fault σ
  getRun : σ → RunState
  setRun : σ → RunState → σ

export PackerBuffers (bufferOrWrite bufferOrWriteIndexFile writeCurrentRunlengthToRunlengthFile
  getRun setRun)

section Writers

variable {σ : Type} [PackerBuffers σ]

/-- The body of `pack_format_string_index`, which both packers have. -/
def packFormatStringIndexBody (p : σ) (index : Nat) : Except Fault σ :=
  if (getRun p).runlengthIndex = 0 ∧ index = 0 then
    -- first index
    if (getRun p).currentRunlength = 0 then do
      let p ← bufferOrWrite p (toLittleEndian 2 index)
      .ok (setRun p (getRun p).increment)
    else .ok (setRun p (getRun p).increment)
  else if (getRun p).runlengthIndex = index then
    -- no change to index
    .ok (setRun p (getRun p).increment)
  else do
    let p ← writeCurrentRunlengthToRunlengthFile p
    let p ← bufferOrWrite p (toLittleEndian 2 index)
    .ok (setRun p ⟨index, 1⟩)

/-! ## Log file -/

/-- The overloads of `write_arg_value_to_log_file`. -/
def writeArgValueToLogFile (p : σ) : ArgValue → Except Fault σ
  | .scalar _ input => bufferOrWrite p input.val
  | .cstr input => do
      let size := strlen input.memory % 2 ^ 16
      let p ← bufferOrWrite p (toLittleEndian 2 size)
      bufferOrWrite p (input.memory.take size)
  | .string input => do
      let size := input.length % 2 ^ 16
      let p ← bufferOrWrite p (toLittleEndian 2 size)
      bufferOrWrite p (input.take size)

/-- `pack_arg`: a constant is not written to the log. -/
def packArg (p : σ) (arg : Arg) : Except Fault σ :=
  match arg with
  | .constant _ => .ok p
  | .dynamic value => writeArgValueToLogFile p value

/-- `update_log_file`. -/
def updateLogFile (p : σ) (args : List Arg) : Except Fault σ :=
  args.foldlM packArg p

/-- The byte strings `write_arg_value_to_log_file` passes to `buffer_or_write`. -/
def ArgValue.logWrites : ArgValue → List (List UInt8)
  | .scalar _ input => [input.val]
  | .cstr input =>
      [toLittleEndian 2 (input.bytes.length % 2 ^ 16),
        input.bytes.take (input.bytes.length % 2 ^ 16)]
  | .string input =>
      [toLittleEndian 2 (input.length % 2 ^ 16), input.take (input.length % 2 ^ 16)]

/-- The byte strings `pack_arg` passes to `buffer_or_write`. -/
def Arg.logWrites : Arg → List (List UInt8)
  | .constant _ => []
  | .dynamic value => value.logWrites

theorem writeArgValueToLogFile_eq_foldlM (p : σ) (value : ArgValue) :
    writeArgValueToLogFile p value = value.logWrites.foldlM bufferOrWrite p := by
  cases value with
  | scalar type input =>
    simp only [writeArgValueToLogFile, ArgValue.logWrites, List.foldlM_cons, List.foldlM_nil,
      bind_pure]
  | cstr input =>
    have htake := input.take_memory (Nat.mod_le input.bytes.length (2 ^ 16))
    simp only [writeArgValueToLogFile, ArgValue.logWrites, List.foldlM_cons, List.foldlM_nil,
      bind_pure, CString.strlen_memory, htake]
  | string input =>
    simp only [writeArgValueToLogFile, ArgValue.logWrites, List.foldlM_cons, List.foldlM_nil,
      bind_pure]

theorem packArg_eq_foldlM (p : σ) (arg : Arg) :
    packArg p arg = arg.logWrites.foldlM bufferOrWrite p := by
  cases arg with
  | constant value => rfl
  | dynamic value => exact writeArgValueToLogFile_eq_foldlM p value

theorem updateLogFile_eq_foldlM (p : σ) (args : List Arg) :
    updateLogFile p args = (args.flatMap Arg.logWrites).foldlM bufferOrWrite p := by
  induction args generalizing p with
  | nil => rfl
  | cons arg args ih =>
    rw [updateLogFile, List.foldlM_cons, List.flatMap_cons, List.foldlM_append, packArg_eq_foldlM]
    exact bind_congr (fun p' => ih p')

/-- Constants write nothing, so the test for all of them being constant only saves the walk. -/
theorem logWrites_of_allArgsAreConstants {args : List Arg} (h : allArgsAreConstants args = true) :
    args.flatMap Arg.logWrites = [] := by
  refine List.flatMap_eq_nil_iff.2 (fun arg harg => ?_)
  have hconst := List.all_eq_true.1 h arg harg
  cases arg with
  | constant value => rfl
  | dynamic value => exact absurd hconst (by simp [Arg.isConstant])

/-! ## Index file -/

/-- `write_arg_type<T>()`. -/
def writeArgType (p : σ) (type : FmtArgType) : Except Fault σ :=
  bufferOrWriteIndexFile p [type.toByte]

/-- `save_arg_type<T>()`: the type of the value, also inside a constant. -/
def saveArgType (p : σ) (arg : Arg) : Except Fault σ :=
  match arg with
  | .constant value => writeArgType p value.getArgType
  | .dynamic value => writeArgType p value.getArgType

/-- The overloads of `write_arg_value_to_index_file`. The one for `std::string` and
    `std::string_view` passes `input.size()`, not the 16-bit `size` it has just written. -/
def writeArgValueToIndexFile (p : σ) : ArgValue → Except Fault σ
  | .scalar _ input => bufferOrWriteIndexFile p input.val
  | .cstr input => do
      let size := strlen input.memory % 2 ^ 16
      let p ← bufferOrWriteIndexFile p (toLittleEndian 2 size)
      bufferOrWriteIndexFile p (input.memory.take size)
  | .string input => do
      let size := input.length % 2 ^ 16
      let p ← bufferOrWriteIndexFile p (toLittleEndian 2 size)
      bufferOrWriteIndexFile p input

/-- `save_arg_constness`. -/
def saveArgConstness (p : σ) (arg : Arg) : Except Fault σ :=
  match arg with
  | .dynamic _ => bufferOrWriteIndexFile p [0]
  | .constant value => do
      let p ← bufferOrWriteIndexFile p [1]
      writeArgValueToIndexFile p value

/-- `update_index_file`: all types first, then constness and constant values. -/
def updateIndexFile (p : σ) (args : List Arg) : Except Fault σ := do
  let p ← args.foldlM saveArgType p
  args.foldlM saveArgConstness p

/-- `write_format_string_to_index_file<format_string>()`. -/
def writeFormatStringToIndexFile (p : σ) (formatString : CString) : Except Fault σ := do
  let length := strlen formatString.memory % 2 ^ 16
  let p ← bufferOrWriteIndexFile p (toLittleEndian 2 length)
  bufferOrWriteIndexFile p (formatString.memory.take length)

/-- `write_num_args_to_index_file`. -/
def writeNumArgsToIndexFile (p : σ) (numArgs : UInt8) : Except Fault σ :=
  bufferOrWriteIndexFile p [numArgs]

/-- The byte strings `write_arg_value_to_index_file` passes on. -/
def ArgValue.indexWrites : ArgValue → List (List UInt8)
  | .scalar _ input => [input.val]
  | .cstr input =>
      [toLittleEndian 2 (input.bytes.length % 2 ^ 16),
        input.bytes.take (input.bytes.length % 2 ^ 16)]
  | .string input => [toLittleEndian 2 (input.length % 2 ^ 16), input]

/-- The byte strings `save_arg_constness` passes on. -/
def Arg.constnessWrites : Arg → List (List UInt8)
  | .dynamic _ => [[0]]
  | .constant value => [1] :: value.indexWrites

/-- The byte strings `write_format_string_to_index_file` passes on. -/
def CString.formatStringWrites (formatString : CString) : List (List UInt8) :=
  [toLittleEndian 2 (formatString.bytes.length % 2 ^ 16),
    formatString.bytes.take (formatString.bytes.length % 2 ^ 16)]

theorem writeArgValueToIndexFile_eq_foldlM (p : σ) (value : ArgValue) :
    writeArgValueToIndexFile p value = value.indexWrites.foldlM bufferOrWriteIndexFile p := by
  cases value with
  | scalar type input =>
    simp only [writeArgValueToIndexFile, ArgValue.indexWrites, List.foldlM_cons, List.foldlM_nil,
      bind_pure]
  | cstr input =>
    have htake := input.take_memory (Nat.mod_le input.bytes.length (2 ^ 16))
    simp only [writeArgValueToIndexFile, ArgValue.indexWrites, List.foldlM_cons, List.foldlM_nil,
      bind_pure, CString.strlen_memory, htake]
  | string input =>
    simp only [writeArgValueToIndexFile, ArgValue.indexWrites, List.foldlM_cons, List.foldlM_nil,
      bind_pure]

theorem saveArgConstness_eq_foldlM (p : σ) (arg : Arg) :
    saveArgConstness p arg = arg.constnessWrites.foldlM bufferOrWriteIndexFile p := by
  cases arg with
  | dynamic value =>
    simp only [saveArgConstness, Arg.constnessWrites, List.foldlM_cons, List.foldlM_nil, bind_pure]
  | constant value =>
    simp only [saveArgConstness, Arg.constnessWrites, List.foldlM_cons,
      writeArgValueToIndexFile_eq_foldlM]

theorem writeFormatStringToIndexFile_eq_foldlM (p : σ) (formatString : CString) :
    writeFormatStringToIndexFile p formatString
      = formatString.formatStringWrites.foldlM bufferOrWriteIndexFile p := by
  have htake := formatString.take_memory (Nat.mod_le formatString.bytes.length (2 ^ 16))
  simp only [writeFormatStringToIndexFile, CString.formatStringWrites, List.foldlM_cons,
    List.foldlM_nil, bind_pure, CString.strlen_memory, htake]

theorem updateIndexFile_eq_foldlM (p : σ) (args : List Arg) :
    updateIndexFile p args
      = (args.map (fun arg => [arg.value.getArgType.toByte])
          ++ args.flatMap Arg.constnessWrites).foldlM bufferOrWriteIndexFile p := by
  have htypes : ∀ (as : List Arg) (q : σ), as.foldlM saveArgType q
      = (as.map (fun arg => [arg.value.getArgType.toByte])).foldlM bufferOrWriteIndexFile q := by
    intro as q
    rw [List.foldlM_map]
    congr 1
    funext q arg
    cases arg <;> rfl
  have hconstness : ∀ (as : List Arg) (q : σ), as.foldlM saveArgConstness q
      = (as.flatMap Arg.constnessWrites).foldlM bufferOrWriteIndexFile q := by
    intro as
    induction as with
    | nil => intro q; rfl
    | cons arg as ih =>
      intro q
      rw [List.foldlM_cons, List.flatMap_cons, List.foldlM_append, saveArgConstness_eq_foldlM]
      exact bind_congr ih
  rw [updateIndexFile, htypes, List.foldlM_append]
  exact bind_congr (hconstness args)

end Writers

end BinaryLog
