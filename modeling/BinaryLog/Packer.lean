import BinaryLog.Lib.SpillBuffer
import BinaryLog.Template

set_option autoImplicit false

/-! # `packer`: three buffered files (`detail/packer.hpp`)

Each file is a `SpillBuffer`: the bytes already handed to `fwrite` (every `fwrite` is complete),
then the used prefix of the in-memory array. The log and the index buffer differ only in their chunk
limit. The write loop of a runlength record is a copy of the same loop that never advances its
source pointer, so it keeps its own body; for a buffer of ten bytes or more it takes one round and
the difference does not show (`writeRecordLoop_of_le`). -/

namespace BinaryLog

open Bytes Simulation

/-- The data members of `packer<logBufferSize, indexBufferSize, runlengthBufferSize>`; the three
    `FILE*` are open from the constructor to the destructor. -/
structure Packer (logBufferSize indexBufferSize runlengthBufferSize : Nat) where
  logFile : SpillBuffer UInt8 logBufferSize
  indexFile : SpillBuffer UInt8 indexBufferSize
  runlengthFile : SpillBuffer UInt8 runlengthBufferSize
  run : RunState
  deriving DecidableEq

namespace Packer

variable {logBufferSize indexBufferSize runlengthBufferSize : Nat}

/-- A constructed packer: empty files, nothing buffered. -/
def fresh : Packer logBufferSize indexBufferSize runlengthBufferSize :=
  ⟨.empty, .empty, .empty, .initial⟩

/-- `buffer_or_write`. -/
def bufferOrWrite (p : Packer logBufferSize indexBufferSize runlengthBufferSize)
    (input : List UInt8) :
    Except Fault (Packer logBufferSize indexBufferSize runlengthBufferSize) :=
  orFault .undefinedBehaviour
    ((p.logFile.write logBufferSize input).map (fun b => { p with logFile := b }))

/-- `buffer_or_write_index_file`: chunks of at most `index_buffer_size-1`. -/
def bufferOrWriteIndexFile (p : Packer logBufferSize indexBufferSize runlengthBufferSize)
    (input : List UInt8) :
    Except Fault (Packer logBufferSize indexBufferSize runlengthBufferSize) :=
  orFault .undefinedBehaviour
    ((p.indexFile.write (indexBufferSize - 1) input).map (fun b => { p with indexFile := b }))

/-- The loop of `write_current_runlength_to_runlength_file`, cut off after `fuel` rounds: every
    round copies from the start of `bytes`. -/
def writeRecordLoop (bytes : List UInt8) : Nat → SpillBuffer UInt8 runlengthBufferSize → Nat →
    Option (SpillBuffer UInt8 runlengthBufferSize)
  | _, b, 0 => some b
  | 0, _, _ + 1 => none
  | fuel + 1, b, bytesLeft + 1 =>
      let numBytesToCopy := min (bytesLeft + 1) runlengthBufferSize
      -- `bytes` itself, not `bytes` plus what has been copied
      ((b.makeRoom (bytesLeft + 1)).copy (bytes.take numBytesToCopy)).bind
        (fun b' => writeRecordLoop bytes fuel b' (bytesLeft + 1 - numBytesToCopy))

/-- `write_current_runlength_to_runlength_file`. -/
def writeCurrentRunlengthToRunlengthFile
    (p : Packer logBufferSize indexBufferSize runlengthBufferSize) :
    Except Fault (Packer logBufferSize indexBufferSize runlengthBufferSize) :=
  if 1 < p.run.currentRunlength then
    orFault .undefinedBehaviour
      ((writeRecordLoop p.run.recordBytes p.run.recordBytes.length p.runlengthFile
          p.run.recordBytes.length).map
        (fun b => { p with runlengthFile := b, run := { p.run with currentRunlength := 0 } }))
  else .ok p

instance : PackerBuffers (Packer logBufferSize indexBufferSize runlengthBufferSize) where
  bufferOrWrite := bufferOrWrite
  bufferOrWriteIndexFile := bufferOrWriteIndexFile
  writeCurrentRunlengthToRunlengthFile := writeCurrentRunlengthToRunlengthFile
  getRun p := p.run
  setRun p run := { p with run := run }

/-- `pack_format_string_index`. -/
def packFormatStringIndex (p : Packer logBufferSize indexBufferSize runlengthBufferSize)
    (index : Nat) : Except Fault (Packer logBufferSize indexBufferSize runlengthBufferSize) :=
  packFormatStringIndexBody p index

/-- `flush_index_file`. -/
def flushIndexFile (p : Packer logBufferSize indexBufferSize runlengthBufferSize) :
    Packer logBufferSize indexBufferSize runlengthBufferSize :=
  { p with indexFile := p.indexFile.spill }

/-- `flush_log_file`. -/
def flushLogFile (p : Packer logBufferSize indexBufferSize runlengthBufferSize) :
    Packer logBufferSize indexBufferSize runlengthBufferSize :=
  { p with logFile := p.logFile.spill }

/-- `flush_runlength_file`: closes the open run first. -/
def flushRunlengthFile (p : Packer logBufferSize indexBufferSize runlengthBufferSize) :
    Except Fault (Packer logBufferSize indexBufferSize runlengthBufferSize) := do
  let p ← writeCurrentRunlengthToRunlengthFile p
  .ok { p with runlengthFile := p.runlengthFile.spill }

/-- `flush`. -/
def flush (p : Packer logBufferSize indexBufferSize runlengthBufferSize) :
    Except Fault (Packer logBufferSize indexBufferSize runlengthBufferSize) :=
  flushRunlengthFile (flushLogFile (flushIndexFile p))

/-- Without an open run of two or more calls a flush only hands the buffers over. -/
theorem flush_of_idle {p : Packer logBufferSize indexBufferSize runlengthBufferSize}
    (h : ¬ 1 < p.run.currentRunlength) :
    p.flush = .ok ⟨p.logFile.spill, p.indexFile.spill, p.runlengthFile.spill, p.run⟩ := by
  have hidle : ¬ 1 < (flushLogFile (flushIndexFile p)).run.currentRunlength := h
  rw [flush, flushRunlengthFile, writeCurrentRunlengthToRunlengthFile, if_neg hidle, ok_bind]
  rfl

/-! ## The record loop -/

/-- A record fits a buffer of ten bytes or more in one round. -/
theorem writeRecordLoop_of_le {bytes : List UInt8} (hne : bytes ≠ [])
    (hle : bytes.length ≤ runlengthBufferSize) (b : SpillBuffer UInt8 runlengthBufferSize) :
    writeRecordLoop bytes bytes.length b bytes.length
      = (b.makeRoom bytes.length).copy bytes := by
  obtain ⟨n, hn⟩ := Nat.exists_eq_succ_of_ne_zero (List.length_pos_iff.2 hne).ne'
  have hmin : min (n + 1) runlengthBufferSize = bytes.length := by omega
  have hdone : (fun b' : SpillBuffer UInt8 runlengthBufferSize => writeRecordLoop bytes n b' 0)
      = some := by
    funext b'; cases n <;> rfl
  rw [hn, Nat.succ_eq_add_one, writeRecordLoop, hmin, List.take_length, ← Nat.succ_eq_add_one, ← hn,
    Nat.sub_self, hdone, Option.bind_fun_some]

/-- Whatever the buffer size, the loop ends without leaving the array as soon as it can copy. -/
theorem writeRecordLoop_isSome (hpos : 0 < runlengthBufferSize) (bytes : List UInt8) {fuel : Nat}
    (b : SpillBuffer UInt8 runlengthBufferSize) (bytesLeft : Nat) (hfuel : bytesLeft ≤ fuel) :
    ∃ b', writeRecordLoop bytes fuel b bytesLeft = some b' := by
  induction fuel generalizing b bytesLeft with
  | zero =>
    obtain rfl := Nat.le_zero.1 hfuel
    exact ⟨b, rfl⟩
  | succ fuel ih =>
    cases bytesLeft with
    | zero => exact ⟨b, rfl⟩
    | succ bytesLeft =>
      obtain ⟨b₁, hcopy⟩ := b.copy_makeRoom_isSome (bytesLeft + 1)
        (bytes.take (min (bytesLeft + 1) runlengthBufferSize))
        (by rw [List.length_take]; omega) (by rw [List.length_take]; omega)
      obtain ⟨b', hb'⟩ := ih b₁ (bytesLeft + 1 - min (bytesLeft + 1) runlengthBufferSize) (by omega)
      exact ⟨b', by simp only [writeRecordLoop, hcopy, Option.bind_some, hb']⟩

end Packer

end BinaryLog
