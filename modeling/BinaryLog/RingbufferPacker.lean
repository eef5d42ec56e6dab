import BinaryLog.Template

set_option autoImplicit false

/-! # `ringbuffer_packer`: an evicting log buffer (`detail/ringbuffer_packer.hpp`)

The log bytes live in a deque; `log_buffer_indices` queues the offset at which each entry of the log
stream starts, and a write that would reach `log_buffer_size` bytes evicts whole entries from the
front first. Offsets count every byte ever logged; only differences of queued offsets are used, so
nothing depends on the width of `size_t`. The index and the runlength data live in arrays that
`abort()` instead of growing. -/

namespace BinaryLog

open Bytes Simulation

/-- The data members of `ringbuffer_packer<logBufferSize, indexBufferSize, runlengthBufferSize>`;
    of the two arrays the used prefix. -/
structure RingbufferPacker (logBufferSize indexBufferSize runlengthBufferSize : Nat) where
  logBufferIndices : List Nat
  buffer : List UInt8
  bufferIndex : Nat
  indexBuffer : List UInt8
  runlengthBuffer : List UInt8
  run : RunState
  deriving DecidableEq

namespace RingbufferPacker

variable {logBufferSize indexBufferSize runlengthBufferSize : Nat}

/-- A constructed ring buffer packer. -/
def fresh : RingbufferPacker logBufferSize indexBufferSize runlengthBufferSize :=
  ⟨[], [], 0, [], [], .initial⟩

/-- The eviction loop of `buffer_or_write` for a write of `size` bytes, on `log_buffer_indices` and
    `m_buffer`. Every round pops one offset, so the queue bounds the number of rounds. -/
def evict (logBufferSize size : Nat) : List Nat → List UInt8 → Except Fault (List Nat × List UInt8)
  | [], buffer =>
      if logBufferSize ≤ buffer.length + size then .error .emptyQueue else .ok ([], buffer)
  | [first], buffer =>
      -- the second `front()` finds the queue empty
      if logBufferSize ≤ buffer.length + size then .error .emptyQueue else .ok ([first], buffer)
  | first :: second :: rest, buffer =>
      if logBufferSize ≤ buffer.length + size then
        if second - first ≤ buffer.length then
          evict logBufferSize size (second :: rest) (buffer.drop (second - first))
        else .error .emptyDeque
      else .ok (first :: second :: rest, buffer)

/-- `buffer_or_write`. -/
def bufferOrWrite (p : RingbufferPacker logBufferSize indexBufferSize runlengthBufferSize)
    (input : List UInt8) :
    Except Fault (RingbufferPacker logBufferSize indexBufferSize runlengthBufferSize) := do
  let (indices, buffer) ← evict logBufferSize input.length p.logBufferIndices p.buffer
  let numBytesToCopy := min input.length logBufferSize
  .ok { p with
    logBufferIndices := indices
    buffer := buffer ++ input.take numBytesToCopy
    bufferIndex := p.bufferIndex + numBytesToCopy }

/-- `buffer_or_write_index_file`; past the test the copy stays inside the array. -/
def bufferOrWriteIndexFile (p : RingbufferPacker logBufferSize indexBufferSize runlengthBufferSize)
    (input : List UInt8) :
    Except Fault (RingbufferPacker logBufferSize indexBufferSize runlengthBufferSize) :=
  if indexBufferSize ≤ p.indexBuffer.length + input.length then .error .abort
  else .ok { p with
    indexBuffer := p.indexBuffer ++ input.take (min input.length (indexBufferSize - 1)) }

/-- `write_current_runlength_to_runlength_file`. -/
def writeCurrentRunlengthToRunlengthFile
    (p : RingbufferPacker logBufferSize indexBufferSize runlengthBufferSize) :
    Except Fault (RingbufferPacker logBufferSize indexBufferSize runlengthBufferSize) :=
  if 1 < p.run.currentRunlength then
    if runlengthBufferSize ≤ p.runlengthBuffer.length + p.run.recordBytes.length then .error .abort
    else .ok { p with
      runlengthBuffer := p.runlengthBuffer
        ++ p.run.recordBytes.take (min p.run.recordBytes.length runlengthBufferSize)
      run := { p.run with currentRunlength := 0 } }
  else .ok p

instance : PackerBuffers (RingbufferPacker logBufferSize indexBufferSize runlengthBufferSize) where
  bufferOrWrite := bufferOrWrite
  bufferOrWriteIndexFile := bufferOrWriteIndexFile
  writeCurrentRunlengthToRunlengthFile := writeCurrentRunlengthToRunlengthFile
  getRun p := p.run
  setRun p run := { p with run := run }

/-- `log_buffer_indices.push(m_buffer_index)`: a new log entry starts here. -/
def beginEntry (p : RingbufferPacker logBufferSize indexBufferSize runlengthBufferSize) :
    RingbufferPacker logBufferSize indexBufferSize runlengthBufferSize :=
  { p with logBufferIndices := p.logBufferIndices ++ [p.bufferIndex] }

/-- `pack_format_string_index`: the body of the other packer, after the start of the entry has been
    queued. -/
def packFormatStringIndex (p : RingbufferPacker logBufferSize indexBufferSize runlengthBufferSize)
    (index : Nat) :
    Except Fault (RingbufferPacker logBufferSize indexBufferSize runlengthBufferSize) :=
  packFormatStringIndexBody (beginEntry p) index

/-- `flush`: `flush_log_file` and `flush_index_file` are empty, `flush_runlength_file` closes the
    open run. -/
def flush (p : RingbufferPacker logBufferSize indexBufferSize runlengthBufferSize) :
    Except Fault (RingbufferPacker logBufferSize indexBufferSize runlengthBufferSize) :=
  writeCurrentRunlengthToRunlengthFile p

/-- `get_log_buffer`. -/
def getLogBuffer (p : RingbufferPacker logBufferSize indexBufferSize runlengthBufferSize) :
    List UInt8 := p.buffer

/-- `get_index_buffer`. -/
def getIndexBuffer (p : RingbufferPacker logBufferSize indexBufferSize runlengthBufferSize) :
    List UInt8 := p.indexBuffer

/-- `get_runlength_buffer`. -/
def getRunlengthBuffer (p : RingbufferPacker logBufferSize indexBufferSize runlengthBufferSize) :
    List UInt8 := p.runlengthBuffer

end RingbufferPacker

end BinaryLog
