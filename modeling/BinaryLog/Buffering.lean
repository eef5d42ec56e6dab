import BinaryLog.Agreement

set_option autoImplicit false

/-! # Buffering does not show in the log and the index file

The two buffer functions of `packer` and the flushes of their files, called in any order on any byte
strings. `buffering_transparent` follows them through every round of their write loops: what has
been handed to `fwrite` and what is still in the array are together what has been written, and the
arrays are never left. So the files after a flush are the bytes written, whatever the sizes of the
arrays. -/

namespace BinaryLog

open Simulation

/-- A call of a buffer function, or a flush. -/
inductive BufferOp where
  | log (input : List UInt8)
  | index (input : List UInt8)
  | flushLog
  | flushIndex
  | flush

/-- The bytes a call writes to the log. -/
def BufferOp.logged : BufferOp → List UInt8
  | .log input => input
  | _ => []

/-- The bytes a call writes to the index. -/
def BufferOp.indexed : BufferOp → List UInt8
  | .index input => input
  | _ => []

/-- The bytes written to the log. -/
def loggedBytes (ops : List BufferOp) : List UInt8 := ops.flatMap BufferOp.logged

/-- The bytes written to the index. -/
def indexedBytes (ops : List BufferOp) : List UInt8 := ops.flatMap BufferOp.indexed

namespace Packer

variable {n m r : Nat}

/-- One call. -/
def bufferStep (p : Packer n m r) : BufferOp → Except Fault (Packer n m r)
  | .log input => p.bufferOrWrite input
  | .index input => p.bufferOrWriteIndexFile input
  | .flushLog => .ok p.flushLogFile
  | .flushIndex => .ok p.flushIndexFile
  | .flush => p.flush

/-- A sequence of calls. -/
def runBuffers (p : Packer n m r) (ops : List BufferOp) : Except Fault (Packer n m r) :=
  ops.foldlM bufferStep p

/-- The log and the index file with their arrays hold what has been written; no run is open. -/
structure Buffers (p : Packer n m r) (log index : List UInt8) : Prop where
  log : p.logFile.contents = log
  index : p.indexFile.contents = index
  free : p.indexFile.held.length < m
  run : p.run = .initial

theorem Buffers.step (hn : 1 ≤ n) (hm : 2 ≤ m) {p : Packer n m r} {log index : List UInt8}
    (h : p.Buffers log index) (op : BufferOp) :
    ∃ p', p.bufferStep op = .ok p' ∧
      p'.Buffers (log ++ op.logged) (index ++ op.indexed) := by
  cases op with
  | log input =>
    obtain ⟨b, hb⟩ := p.logFile.write_isSome n hn le_rfl input
    refine ⟨{ p with logFile := b }, by rw [bufferStep, Packer.bufferOrWrite, hb]; rfl, ?_⟩
    exact { h with
      log := by rw [SpillBuffer.contents_write hb, h.log, BufferOp.logged]
      index := h.index.trans (List.append_nil index).symm }
  | index input =>
    have hchunk : m - 1 < m := by omega
    obtain ⟨b, hb⟩ := p.indexFile.write_isSome (m - 1) (by omega) hchunk.le input
    refine ⟨{ p with indexFile := b }, by rw [bufferStep, Packer.bufferOrWriteIndexFile, hb]; rfl,
      ?_⟩
    exact { h with
      log := h.log.trans (List.append_nil log).symm
      index := by rw [SpillBuffer.contents_write hb, h.index, BufferOp.indexed]
      free := SpillBuffer.held_lt_of_write hchunk h.free hb }
  | flushLog =>
    refine ⟨p.flushLogFile, rfl, ?_⟩
    simp only [BufferOp.logged, BufferOp.indexed, List.append_nil]
    exact { h with log := (SpillBuffer.contents_spill p.logFile).trans h.log }
  | flushIndex =>
    refine ⟨p.flushIndexFile, rfl, ?_⟩
    simp only [BufferOp.logged, BufferOp.indexed, List.append_nil]
    exact { h with
      index := (SpillBuffer.contents_spill p.indexFile).trans h.index
      free := by show 0 < m; omega }
  | flush =>
    refine ⟨_, flush_of_idle (by rw [h.run]; decide), ?_⟩
    simp only [BufferOp.logged, BufferOp.indexed, List.append_nil]
    exact {
      log := (SpillBuffer.contents_spill p.logFile).trans h.log
      index := (SpillBuffer.contents_spill p.indexFile).trans h.index
      free := by show 0 < m; omega
      run := h.run }

/-- Every sequence of calls returns. -/
theorem exists_runBuffers (hn : 1 ≤ n) (hm : 2 ≤ m) (ops : List BufferOp) :
    ∃ p : Packer n m r, runBuffers fresh ops = .ok p ∧
      p.Buffers (loggedBytes ops) (indexedBytes ops) := by
  induction ops using List.reverseRecOn with
  | nil => exact ⟨fresh, rfl, rfl, rfl, by show 0 < m; omega, rfl⟩
  | append_singleton ops op ih =>
    obtain ⟨p, hp, hbuffers⟩ := ih
    obtain ⟨p', hp', hbuffers'⟩ := hbuffers.step hn hm op
    rw [runBuffers] at hp
    refine ⟨p', ?_, ?_⟩
    · rw [runBuffers, List.foldlM_append, hp, ok_bind, List.foldlM_cons, hp', ok_bind]
      rfl
    · rw [loggedBytes, indexedBytes, List.flatMap_append, List.flatMap_append,
        List.flatMap_singleton, List.flatMap_singleton]
      exact hbuffers'

end Packer

/-- Buffering is transparent: after any sequence of calls a write to either file goes through round
    by round, what has been handed over and what is held are the bytes written, and a flush leaves
    exactly these in the file. -/
theorem buffering_transparent {n m r : Nat} (hn : 1 ≤ n) (hm : 2 ≤ m) (ops : List BufferOp) :
    ∃ p : Packer n m r, Packer.runBuffers .fresh ops = .ok p ∧
      (p.logFile.contents = loggedBytes ops ∧ p.logFile.held.length ≤ n) ∧
      (p.indexFile.contents = indexedBytes ops ∧ p.indexFile.held.length ≤ m - 1) ∧
      (∀ input, (∃ p', p.bufferOrWrite input = .ok p') ∧
        p.logFile.WritesThrough n n input) ∧
      (∀ input, (∃ p', p.bufferOrWriteIndexFile input = .ok p') ∧
        p.indexFile.WritesThrough (m - 1) (m - 1) input) ∧
      p.flushLogFile.logFile.spilled = loggedBytes ops ∧
      p.flushIndexFile.indexFile.spilled = indexedBytes ops ∧
      ∃ p', p.flush = .ok p' ∧
        p'.logFile.spilled = loggedBytes ops ∧ p'.indexFile.spilled = indexedBytes ops := by
  obtain ⟨p, hp, hbuffers⟩ := Packer.exists_runBuffers (r := r) hn hm ops
  refine ⟨p, hp, ⟨hbuffers.log, p.logFile.held_le⟩,
    ⟨hbuffers.index, Nat.le_sub_one_of_lt hbuffers.free⟩, fun input => ⟨?_, ?_⟩,
    fun input => ⟨?_, ?_⟩, hbuffers.log, hbuffers.index, _,
    Packer.flush_of_idle (by rw [hbuffers.run]; decide), hbuffers.log, hbuffers.index⟩
  · obtain ⟨p', hp', -⟩ := hbuffers.step hn hm (.log input)
    exact ⟨p', hp'⟩
  · exact SpillBuffer.writesThrough hn le_rfl p.logFile input
  · obtain ⟨p', hp', -⟩ := hbuffers.step hn hm (.index input)
    exact ⟨p', hp'⟩
  · exact SpillBuffer.writesThrough_of_lt (by omega) (by omega) hbuffers.free input

/-- Three bytes to the log and two to the index, through the smallest buffers. -/
theorem buffering_transparent_smallest :
    ∃ p : Packer 1 2 1, Packer.runBuffers .fresh [.log [1, 2], .index [4, 5], .log [], .log [3]]
        = .ok p ∧
      p.flushLogFile.logFile.spilled = [1, 2, 3] ∧ p.flushIndexFile.indexFile.spilled = [4, 5] := by
  obtain ⟨p, hp, -, -, -, -, hlog, hindex, -⟩ := buffering_transparent (n := 1) (m := 2) (r := 1)
    le_rfl le_rfl [.log [1, 2], .index [4, 5], .log [], .log [3]]
  exact ⟨p, hp, hlog, hindex⟩

end BinaryLog
