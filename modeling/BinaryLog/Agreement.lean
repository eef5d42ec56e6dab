import BinaryLog.Streams

set_option autoImplicit false

/-! # Both packers implement the streams

`packer` holds each stream as a file and the buffer in front of it (`Packer.Refines`), for every
buffer size; only its runlength part needs ten bytes of buffer. `ringbuffer_packer` holds the index
and the runlength stream and a suffix of the log stream (`RingbufferPacker.Refines`), and nothing is
evicted or aborted while the streams stay below the buffer sizes (`RingbufferPacker.Fits`). Hence
the two agree byte for byte after every prefix of such a run. -/

namespace BinaryLog

open Bytes Simulation

theorem flatMap_recordBytes_pending (run : RunState) :
    run.pending.flatMap recordBytes
      = if 1 < run.currentRunlength then run.recordBytes else [] := by
  rw [RunState.pending]
  split
  · simp [recordBytes, RunState.recordBytes]
  · rfl

/-! ## `packer` -/

namespace Packer

variable {n m r : Nat}

/-- The three files with their buffers are the three streams. -/
structure Refines (p : Packer n m r) (s : Streams) : Prop where
  log : p.logFile.contents = s.log
  index : p.indexFile.contents = s.index
  run : p.run = s.run
  /-- A smaller runlength buffer takes a record in several rounds, see `writeRecordLoop`. -/
  runlength : 10 ≤ r → p.runlengthFile.contents = s.runlength

theorem bufferOrWrite_tracks : Tracks (Refines (n := n) (m := m) (r := r)) Packer.bufferOrWrite
    Streams.appendLog := by
  intro p s bs p' hrel h
  simp only [Packer.bufferOrWrite, orFault_eq_ok, Option.map_eq_some_iff] at h
  obtain ⟨b, hb, rfl⟩ := h
  exact { hrel with log := by rw [SpillBuffer.contents_write hb, hrel.log]; rfl }

theorem bufferOrWriteIndexFile_tracks : Tracks (Refines (n := n) (m := m) (r := r))
    Packer.bufferOrWriteIndexFile Streams.appendIndex := by
  intro p s bs p' hrel h
  simp only [Packer.bufferOrWriteIndexFile, orFault_eq_ok, Option.map_eq_some_iff] at h
  obtain ⟨b, hb, rfl⟩ := h
  exact { hrel with index := by rw [SpillBuffer.contents_write hb, hrel.index]; rfl }

theorem writeCurrentRunlength_tracks (p : Packer n m r) (s : Streams) (p' : Packer n m r)
    (hrel : p.Refines s) (h : p.writeCurrentRunlengthToRunlengthFile = .ok p') :
    p'.Refines s.close := by
  have hpending := flatMap_recordBytes_pending s.run
  unfold Packer.writeCurrentRunlengthToRunlengthFile at h
  rw [hrel.run] at h
  split at h
  · next hlong =>
    simp only [orFault_eq_ok, Option.map_eq_some_iff] at h
    obtain ⟨b, hb, rfl⟩ := h
    rw [if_pos hlong] at hpending
    refine ⟨hrel.log, hrel.index, by simp only [Streams.close, RunState.reset, if_pos hlong], ?_⟩
    intro hr
    have hlen : s.run.recordBytes.length = 10 := s.run.length_recordBytes
    rw [writeRecordLoop_of_le (by rintro h; rw [h] at hlen; exact absurd hlen (by simp))
      (by omega)] at hb
    simp only [Streams.close, SpillBuffer.contents_copy hb, SpillBuffer.contents_makeRoom,
      hrel.runlength hr, hpending]
  · next hshort =>
    obtain rfl := Except.ok.inj h
    rw [if_neg hshort] at hpending
    refine ⟨hrel.log, hrel.index, ?_, fun hr => ?_⟩
    · rw [hrel.run, Streams.close, RunState.reset, if_neg hshort]
    · rw [hrel.runlength hr, Streams.close, hpending, List.append_nil]

theorem flush_tracks (p : Packer n m r) (s : Streams) (p' : Packer n m r) (hrel : p.Refines s)
    (h : p.flush = .ok p') : p'.Refines s.close := by
  simp only [Packer.flush, Packer.flushRunlengthFile, bind_eq_ok, Except.ok.injEq] at h
  obtain ⟨p₁, hp₁, rfl⟩ := h
  have hrel₀ : (flushLogFile (flushIndexFile p)).Refines s :=
    ⟨by simp [flushLogFile, flushIndexFile, hrel.log],
      by simp [flushLogFile, flushIndexFile, hrel.index], hrel.run, hrel.runlength⟩
  have hrel₁ := writeCurrentRunlength_tracks _ s p₁ hrel₀ hp₁
  exact { hrel₁ with runlength := fun hr => by simp [hrel₁.runlength hr] }

/-- `packer` follows the machine, whatever the buffer sizes. -/
theorem refinement : Refinement (Refines (n := n) (m := m) (r := r)) where
  fresh := ⟨rfl, rfl, rfl, fun _ => rfl⟩
  bufferOrWrite := bufferOrWrite_tracks
  bufferOrWriteIndexFile := bufferOrWriteIndexFile_tracks
  packFormatStringIndex := tracks_packFormatStringIndexBody (fun _ _ h => h.run)
    (fun _ _ _ h => ⟨h.log, h.index, rfl, h.runlength⟩) bufferOrWrite_tracks
    writeCurrentRunlength_tracks
  flush := flush_tracks

theorem bufferOrWrite_progress (hn : 1 ≤ n) : Progress (Refines (n := n) (m := m) (r := r))
    (fun _ => True) Packer.bufferOrWrite Streams.appendLog := by
  intro p s bs _ _
  obtain ⟨b, hb⟩ := SpillBuffer.write_isSome n hn le_rfl p.logFile bs
  exact ⟨_, by rw [Packer.bufferOrWrite, hb]; rfl⟩

theorem writeCurrentRunlength_progress (hr : 1 ≤ r) (p : Packer n m r) :
    ∃ p', p.writeCurrentRunlengthToRunlengthFile = .ok p' := by
  unfold Packer.writeCurrentRunlengthToRunlengthFile
  split
  · obtain ⟨b, hb⟩ := writeRecordLoop_isSome hr p.run.recordBytes p.runlengthFile
      p.run.recordBytes.length le_rfl
    exact ⟨_, by rw [hb]; rfl⟩
  · exact ⟨p, rfl⟩

theorem packFormatStringIndex_progress (hn : 1 ≤ n) (hr : 1 ≤ r) :
    Progress (Refines (n := n) (m := m) (r := r)) (fun _ => True) Packer.packFormatStringIndex
      Streams.packIndex :=
  progress_packFormatStringIndexBody (fun _ _ h => h.run) (bufferOrWrite_progress hn)
    writeCurrentRunlength_tracks (fun p _ _ _ => writeCurrentRunlength_progress hr p)
    (fun _ _ _ => trivial) (fun _ _ _ => trivial)

theorem exists_flush (hr : 1 ≤ r) (p : Packer n m r) : ∃ p', p.flush = .ok p' := by
  obtain ⟨p', hp'⟩ := writeCurrentRunlength_progress hr (flushLogFile (flushIndexFile p))
  exact ⟨_, by rw [Packer.flush, flushRunlengthFile, hp', ok_bind]⟩

/-- No call on a `packer` faults or hangs once each buffer can take a chunk. -/
theorem sufficient (hn : 1 ≤ n) (hm : 2 ≤ m) (hr : 1 ≤ r) :
    Sufficient (Refines (n := n) (m := m) (r := r)) (fun _ => True) where
  appendLog := fun _ _ _ => trivial
  appendIndex := fun _ _ _ => trivial
  packIndex := fun _ _ _ => trivial
  close := fun _ _ => trivial
  bufferOrWrite := bufferOrWrite_progress hn
  bufferOrWriteIndexFile := by
    intro p s bs _ _
    obtain ⟨b, hb⟩ := SpillBuffer.write_isSome (m - 1) (by omega) (by omega) p.indexFile bs
    exact ⟨_, by show Packer.bufferOrWriteIndexFile p bs = _
                 rw [Packer.bufferOrWriteIndexFile, hb]; rfl⟩
  packFormatStringIndex := packFormatStringIndex_progress hn hr
  flush := fun p _ _ _ => exists_flush hr p

/-- The streams a packer stands for. -/
def streams (p : Packer n m r) : Streams :=
  ⟨p.logFile.contents, p.indexFile.contents, p.runlengthFile.contents, p.run⟩

theorem refines_streams (p : Packer n m r) : p.Refines p.streams := ⟨rfl, rfl, rfl, fun _ => rfl⟩

/-- Member calls on a `packer` return from any state. -/
theorem run_isSome (hn : 1 ≤ n) (hm : 2 ≤ m) (hr : 1 ≤ r) (lg : Logger (Packer n m r))
    (ops : List Op) : ∃ lg', lg.run ops = .ok lg' :=
  (Sufficient.step refinement (sufficient hn hm hr)).foldlM refinement.step
    (sufficient hn hm hr).antitone_step ops (refines_streams lg.packer) trivial

end Packer

/-! ## `ringbuffer_packer` -/

namespace RingbufferPacker

variable {n m r : Nat}

/-- The deque holds a suffix of the log stream, the arrays the whole of their streams. -/
structure Refines (p : RingbufferPacker n m r) (s : Streams) : Prop where
  buffer : p.buffer <:+ s.log
  bufferIndex : p.bufferIndex = s.log.length
  /-- Nothing is evicted while the log stream is shorter than the buffer. -/
  whole : s.log.length < n → p.buffer = s.log
  indexBuffer : p.indexBuffer = s.index
  runlengthBuffer : p.runlengthBuffer = s.runlength
  run : p.run = s.run

/-- The budget of a run in which nothing is evicted and no `abort()` is reached. -/
def Fits (n m r : Nat) (s : Streams) : Prop :=
  s.log.length < n ∧ s.index.length < m ∧ s.runlength.length < r

theorem evict_of_room {size : Nat} {indices : List Nat} {buffer : List UInt8}
    (h : buffer.length + size < n) : evict n size indices buffer = .ok (indices, buffer) := by
  rcases indices with _ | ⟨first, _ | ⟨second, rest⟩⟩ <;> simp [evict, h]

/-- An eviction that returns has dropped bytes from the front and made room. -/
theorem evict_eq_ok {size : Nat} {indices : List Nat} {buffer : List UInt8}
    {res : List Nat × List UInt8} (h : evict n size indices buffer = .ok res) :
    res.2 <:+ buffer ∧ res.2.length + size < n := by
  fun_induction evict n size indices buffer with
  | case1 buffer hfull => exact absurd h (by simp)
  | case2 buffer hroom =>
    obtain rfl := Except.ok.inj h
    exact ⟨List.suffix_rfl, Nat.lt_of_not_le hroom⟩
  | case3 first buffer hfull => exact absurd h (by simp)
  | case4 first buffer hroom =>
    obtain rfl := Except.ok.inj h
    exact ⟨List.suffix_rfl, Nat.lt_of_not_le hroom⟩
  | case5 first second rest buffer hfull hdist ih =>
    exact ⟨(ih h).1.trans (List.drop_suffix _ _), (ih h).2⟩
  | case6 first second rest buffer hfull hdist => exact absurd h (by simp)
  | case7 first second rest buffer hroom =>
    obtain rfl := Except.ok.inj h
    exact ⟨List.suffix_rfl, Nat.lt_of_not_le hroom⟩

theorem bufferOrWrite_of_evict {p : RingbufferPacker n m r} {input : List UInt8}
    {indices : List Nat} {buffer : List UInt8}
    (h : evict n input.length p.logBufferIndices p.buffer = .ok (indices, buffer)) :
    p.bufferOrWrite input = .ok { p with
      logBufferIndices := indices
      buffer := buffer ++ input
      bufferIndex := p.bufferIndex + input.length } := by
  have hroom : buffer.length + input.length < n := (evict_eq_ok h).2
  -- with room for the whole input the cap `std::min(size, log_buffer_size)` does not bite
  have hmin : min input.length n = input.length := by omega
  simp only [RingbufferPacker.bufferOrWrite, h, ok_bind, hmin, List.take_length]

theorem bufferOrWrite_eq_ok {p p' : RingbufferPacker n m r} {input : List UInt8}
    (h : p.bufferOrWrite input = .ok p') :
    ∃ indices buffer, evict n input.length p.logBufferIndices p.buffer = .ok (indices, buffer) ∧
      p' = { p with
        logBufferIndices := indices
        buffer := buffer ++ input
        bufferIndex := p.bufferIndex + input.length } := by
  have hbind := h
  simp only [RingbufferPacker.bufferOrWrite, bind_eq_ok] at hbind
  obtain ⟨⟨indices, buffer⟩, hevict, -⟩ := hbind
  rw [bufferOrWrite_of_evict hevict, Except.ok.injEq] at h
  exact ⟨indices, buffer, hevict, h.symm⟩

theorem bufferOrWrite_tracks : Tracks (Refines (n := n) (m := m) (r := r))
    RingbufferPacker.bufferOrWrite Streams.appendLog := by
  intro p s bs p' hrel h
  obtain ⟨indices, buffer, hevict, rfl⟩ := bufferOrWrite_eq_ok h
  obtain ⟨evicted, hsuffix⟩ := (evict_eq_ok hevict).1.trans hrel.buffer
  refine { hrel with buffer := ⟨evicted, ?_⟩, bufferIndex := ?_, whole := ?_ }
  · rw [← List.append_assoc, hsuffix]
    rfl
  · simp [Streams.appendLog, hrel.bufferIndex]
  · intro hfit
    simp only [Streams.appendLog, List.length_append] at hfit
    have hwhole := hrel.whole (by omega)
    rw [evict_of_room (by rw [hwhole]; exact hfit), Except.ok.injEq, Prod.mk.injEq] at hevict
    obtain ⟨-, rfl⟩ := hevict
    simp only [Streams.appendLog, hwhole]

theorem bufferOrWriteIndexFile_tracks : Tracks (Refines (n := n) (m := m) (r := r))
    RingbufferPacker.bufferOrWriteIndexFile Streams.appendIndex := by
  intro p s bs p' hrel h
  simp only [RingbufferPacker.bufferOrWriteIndexFile] at h
  split at h
  · exact absurd h (by simp)
  · next hroom =>
    obtain rfl := Except.ok.inj h
    have hmin : min bs.length (m - 1) = bs.length := by omega
    exact { hrel with indexBuffer := by simp only [hmin, List.take_length, hrel.indexBuffer]; rfl }

theorem writeCurrentRunlength_tracks (p : RingbufferPacker n m r) (s : Streams)
    (p' : RingbufferPacker n m r) (hrel : p.Refines s)
    (h : p.writeCurrentRunlengthToRunlengthFile = .ok p') : p'.Refines s.close := by
  have hpending := flatMap_recordBytes_pending s.run
  unfold RingbufferPacker.writeCurrentRunlengthToRunlengthFile at h
  rw [hrel.run] at h
  split at h
  · next hlong =>
    split at h
    · exact absurd h (by simp)
    · next hroom =>
      obtain rfl := Except.ok.inj h
      have hmin : min s.run.recordBytes.length r = s.run.recordBytes.length := by omega
      rw [if_pos hlong] at hpending
      refine { hrel with runlengthBuffer := ?_, run := ?_ }
      · simp only [hmin, List.take_length, hrel.runlengthBuffer, Streams.close, hpending]
      · simp only [Streams.close, RunState.reset, if_pos hlong]
  · next hshort =>
    obtain rfl := Except.ok.inj h
    rw [if_neg hshort] at hpending
    refine { hrel with runlengthBuffer := ?_, run := ?_ }
    · rw [hrel.runlengthBuffer, Streams.close, hpending, List.append_nil]
    · rw [hrel.run, Streams.close, RunState.reset, if_neg hshort]

/-- Queueing an entry's start touches no stream. -/
theorem Refines.beginEntry {p : RingbufferPacker n m r} {s : Streams} (h : p.Refines s) :
    p.beginEntry.Refines s :=
  { h with }

/-- `ringbuffer_packer` follows the machine as long as it returns. -/
theorem refinement : Refinement (Refines (n := n) (m := m) (r := r)) where
  fresh := ⟨List.suffix_rfl, rfl, fun _ => rfl, rfl, rfl, rfl⟩
  bufferOrWrite := bufferOrWrite_tracks
  bufferOrWriteIndexFile := bufferOrWriteIndexFile_tracks
  packFormatStringIndex := fun p s index p' hrel h =>
    tracks_packFormatStringIndexBody (fun _ _ h => h.run) (fun _ _ _ h => { h with run := rfl })
      bufferOrWrite_tracks writeCurrentRunlength_tracks p.beginEntry s index p' hrel.beginEntry h
  flush := writeCurrentRunlength_tracks

theorem bufferOrWrite_progress : Progress (Refines (n := n) (m := m) (r := r)) (Fits n m r)
    RingbufferPacker.bufferOrWrite Streams.appendLog := by
  intro p s bs hrel hroom
  have hfit : s.log.length + bs.length < n := by
    simpa [Streams.appendLog] using hroom.1
  exact ⟨_, by rw [RingbufferPacker.bufferOrWrite,
    evict_of_room (by rw [hrel.whole (by omega)]; exact hfit), ok_bind]⟩

theorem writeCurrentRunlength_progress (p : RingbufferPacker n m r) (s : Streams)
    (hrel : p.Refines s) (hroom : Fits n m r s.close) :
    ∃ p', p.writeCurrentRunlengthToRunlengthFile = .ok p' := by
  have hfit : (s.runlength ++ s.run.pending.flatMap recordBytes).length < r := hroom.2.2
  unfold RingbufferPacker.writeCurrentRunlengthToRunlengthFile
  split
  · next hlong =>
    rw [flatMap_recordBytes_pending, ← hrel.run, if_pos hlong, List.length_append,
      ← hrel.runlengthBuffer] at hfit
    rw [if_neg (by omega)]
    exact ⟨_, rfl⟩
  · exact ⟨_, rfl⟩

/-- Within the budget nothing is evicted and no `abort()` is reached. -/
theorem sufficient : Sufficient (Refines (n := n) (m := m) (r := r)) (Fits n m r) where
  appendLog := by
    rintro s bs ⟨hlog, hrest⟩
    simp only [Streams.appendLog, List.length_append] at hlog
    exact ⟨by omega, hrest⟩
  appendIndex := by
    rintro s bs ⟨hlog, hindex, hrunlength⟩
    simp only [Streams.appendIndex, List.length_append] at hindex
    exact ⟨hlog, by omega, hrunlength⟩
  packIndex := by
    rintro s index ⟨hlog, hindex, hrunlength⟩
    simp only [Streams.packIndex, List.length_append] at hlog hrunlength
    exact ⟨by omega, hindex, by omega⟩
  close := by
    rintro s ⟨hlog, hindex, hrunlength⟩
    simp only [Streams.close, List.length_append] at hrunlength
    exact ⟨hlog, hindex, by omega⟩
  bufferOrWrite := bufferOrWrite_progress
  bufferOrWriteIndexFile := by
    intro p s bs hrel hroom
    have hfit : s.index.length + bs.length < m := by
      simpa [Streams.appendIndex] using hroom.2.1
    exact ⟨_, by show RingbufferPacker.bufferOrWriteIndexFile p bs = _
                 rw [RingbufferPacker.bufferOrWriteIndexFile, hrel.indexBuffer,
                   if_neg (by omega)]⟩
  packFormatStringIndex := fun p s index hrel hroom =>
    progress_packFormatStringIndexBody (fun _ _ h => h.run) bufferOrWrite_progress
      writeCurrentRunlength_tracks writeCurrentRunlength_progress
      (by
        rintro s bs ⟨hlog, hrest⟩
        simp only [Streams.appendLog, List.length_append] at hlog
        exact ⟨by omega, hrest⟩)
      (fun _ _ h => h) p.beginEntry s index hrel.beginEntry hroom
  flush := writeCurrentRunlength_progress

end RingbufferPacker

/-! ## The two packers agree -/

/-- A flush hands everything to the files. -/
theorem Packer.held_of_flush {n m r : Nat} {p p' : Packer n m r} (h : p.flush = .ok p') :
    p'.logFile.held = [] ∧ p'.indexFile.held = [] ∧ p'.runlengthFile.held = [] := by
  simp only [Packer.flush, Packer.flushRunlengthFile, bind_eq_ok, Except.ok.injEq] at h
  obtain ⟨p₁, hp₁, rfl⟩ := h
  have hsame : p₁.logFile = p.logFile.spill ∧ p₁.indexFile = p.indexFile.spill := by
    unfold Packer.writeCurrentRunlengthToRunlengthFile at hp₁
    split at hp₁
    · simp only [orFault_eq_ok, Option.map_eq_some_iff] at hp₁
      obtain ⟨b, -, rfl⟩ := hp₁
      exact ⟨rfl, rfl⟩
    · obtain rfl := Except.ok.inj hp₁
      exact ⟨rfl, rfl⟩
  exact ⟨by rw [hsame.1]; rfl, by rw [hsame.2]; rfl, rfl⟩

/-- After a run that ends with a flush the files are everything ever written to them. -/
theorem Packer.spilled_eq_contents {n m r : Nat} {ops : List Op} {lg lg' : Logger (Packer n m r)}
    (h : lg.run (ops ++ [.flush]) = .ok lg') :
    lg'.packer.logFile.spilled = lg'.packer.logFile.contents ∧
      lg'.packer.indexFile.spilled = lg'.packer.indexFile.contents ∧
      lg'.packer.runlengthFile.spilled = lg'.packer.runlengthFile.contents := by
  rw [Logger.run_concat, bind_eq_ok] at h
  obtain ⟨lg₁, -, hflush⟩ := h
  simp only [Logger.step, Logger.flush, bind_eq_ok, Except.ok.injEq] at hflush
  obtain ⟨p, hp, rfl⟩ := hflush
  obtain ⟨hlog, hindex, hrunlength⟩ := held_of_flush hp
  simp only [SpillBuffer.contents, hlog, hindex, hrunlength, List.append_nil, and_self]

/-- Every run of a logger over `packer` returns. If the bytes it produces are fewer than the sizes
    of the ring buffer packer's three buffers, then after every prefix of the run the two packers
    hold the same bytes, and after a flush the three files are those bytes. -/
theorem ringbufferPacker_agrees {n m r N M K : Nat} (hn : 1 ≤ n) (hm : 2 ≤ m) (hr : 10 ≤ r)
    (ops : List Op) :
    ∃ lg : Logger (Packer n m r), Logger.run .fresh ops = .ok lg ∧
      (lg.packer.logFile.contents.length < N → lg.packer.indexFile.contents.length < M →
        lg.packer.runlengthFile.contents.length < K →
        ∀ ops₁, ops₁ <+: ops →
          ∃ (a : Logger (Packer n m r)) (b : Logger (RingbufferPacker N M K)),
            Logger.run .fresh ops₁ = .ok a ∧ Logger.run .fresh ops₁ = .ok b ∧
            b.packer.getLogBuffer = a.packer.logFile.contents ∧
            b.packer.getIndexBuffer = a.packer.indexFile.contents ∧
            b.packer.getRunlengthBuffer = a.packer.runlengthFile.contents ∧
            (ops₁.getLast? = some .flush →
              a.packer.logFile.spilled = b.packer.getLogBuffer ∧
              a.packer.indexFile.spilled = b.packer.getIndexBuffer ∧
              a.packer.runlengthFile.spilled = b.packer.getRunlengthBuffer)) := by
  have hpacker := Packer.refinement (n := n) (m := m) (r := r)
  have hring := RingbufferPacker.refinement (n := N) (m := M) (r := K)
  have hroom := RingbufferPacker.sufficient (n := N) (m := M) (r := K)
  have hruns (ops : List Op) :=
    (Packer.sufficient hn hm (by omega)).run hpacker ops trivial
  obtain ⟨lg, hlg⟩ := hruns ops
  have hlgR := hpacker.run hlg
  refine ⟨lg, hlg, ?_⟩
  rw [hlgR.log, hlgR.index, hlgR.runlength hr]
  rintro hlog hindex hrunlength ops₁ ⟨ops₂, rfl⟩
  have hfits : RingbufferPacker.Fits N M K (Streams.initial.runOps ops₁) := by
    refine hroom.antitone_step.foldl ops₂ ?_
    rw [Streams.runOps, ← List.foldl_append]
    exact ⟨hlog, hindex, hrunlength⟩
  obtain ⟨a, ha⟩ := hruns ops₁
  obtain ⟨b, hb⟩ := hroom.run hring ops₁ hfits
  have haR := hpacker.run ha
  have hbR := hring.run hb
  have hlogs : b.packer.getLogBuffer = a.packer.logFile.contents := by
    rw [haR.log]
    exact hbR.whole hfits.1
  have hindexes : b.packer.getIndexBuffer = a.packer.indexFile.contents := by
    rw [haR.index]
    exact hbR.indexBuffer
  have hrunlengths : b.packer.getRunlengthBuffer = a.packer.runlengthFile.contents := by
    rw [haR.runlength hr]
    exact hbR.runlengthBuffer
  refine ⟨a, b, ha, hb, hlogs, hindexes, hrunlengths, fun hlast => ?_⟩
  obtain ⟨ops₀, rfl⟩ := List.getLast?_eq_some_iff.1 hlast
  rw [hlogs, hindexes, hrunlengths]
  exact Packer.spilled_eq_contents ha

/-- A row, two calls and a flush through the smallest buffers. -/
theorem ringbufferPacker_agrees_smallest :
    ∃ (a : Logger (Packer 1 2 10)) (b : Logger (RingbufferPacker 16 16 16)),
      Logger.run .fresh [.logIndex (.literal [72, 105]) [], .log 0 [], .log 0 [], .flush] = .ok a ∧
      Logger.run .fresh [.logIndex (.literal [72, 105]) [], .log 0 [], .log 0 [], .flush] = .ok b ∧
      a.packer.logFile.spilled = b.packer.getLogBuffer ∧
      a.packer.indexFile.spilled = b.packer.getIndexBuffer ∧
      a.packer.runlengthFile.spilled = b.packer.getRunlengthBuffer := by
  obtain ⟨lg, hlg, h⟩ := ringbufferPacker_agrees (n := 1) (m := 2) (r := 10) (N := 16) (M := 16)
    (K := 16) (by decide) (by decide) (by decide)
    [.logIndex (.literal [72, 105]) [], .log 0 [], .log 0 [], .flush]
  have hsmall : (Logger.run (.fresh : Logger (Packer 1 2 10))
      [.logIndex (.literal [72, 105]) [], .log 0 [], .log 0 [], .flush]).toOption.all
        (fun lg => decide (lg.packer.logFile.contents.length < 16 ∧
          lg.packer.indexFile.contents.length < 16 ∧
          lg.packer.runlengthFile.contents.length < 16)) = true := by decide
  rw [hlg, Except.toOption, Option.all_some, decide_eq_true_iff] at hsmall
  obtain ⟨a, b, ha, hb, -, -, -, hflush⟩ :=
    h hsmall.1 hsmall.2.1 hsmall.2.2 _ List.prefix_rfl
  exact ⟨a, b, ha, hb, hflush rfl⟩

end BinaryLog
