import BinaryLog.Salvage

set_option autoImplicit false

/-! # The amalgamated header (`single_include/binary_log/binary_log.hpp`)

The single-header version carries an older `packer`. Its buffer functions are those of `packer`, but
writing a runlength record does not reset the run length, and `flush_runlength_file` does not write
the record of the open run. So a flush changes nothing that is ever written (`run_refines`), and the
record of the last run is never written. `singleHeader_files` compares the files with those of the
other header, and `singleHeader_recovers_iff` says which programs can be read back. -/

namespace BinaryLog

open Bytes Simulation Runs

/-- The data members of the amalgamated `packer<bufferSize, indexBufferSize, runlengthBufferSize>`;
    `m_first_call` is never read. -/
structure SinglePacker (bufferSize indexBufferSize runlengthBufferSize : Nat) where
  logFile : SpillBuffer UInt8 bufferSize
  indexFile : SpillBuffer UInt8 indexBufferSize
  runlengthFile : SpillBuffer UInt8 runlengthBufferSize
  run : RunState
  deriving DecidableEq

namespace SinglePacker

variable {bufferSize indexBufferSize runlengthBufferSize : Nat}

/-- A constructed packer. -/
def fresh : SinglePacker bufferSize indexBufferSize runlengthBufferSize :=
  ⟨.empty, .empty, .empty, .initial⟩

/-- `buffer_or_write`. -/
def bufferOrWrite (p : SinglePacker bufferSize indexBufferSize runlengthBufferSize)
    (input : List UInt8) :
    Except Fault (SinglePacker bufferSize indexBufferSize runlengthBufferSize) :=
  orFault .undefinedBehaviour
    ((p.logFile.write bufferSize input).map (fun b => { p with logFile := b }))

/-- `buffer_or_write_index_file`. -/
def bufferOrWriteIndexFile (p : SinglePacker bufferSize indexBufferSize runlengthBufferSize)
    (input : List UInt8) :
    Except Fault (SinglePacker bufferSize indexBufferSize runlengthBufferSize) :=
  orFault .undefinedBehaviour
    ((p.indexFile.write (indexBufferSize - 1) input).map (fun b => { p with indexFile := b }))

/-- `write_current_runlength_to_runlength_file`, with the same write loop; the run length stays. -/
def writeCurrentRunlengthToRunlengthFile
    (p : SinglePacker bufferSize indexBufferSize runlengthBufferSize) :
    Except Fault (SinglePacker bufferSize indexBufferSize runlengthBufferSize) :=
  if 1 < p.run.currentRunlength then
    orFault .undefinedBehaviour
      ((Packer.writeRecordLoop p.run.recordBytes p.run.recordBytes.length p.runlengthFile
          p.run.recordBytes.length).map (fun b => { p with runlengthFile := b }))
  else .ok p

instance : PackerBuffers (SinglePacker bufferSize indexBufferSize runlengthBufferSize) where
  bufferOrWrite := bufferOrWrite
  bufferOrWriteIndexFile := bufferOrWriteIndexFile
  writeCurrentRunlengthToRunlengthFile := writeCurrentRunlengthToRunlengthFile
  getRun p := p.run
  setRun p run := { p with run := run }

/-- `pack_format_string_index`. -/
def packFormatStringIndex (p : SinglePacker bufferSize indexBufferSize runlengthBufferSize)
    (index : Nat) : Except Fault (SinglePacker bufferSize indexBufferSize runlengthBufferSize) :=
  packFormatStringIndexBody p index

/-- `flush`: the three buffers are handed over, the open run stays open. -/
def flush (p : SinglePacker bufferSize indexBufferSize runlengthBufferSize) :
    SinglePacker bufferSize indexBufferSize runlengthBufferSize :=
  ⟨p.logFile.spill, p.indexFile.spill, p.runlengthFile.spill, p.run⟩

instance : PackerClass (SinglePacker bufferSize indexBufferSize runlengthBufferSize) where
  fresh := fresh
  packFormatStringIndex := packFormatStringIndex
  flush p := .ok p.flush

/-! ## Streams -/

variable {n m r : Nat}

/-- The three files with their buffers are the three streams. -/
structure Refines (p : SinglePacker n m r) (s : Streams) : Prop where
  log : p.logFile.contents = s.log
  index : p.indexFile.contents = s.index
  run : p.run = s.run
  runlength : 10 ≤ r → p.runlengthFile.contents = s.runlength

theorem refines_fresh : (fresh : SinglePacker n m r).Refines .initial :=
  ⟨rfl, rfl, rfl, fun _ => rfl⟩

theorem bufferOrWrite_tracks : Tracks (Refines (n := n) (m := m) (r := r))
    SinglePacker.bufferOrWrite Streams.appendLog := by
  intro p s bs p' hrel h
  simp only [SinglePacker.bufferOrWrite, orFault_eq_ok, Option.map_eq_some_iff] at h
  obtain ⟨b, hb, rfl⟩ := h
  exact { hrel with log := by rw [SpillBuffer.contents_write hb, hrel.log]; rfl }

theorem bufferOrWriteIndexFile_tracks : Tracks (Refines (n := n) (m := m) (r := r))
    SinglePacker.bufferOrWriteIndexFile Streams.appendIndex := by
  intro p s bs p' hrel h
  simp only [SinglePacker.bufferOrWriteIndexFile, orFault_eq_ok, Option.map_eq_some_iff] at h
  obtain ⟨b, hb, rfl⟩ := h
  exact { hrel with index := by rw [SpillBuffer.contents_write hb, hrel.index]; rfl }

/-- The record is written as by the other header, but the run is not closed. -/
theorem writeCurrentRunlength_refines {p p' : SinglePacker n m r} {s : Streams}
    (hrel : p.Refines s) (h : p.writeCurrentRunlengthToRunlengthFile = .ok p') :
    p'.Refines { s.close with run := s.run } := by
  have hpending := flatMap_recordBytes_pending s.run
  unfold SinglePacker.writeCurrentRunlengthToRunlengthFile at h
  rw [hrel.run] at h
  split at h
  · next hlong =>
    simp only [orFault_eq_ok, Option.map_eq_some_iff] at h
    obtain ⟨b, hb, rfl⟩ := h
    rw [if_pos hlong] at hpending
    refine ⟨hrel.log, hrel.index, rfl, fun hr => ?_⟩
    have hlen : s.run.recordBytes.length = 10 := s.run.length_recordBytes
    have hne : s.run.recordBytes ≠ [] := by
      intro hnil
      rw [hnil] at hlen
      exact absurd hlen (by simp)
    rw [Packer.writeRecordLoop_of_le hne (by omega)] at hb
    simp only [Streams.close, SpillBuffer.contents_copy hb, SpillBuffer.contents_makeRoom,
      hrel.runlength hr, hpending]
  · next hshort =>
    obtain rfl := Except.ok.inj h
    rw [if_neg hshort] at hpending
    refine ⟨hrel.log, hrel.index, hrel.run, fun hr => ?_⟩
    rw [hrel.runlength hr, Streams.close, hpending, List.append_nil]

theorem packFormatStringIndex_tracks : Tracks (Refines (n := n) (m := m) (r := r))
    SinglePacker.packFormatStringIndex Streams.packIndex := by
  intro p s index p' hrel hpack
  have hrun : getRun p = s.run := hrel.run
  change packFormatStringIndexBody p index = .ok p' at hpack
  rcases packFormatStringIndexBody_cases p index with ⟨hsup, hbody⟩ |
    ⟨hindex, hlength, rfl, hbody⟩ | ⟨hwritten, hbody⟩
  · rw [hrun] at hsup hbody
    obtain rfl := Except.ok.inj (hbody.symm.trans hpack)
    rw [Streams.packIndex_of_suppresses hsup]
    exact ⟨hrel.log, hrel.index, rfl, hrel.runlength⟩
  · rw [hrun] at hindex hlength
    simp only [hbody, bind_eq_ok, Except.ok.injEq] at hpack
    obtain ⟨p₁, hp₁, rfl⟩ := hpack
    have hrel₁ := bufferOrWrite_tracks p s _ p₁ hrel hp₁
    have hrun₁ : getRun p₁ = s.run := hrel₁.run
    rw [Streams.packIndex_of_first hindex hlength, hrun₁]
    exact ⟨hrel₁.log, hrel₁.index, rfl, hrel₁.runlength⟩
  · rw [hrun] at hwritten
    simp only [hbody, bind_eq_ok, Except.ok.injEq] at hpack
    obtain ⟨p₁, hp₁, p₂, hp₂, rfl⟩ := hpack
    have hrel₁ := writeCurrentRunlength_refines hrel hp₁
    have hrel₂ := bufferOrWrite_tracks p₁ _ _ p₂ hrel₁ hp₂
    -- the run length that was not reset is set to 1 by the caller
    rw [Streams.packIndex_of_not_suppresses hwritten]
    exact ⟨hrel₂.log, hrel₂.index, rfl, hrel₂.runlength⟩

/-- A flush leaves the streams as they are. -/
theorem Refines.flush {p : SinglePacker n m r} {s : Streams} (h : p.Refines s) :
    p.flush.Refines s := by
  refine ⟨?_, ?_, h.run, fun hr => ?_⟩
  · rw [SinglePacker.flush, SpillBuffer.contents_spill, h.log]
  · rw [SinglePacker.flush, SpillBuffer.contents_spill, h.index]
  · rw [SinglePacker.flush, SpillBuffer.contents_spill, h.runlength hr]

/-- Whatever is flushed in between, a run writes the streams of its other calls. -/
theorem run_refines {ops : List Op} {lg lg' : Logger (SinglePacker n m r)} {s : Streams}
    (hrel : lg.packer.Refines s) (h : lg.run ops = .ok lg') :
    lg'.packer.Refines (s.runOps (withoutFlushes ops)) := by
  induction ops generalizing lg s with
  | nil => exact Except.ok.inj h ▸ hrel
  | cons op ops ih =>
    simp only [Logger.run, List.foldlM_cons, bind_eq_ok] at h
    obtain ⟨lg₁, hstep, hrest⟩ := h
    cases op with
    | logIndex formatString args =>
      refine ih ?_ hrest
      simp only [Logger.step, Logger.logIndex_eq, map_eq_ok, bind_eq_ok, Except.ok.injEq] at hstep
      obtain ⟨res, ⟨p, hp, rfl⟩, rfl⟩ := hstep
      have hrow := Tracks.foldlM bufferOrWriteIndexFile_tracks hrel hp
      rwa [Streams.foldl_appendIndex] at hrow
    | log pos args =>
      refine ih ?_ hrest
      simp only [Logger.step, Logger.log_eq, bind_eq_ok, Except.ok.injEq] at hstep
      obtain ⟨p₁, hp₁, p₂, hp₂, rfl⟩ := hstep
      have hargs := Tracks.foldlM bufferOrWrite_tracks
        (packFormatStringIndex_tracks _ s _ p₁ hrel hp₁) hp₂
      rwa [Streams.foldl_appendLog] at hargs
    | flush =>
      simp only [Logger.step, Logger.flush, bind_eq_ok, Except.ok.injEq] at hstep
      obtain ⟨p, hp, rfl⟩ := hstep
      have hflushed : lg.packer.flush = p := Except.ok.inj hp
      exact ih (hflushed ▸ hrel.flush) hrest

/-! ## Every run returns -/

theorem exists_writeCurrentRunlength (hr : 1 ≤ r) (p : SinglePacker n m r) :
    ∃ p', p.writeCurrentRunlengthToRunlengthFile = .ok p' := by
  unfold SinglePacker.writeCurrentRunlengthToRunlengthFile
  split
  · obtain ⟨b, hb⟩ := Packer.writeRecordLoop_isSome hr p.run.recordBytes p.runlengthFile
      p.run.recordBytes.length le_rfl
    exact ⟨_, by rw [hb]; rfl⟩
  · exact ⟨p, rfl⟩

theorem exists_bufferOrWrite (hn : 1 ≤ n) (p : SinglePacker n m r) (bs : List UInt8) :
    ∃ p', BinaryLog.bufferOrWrite p bs = .ok p' := by
  obtain ⟨b, hb⟩ := SpillBuffer.write_isSome n hn le_rfl p.logFile bs
  show ∃ p', p.bufferOrWrite bs = .ok p'
  exact ⟨_, by rw [SinglePacker.bufferOrWrite, hb]; rfl⟩

theorem exists_bufferOrWriteIndexFile (hm : 2 ≤ m) (p : SinglePacker n m r) (bs : List UInt8) :
    ∃ p', BinaryLog.bufferOrWriteIndexFile p bs = .ok p' := by
  obtain ⟨b, hb⟩ := SpillBuffer.write_isSome (m - 1) (by omega) (by omega) p.indexFile bs
  show ∃ p', p.bufferOrWriteIndexFile bs = .ok p'
  exact ⟨_, by rw [SinglePacker.bufferOrWriteIndexFile, hb]; rfl⟩

theorem exists_packFormatStringIndex (hn : 1 ≤ n) (hr : 1 ≤ r) (p : SinglePacker n m r)
    (index : Nat) : ∃ p', BinaryLog.packFormatStringIndex p index = .ok p' := by
  show ∃ p', packFormatStringIndexBody p index = .ok p'
  rcases packFormatStringIndexBody_cases p index with ⟨-, hbody⟩ | ⟨-, -, -, hbody⟩ | ⟨-, hbody⟩
  · exact ⟨_, hbody⟩
  · obtain ⟨p₁, hp₁⟩ := exists_bufferOrWrite hn p (headerBytes 0)
    exact ⟨_, by rw [hbody, hp₁, ok_bind]⟩
  · obtain ⟨p₁, hp₁⟩ := exists_writeCurrentRunlength hr p
    obtain ⟨p₂, hp₂⟩ := exists_bufferOrWrite hn p₁ (headerBytes index)
    have hp₁' : BinaryLog.writeCurrentRunlengthToRunlengthFile p = .ok p₁ := hp₁
    exact ⟨_, by rw [hbody, hp₁', ok_bind, hp₂, ok_bind]⟩

theorem exists_run (hn : 1 ≤ n) (hm : 2 ≤ m) (hr : 1 ≤ r) (lg : Logger (SinglePacker n m r))
    (ops : List Op) : ∃ lg', lg.run ops = .ok lg' := by
  refine exists_foldlM (fun lg op => ?_) ops lg
  cases op with
  | logIndex formatString args =>
    obtain ⟨p, hp⟩ := exists_foldlM (exists_bufferOrWriteIndexFile hm)
      (Registration.rowWrites ⟨formatString, args⟩) lg.packer
    exact ⟨_, by rw [Logger.step, Logger.logIndex_eq, hp, ok_bind]; rfl⟩
  | log pos args =>
    obtain ⟨p₁, hp₁⟩ := exists_packFormatStringIndex hn hr lg.packer (pos % 2 ^ 16)
    obtain ⟨p₂, hp₂⟩ := exists_foldlM (exists_bufferOrWrite hn) (args.flatMap Arg.logWrites) p₁
    exact ⟨_, by rw [Logger.step, Logger.log_eq, hp₁, ok_bind, hp₂, ok_bind]⟩
  | flush => exact ⟨{ lg with packer := lg.packer.flush }, rfl⟩

/-! ## The files after a flush -/

/-- What has been handed to the files. -/
def files (p : SinglePacker n m r) : Files :=
  ⟨p.indexFile.spilled, p.logFile.spilled, p.runlengthFile.spilled⟩

theorem files_of_run_flush (hr : 10 ≤ r) {ops : List Op} {lg : Logger (SinglePacker n m r)}
    (h : Logger.run .fresh (ops ++ [.flush]) = .ok lg) :
    lg.packer.files = ⟨(registrations ops).flatMap Registration.rowBytes,
      (entries .initial ((calls ops).map .item)).flatten,
      (emitted .initial ((calls ops).map .item)).flatMap recordBytes⟩ := by
  rw [Logger.run_concat, bind_eq_ok] at h
  obtain ⟨lg₁, hrun, hflush⟩ := h
  have hrel := run_refines (s := .initial) refines_fresh hrun
  obtain rfl : { lg₁ with packer := lg₁.packer.flush } = lg := Except.ok.inj hflush
  have hevents : callEvents (withoutFlushes ops) = (calls ops).map .item := by
    rw [callEvents_of_noFlush (flush_notMem_withoutFlushes ops), calls_withoutFlushes]
  have hindex := hrel.index
  have hlog := hrel.log
  have hrunlength := hrel.runlength hr
  rw [Streams.index_runOps, registrations_withoutFlushes] at hindex
  rw [Streams.log_runOps, hevents] at hlog
  rw [Streams.runlength_runOps, hevents] at hrunlength
  show Files.mk (_ ++ _) (_ ++ _) (_ ++ _) = _
  rw [← SpillBuffer.contents, ← SpillBuffer.contents, ← SpillBuffer.contents, hindex, hlog,
    hrunlength]
  rfl

end SinglePacker

/-- Before the final flush the records of all runs but the last have been written. -/
theorem emitted_items {l : List Call} (hcount : l.length < 2 ^ 64) :
    emitted .initial (l.map .item) = records Call.index (pieces (l.map .item)).dropLast ∧
      (finalRun .initial (l.map .item)).pending
        = records Call.index [(pieces (l.map .item)).getLastD []] := by
  have hmaximal : MaximalPieces (l.map .item) := isChain_cut_items Call.index [] l
  have hlegible := hmaximal.legible (by rwa [items_map_item])
  have hopen : IsOpen ((pieces (l.map .item)).getLastD []) (finalRun .initial (l.map .item)) :=
    isOpen_finalRun IsOpen.initial hlegible
  refine ⟨?_, hopen.pending⟩
  have hall := emitted_eq_records hlegible
  rw [emitted_append, emitted, emitted, List.append_nil, hopen.pending] at hall
  rcases List.eq_nil_or_concat' (pieces (l.map .item)) with hnil | ⟨front, p, hpieces⟩
  · rw [hnil] at hall ⊢
    exact (List.append_eq_nil_iff.1 hall).1
  · rw [hpieces, records_append, List.getLastD_concat] at hall
    rw [hpieces, List.dropLast_concat]
    exact List.append_cancel_right hall

theorem callEvents_withoutFlushes (ops : List Op) :
    callEvents (withoutFlushes ops) = (calls ops).map .item := by
  rw [callEvents_of_noFlush (flush_notMem_withoutFlushes ops), calls_withoutFlushes]

/-- Both headers side by side: with flushes anywhere, the amalgamated one writes the index and the
    log that the other one writes without them, and the same records but for the one of the last
    run. -/
theorem singleHeader_files {n m r N M K : Nat} (hn : 1 ≤ n) (hm : 2 ≤ m) (hr : 10 ≤ r) (hN : 1 ≤ N)
    (hM : 2 ≤ M) (hK : 10 ≤ K) (ops : List Op) (hcount : (calls ops).length < 2 ^ 64) :
    ∃ (a : Logger (SinglePacker n m r)) (b : Logger (Packer N M K)),
      Logger.run .fresh (ops ++ [.flush]) = .ok a ∧
      Logger.run .fresh (withoutFlushes ops ++ [.flush]) = .ok b ∧
      a.packer.files.index = b.packer.files.index ∧ a.packer.files.log = b.packer.files.log ∧
      b.packer.files.runlength = a.packer.files.runlength
        ++ (records Call.index
            [(pieces (callEvents (withoutFlushes ops))).getLastD []]).flatMap recordBytes := by
  have hpos : 1 ≤ r := by omega
  have hpos' : 1 ≤ K := by omega
  obtain ⟨a, ha⟩ := SinglePacker.exists_run hn hm hpos .fresh (ops ++ [.flush])
  obtain ⟨b, hb⟩ := Packer.run_isSome hN hM hpos' .fresh (withoutFlushes ops ++ [.flush])
  refine ⟨a, b, ha, hb, ?_⟩
  obtain ⟨-, hpending⟩ := emitted_items hcount
  rw [SinglePacker.files_of_run_flush hr ha, Packer.files_of_run_flush hK hb]
  refine ⟨?_, ?_, ?_⟩
  · rw [finalFiles, registrations_withoutFlushes]
  · rw [finalFiles, callEvents_withoutFlushes]
  · rw [finalFiles, callEvents_withoutFlushes, emitted_append, List.flatMap_append, ← hpending,
      emitted, emitted, List.append_nil]

/-- Two calls of one row around a flush: only the other header records the run. -/
theorem singleHeader_files_two_calls :
    ∃ (a : Logger (SinglePacker 1 2 10)) (b : Logger (Packer 1 2 10)),
      Logger.run .fresh [.logIndex (.literal [65]) [], .log 0 [], .flush, .log 0 [], .flush]
        = .ok a ∧
      Logger.run .fresh [.logIndex (.literal [65]) [], .log 0 [], .log 0 [], .flush] = .ok b ∧
      a.packer.files.index = b.packer.files.index ∧ a.packer.files.log = b.packer.files.log ∧
      b.packer.files.runlength = a.packer.files.runlength ++ [(0, 2)].flatMap recordBytes :=
  singleHeader_files (by decide) (by decide) (by decide) (by decide) (by decide) (by decide)
    [.logIndex (.literal [65]) [], .log 0 [], .flush, .log 0 []] (by decide)

/-- What the amalgamated header logs is read back in bounds, whatever is flushed in between, exactly
    if the maximal runs are unambiguous and the last one is a single call. -/
theorem singleHeader_recovers_iff {n m r : Nat} (hn : 1 ≤ n) (hm : 2 ≤ m) (hr : 10 ≤ r)
    (ops : List Op) (h : WellTyped ops) (hcount : (calls ops).length < 2 ^ 64) :
    ∃ lg : Logger (SinglePacker n m r), Logger.run .fresh (ops ++ [.flush]) = .ok lg ∧
      (lg.packer.files.Recover ops ↔
        Unambiguous (((calls ops).map Call.index).splitBy (· == ·)) ∧
          ∀ p ∈ (((calls ops).map Call.index).splitBy (· == ·)).getLast?, p.length = 1) := by
  have hpos : 1 ≤ r := by omega
  obtain ⟨lg, hlg⟩ := SinglePacker.exists_run hn hm hpos .fresh (ops ++ [.flush])
  refine ⟨lg, hlg, ?_⟩
  have hfiles := SinglePacker.files_of_run_flush hr hlg
  rw [(emitted_items hcount).1] at hfiles
  have hparse : parse lg.packer.files.index = some (rowTable ops) := by
    rw [hfiles]
    exact h.parse_index
  have hmaximal : MaximalPieces ((calls ops).map .item) :=
    isChain_cut_items Call.index [] (calls ops)
  have hnil := nil_notMem_pieces ((calls ops).map .item)
  have hitems : items ((calls ops).map .item) = calls ops := items_map_item (calls ops)
  have hread : ∀ p ∈ pieces ((calls ops).map .item), Readable (rowTable ops) p :=
    readable_of_mem_pieces (by rw [hitems]; exact h.described)
    (by rw [hitems]; exact fun c hc => index_lt_of_mem_calls hc)
  have hrecords : ∀ rec ∈ records Call.index (pieces ((calls ops).map .item)).dropLast,
      ValidRecord rec := by
    refine validRecord_of_mem_records
      (fun p hp => hread p (List.dropLast_subset _ hp)) (fun p hp => ?_)
    have hlength := length_le_of_mem_pieces (List.dropLast_subset _ hp)
    rw [hitems] at hlength
    exact hlength.trans_lt hcount
  have hbeside := parseAndPrint_beside_iff (rowTable ops)
    (by rw [hitems]; exact h.described)
    (by rw [hitems]; exact fun c hc => index_lt_of_mem_calls hc) hmaximal
    (by rwa [hitems]) hrecords
  rw [leadThrough_dropLast_iff hnil, hitems] at hbeside
  have hruns : (pieces ((calls ops).map .item)).map (List.map Call.index)
      = ((calls ops).map Call.index).splitBy (· == ·) := map_cut_items Call.index (calls ops)
  rw [Files.Recover, Files.unpack_of_parse hparse, hfiles, ← hruns, List.getLast?_map]
  refine (and_iff_right (by rw [← hparse, hfiles])).trans (hbeside.trans (and_congr_right' ?_))
  constructor
  · intro hlast p hp
    obtain ⟨q, hq, rfl⟩ := Option.map_eq_some_iff.1 hp
    rw [List.length_map, hlast q hq]
  · intro hlast p hp
    have hlength := hlast (p.map Call.index) (Option.map_eq_some_iff.2 ⟨p, hp, rfl⟩)
    rwa [List.length_map] at hlength

/-- A row called once, after a flush in the middle of another run. -/
theorem singleHeader_recovers_iff_flushed :
    ∃ lg : Logger (SinglePacker 1 2 10), Logger.run .fresh [.logIndex (.literal [65]) [],
        .logIndex (.literal [66]) [], .log 1 [], .log 1 [], .flush, .log 1 [], .log 0 [],
        .flush] = .ok lg ∧
      lg.packer.files.Recover [.logIndex (.literal [65]) [], .logIndex (.literal [66]) [],
        .log 1 [], .log 1 [], .flush, .log 1 [], .log 0 []] := by
  obtain ⟨lg, hlg, hiff⟩ := singleHeader_recovers_iff (n := 1) (m := 2) (r := 10) (by decide)
    (by decide) (by decide) [.logIndex (.literal [65]) [], .logIndex (.literal [66]) [], .log 1 [],
      .log 1 [], .flush, .log 1 [], .log 0 []] (by decide) (by decide)
  exact ⟨lg, hlg, hiff.2 ⟨by decide, by decide⟩⟩

/-- Two calls of one row: the second one is lost. -/
example : ∃ lg : Logger (SinglePacker 1048576 32 32),
      Logger.run .fresh [.logIndex (.literal [65]) [], .log 0 [], .log 0 [], .flush] = .ok lg ∧
      lg.packer.files.unpack = some ([⟨0, [65], []⟩], []) :=
  ⟨_, rfl, rfl⟩

end BinaryLog
