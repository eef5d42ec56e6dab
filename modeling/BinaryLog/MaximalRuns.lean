import BinaryLog.RingWindow

set_option autoImplicit false

/-! # The encoder computes the maximal runs

`pack_format_string_index`, called for one id after the other with no flush in between, is an online
computation of the maximal runs of the sequence of ids. Its two members hold the last run, the log
has the id of every run, and the runlength stream has the record of every closed run of two or more
ids (`packIndices_maximalRuns`). The two packers share the argument: through `Refinement` they
follow the streams, and on the streams a call without arguments is a call of
`pack_format_string_index`. -/

namespace BinaryLog

open Bytes Simulation Runs

/-! ## The decomposition -/

/-- The maximal runs of a sequence of ids. -/
def maximalRuns (ids : List Nat) : List (List Nat) := ids.splitBy (· == ·)

/-- The ids of the runs. -/
def runHeaders (runs : List (List Nat)) : List Nat := runs.filterMap List.head?

/-- Id and length of the last run, or the members as constructed if there is none. -/
def lastRun (runs : List (List Nat)) : RunState :=
  match runs.getLast? with
  | some (id :: run) => ⟨id, run.length + 1⟩
  | _ => .initial

theorem nil_notMem_maximalRuns (ids : List Nat) : [] ∉ maximalRuns ids :=
  fun h => List.ne_nil_of_mem_splitBy h rfl

@[simp] theorem runHeaders_cons (id : Nat) (run : List Nat) (runs : List (List Nat)) :
    runHeaders ((id :: run) :: runs) = id :: runHeaders runs := rfl

theorem map_some_runHeaders {runs : List (List Nat)} (h : [] ∉ runs) :
    (runHeaders runs).map some = runs.map List.head? := by
  induction runs with
  | nil => rfl
  | cons p runs ih =>
    obtain ⟨hp, hrest⟩ := List.ne_and_not_mem_of_not_mem_cons h
    obtain ⟨id, run, rfl⟩ := List.exists_cons_of_ne_nil hp.symm
    rw [runHeaders_cons, List.map_cons, List.map_cons, ih hrest, List.head?_cons]

theorem length_runHeaders {runs : List (List Nat)} (h : [] ∉ runs) :
    (runHeaders runs).length = runs.length := by
  have hmap := congrArg List.length (map_some_runHeaders h)
  rwa [List.length_map, List.length_map] at hmap

@[simp] theorem length_flatMap_headerBytes (ids : List Nat) :
    (ids.flatMap headerBytes).length = 2 * ids.length := by
  induction ids with
  | nil => rfl
  | cons id ids ih =>
    rw [List.flatMap_cons, List.length_append, ih, length_headerBytes, List.length_cons]
    omega

/-- The record of the last run is the one the members stand for. -/
theorem pending_lastRun {runs : List (List Nat)} {p : List Nat} (h : [] ∉ runs ++ [p]) :
    (lastRun (runs ++ [p])).pending = records id [p] := by
  rw [lastRun, List.getLast?_concat]
  rcases p with _ | ⟨a, _ | ⟨b, p⟩⟩
  · exact absurd (List.mem_append_right _ (by simp)) h
  · rfl
  · simp [RunState.pending, records]

theorem lastRun_ne_initial {ids : List Nat} (h : ids ≠ []) :
    lastRun (maximalRuns ids) ≠ .initial := by
  rcases List.eq_nil_or_concat' (maximalRuns ids) with hruns | ⟨runs, p, hruns⟩
  · have hflat := List.flatten_splitBy (· == ·) ids
    rw [← maximalRuns, hruns] at hflat
    exact absurd hflat.symm h
  · have hne : p ≠ [] := by
      rintro rfl
      exact nil_notMem_maximalRuns ids (hruns ▸ List.mem_append_right _ (by simp))
    obtain ⟨id, run, rfl⟩ := List.exists_cons_of_ne_nil hne
    rw [hruns, lastRun, List.getLast?_concat]
    simp [RunState.initial]

/-! ## Ids as calls without arguments -/

/-- A call without arguments for each id. -/
def idCalls (ids : List Nat) : List Call := ids.map (fun id => ⟨id, []⟩)

/-- The calls with no flush in between. -/
def idEvents (ids : List Nat) : List (Event Call) := (idCalls ids).map .item

theorem callEvents_ids {ids : List Nat} (hids : ∀ id ∈ ids, id < 2 ^ 16) :
    callEvents (ids.map (fun id => Op.log id [])) = idEvents ids := by
  induction ids with
  | nil => rfl
  | cons id ids ih =>
    have hmod : id % 2 ^ 16 = id := Nat.mod_eq_of_lt (hids id List.mem_cons_self)
    rw [List.map_cons, callEvents, hmod,
      ih (fun id' hid' => hids id' (List.mem_cons_of_mem _ hid'))]
    rfl

theorem foldl_packIndex {ids : List Nat} (hids : ∀ id ∈ ids, id < 2 ^ 16) (s : Streams) :
    ids.foldl Streams.packIndex s = s.runOps (ids.map (fun id => Op.log id [])) := by
  induction ids generalizing s with
  | nil => rfl
  | cons id ids ih =>
    have hmod : id % 2 ^ 16 = id := Nat.mod_eq_of_lt (hids id List.mem_cons_self)
    have hstep : s.step (.log id []) = s.packIndex id := by
      rw [Streams.step, hmod]
      simp [Streams.appendLog, Call.argBytes]
    rw [List.foldl_cons, List.map_cons, Streams.runOps_cons, hstep]
    exact ih (fun id' hid' => hids id' (List.mem_cons_of_mem _ hid')) _

theorem map_pieces_idEvents (ids : List Nat) :
    (pieces (idEvents ids)).map (List.map Call.index) = maximalRuns ids := by
  have hindex : (idCalls ids).map Call.index = ids := by simp [idCalls, Function.comp_def]
  rw [pieces, idEvents, map_cut_items, hindex, maximalRuns]

/-- No two consecutive headers are equal. -/
theorem isChain_runHeaders (ids : List Nat) : (runHeaders (maximalRuns ids)).IsChain (· ≠ ·) := by
  have hsome : ((runHeaders (maximalRuns ids)).map some).IsChain (· ≠ ·) := by
    rw [map_some_runHeaders (nil_notMem_maximalRuns ids), ← map_pieces_idEvents, List.map_map,
      List.isChain_map]
    refine (isChain_cut_items Call.index [] (idCalls ids)).imp (fun p q hne => ?_)
    simpa [keyOf] using hne
  exact ((List.isChain_map some).1 hsome).imp (fun a b hab heq => hab (congrArg some heq))

theorem legible_idEvents {ids : List Nat} (hlength : ids.length < 2 ^ 64) :
    Legible .initial (idEvents ids) := by
  refine (legible_iff _).2 ⟨?_, ?_⟩
  · exact (isChain_cut_items Call.index [] (idCalls ids)).imp (fun _ _ hne heq => absurd heq hne)
  · intro p hp
    have hle := length_le_of_mem_pieces hp
    rw [idEvents, items_map_item, idCalls, List.length_map] at hle
    omega

/-- A piece of calls without arguments is one header in the log. -/
theorem flatMap_pieceBytes {ps : List (List Call)} (hnil : [] ∉ ps)
    (hargs : ∀ p ∈ ps, ∀ c ∈ p, c.args = []) :
    ps.flatMap pieceBytes = (runHeaders (ps.map (List.map Call.index))).flatMap headerBytes := by
  induction ps with
  | nil => rfl
  | cons p ps ih =>
    obtain ⟨hp, hnil'⟩ := List.ne_and_not_mem_of_not_mem_cons hnil
    obtain ⟨c, cs, rfl⟩ := List.exists_cons_of_ne_nil hp.symm
    have hbytes : (c :: cs).flatMap Call.argBytes = [] := by
      refine List.flatMap_eq_nil_iff.2 (fun d hd => ?_)
      rw [Call.argBytes, hargs _ List.mem_cons_self d hd]
      rfl
    rw [List.flatMap_cons, pieceBytes_cons, hbytes, List.append_nil,
      ih hnil' (fun q hq => hargs q (List.mem_cons_of_mem _ hq)), List.map_cons, List.map_cons,
      runHeaders_cons, List.flatMap_cons]

/-! ## The streams -/

section Streams

variable {ids : List Nat}

theorem log_packIndices (hids : ∀ id ∈ ids, id < 2 ^ 16) (hlength : ids.length < 2 ^ 64) :
    (ids.foldl Streams.packIndex .initial).log
      = (runHeaders (maximalRuns ids)).flatMap headerBytes := by
  have hargs : ∀ p ∈ pieces (idEvents ids), ∀ c ∈ p, c.args = [] := by
    intro p hp c hc
    have hmem := List.mem_flatten.2 ⟨p, hp, hc⟩
    rw [flatten_pieces, idEvents, items_map_item] at hmem
    obtain ⟨id, -, rfl⟩ := List.mem_map.1 hmem
    rfl
  rw [foldl_packIndex hids, Streams.log_runOps, callEvents_ids hids]
  show [] ++ (entries .initial (idEvents ids)).flatten = _
  rw [List.nil_append, flatten_entries (legible_idEvents hlength),
    flatMap_pieceBytes (nil_notMem_pieces _) hargs, map_pieces_idEvents]

/-- The open run is the last one. -/
theorem run_packIndices (hids : ∀ id ∈ ids, id < 2 ^ 16) (hlength : ids.length < 2 ^ 64) :
    (ids.foldl Streams.packIndex .initial).run = lastRun (maximalRuns ids) := by
  have hopen : IsOpen ((pieces (idEvents ids)).getLastD []) (finalRun .initial (idEvents ids)) :=
    isOpen_finalRun IsOpen.initial (legible_idEvents hlength)
  rw [foldl_packIndex hids, Streams.run_runOps, callEvents_ids hids, ← map_pieces_idEvents]
  show finalRun .initial (idEvents ids) = _
  rcases List.eq_nil_or_concat' (pieces (idEvents ids)) with hnil | ⟨ps, p, hpieces⟩
  · have hflat := flatten_pieces (idEvents ids)
    rw [hnil, idEvents, items_map_item, List.flatten_nil] at hflat
    rw [hnil, idEvents, ← hflat]
    rfl
  · have hne : p ≠ [] := by
      rintro rfl
      exact nil_notMem_pieces (idEvents ids) (hpieces ▸ List.mem_append_right _ (by simp))
    obtain ⟨c, cs, rfl⟩ := List.exists_cons_of_ne_nil hne
    rw [hpieces, List.getLastD_concat] at hopen
    rw [hpieces, List.map_append, lastRun, List.map_singleton, List.getLast?_concat, List.map_cons]
    have hindex : (finalRun .initial (idEvents ids)).runlengthIndex = c.index :=
      hopen.index c (by simp)
    have hcount := hopen.length
    rw [List.length_cons] at hcount
    simp only [List.length_map, ← hindex, ← hcount]

/-- Closing the last run completes the records. -/
theorem close_packIndices (hids : ∀ id ∈ ids, id < 2 ^ 16) (hlength : ids.length < 2 ^ 64) :
    (ids.foldl Streams.packIndex .initial).close.runlength
      = (records id (maximalRuns ids)).flatMap recordBytes := by
  have hclose : (ids.foldl Streams.packIndex .initial).close
      = Streams.initial.runOps (ids.map (fun id => Op.log id []) ++ [.flush]) := by
    rw [Streams.runOps_append, foldl_packIndex hids]
    rfl
  rw [hclose, Streams.runlength_runOps, callEvents_append, callEvents_ids hids]
  show [] ++ (emitted .initial (idEvents ids ++ [.mark])).flatMap recordBytes = _
  rw [List.nil_append, emitted_eq_records (legible_idEvents hlength), ← map_pieces_idEvents,
    records_map]

theorem runlength_packIndices (hids : ∀ id ∈ ids, id < 2 ^ 16) (hlength : ids.length < 2 ^ 64) :
    (ids.foldl Streams.packIndex .initial).runlength
      = (records id (maximalRuns ids).dropLast).flatMap recordBytes := by
  have hclose := close_packIndices hids hlength
  have hnil := nil_notMem_maximalRuns ids
  rw [Streams.close, run_packIndices hids hlength] at hclose
  rcases List.eq_nil_or_concat' (maximalRuns ids) with hruns | ⟨runs, p, hruns⟩
  · rw [hruns] at hclose ⊢
    exact (List.append_eq_nil_iff.1 hclose).1
  · rw [hruns, pending_lastRun (hruns ▸ hnil), records_append, List.flatMap_append] at hclose
    rw [hruns, List.dropLast_concat]
    exact List.append_cancel_right hclose

end Streams

/-! ## The two packers -/

section Packers

variable {σ : Type} [PackerClass σ]

/-- `pack_format_string_index` for one id after the other. -/
def packIndices (p : σ) (ids : List Nat) : Except Fault σ := ids.foldlM packFormatStringIndex p

theorem Refinement.packIndices {R : σ → Streams → Prop} (hR : Refinement R) {ids : List Nat}
    {p : σ} (h : packIndices PackerClass.fresh ids = .ok p) :
    R p (ids.foldl Streams.packIndex .initial) :=
  hR.packFormatStringIndex.foldlM hR.fresh h

end Packers

theorem Packer.exists_packIndices {n m r : Nat} (hn : 1 ≤ n) (hr : 1 ≤ r) (ids : List Nat) :
    ∃ p : Packer n m r, packIndices PackerClass.fresh ids = .ok p :=
  (packFormatStringIndex_progress hn hr).foldlM refinement.packFormatStringIndex
    (fun _ _ _ => trivial) ids refinement.fresh trivial

/-- Whatever the buffer holds after the first id, the last header is in it. -/
theorem RingbufferPacker.two_le_length_buffer {n m r : Nat} {p : RingbufferPacker n m r}
    {ids : List Nat} (h : packIndices PackerClass.fresh ids = .ok p) :
    p.run = .initial ∨ 2 ≤ p.buffer.length := by
  refine foldlM_preserved (P := fun p : RingbufferPacker n m r =>
    p.run = .initial ∨ 2 ≤ p.buffer.length) ?_ (.inl rfl) h
  intro p index p' hp hpack
  have hwrite : ∀ q q' : RingbufferPacker n m r,
      BinaryLog.bufferOrWrite q (headerBytes index) = .ok q' → 2 ≤ q'.buffer.length := by
    intro q q' hq
    obtain ⟨indices, buffer, -, rfl⟩ := bufferOrWrite_eq_ok hq
    simp
  replace hpack : packFormatStringIndexBody p.beginEntry index = .ok p' := hpack
  rcases packFormatStringIndexBody_cases p.beginEntry index with ⟨hsup, hbody⟩ |
    ⟨-, -, rfl, hbody⟩ | ⟨-, hbody⟩
  · obtain rfl := Except.ok.inj (hbody.symm.trans hpack)
    refine .inr (hp.resolve_left (fun hinitial => ?_))
    -- no id is suppressed right after construction
    have hfirst : RunState.initial.Suppresses index := hinitial ▸ hsup
    obtain ⟨rfl, hne⟩ := (IsOpen.initial.suppresses_iff_of_nil index).1 hfirst
    exact hne rfl
  · simp only [hbody, bind_eq_ok, Except.ok.injEq] at hpack
    obtain ⟨q, hq, rfl⟩ := hpack
    exact .inr (hwrite _ q hq)
  · simp only [hbody, bind_eq_ok, Except.ok.injEq] at hpack
    obtain ⟨q, -, q', hq', rfl⟩ := hpack
    exact .inr (hwrite q q' hq')

/-- Ids fit a ring buffer of three bytes or more: only a full runlength buffer ends the calls. -/
theorem RingbufferPacker.packIndices_yieldsOr {n m r : Nat} (hn : 3 ≤ n) (ids : List Nat) :
    YieldsOr .abort (fun _ : RingbufferPacker n m r => True)
      (packIndices PackerClass.fresh ids) := by
  have hholds : YieldsOr .abort (fun p : RingbufferPacker n m r => ∃ blocks, p.Holds blocks)
      (packIndices PackerClass.fresh ids) := by
    refine YieldsOr.foldlM (I := fun _ (p : RingbufferPacker n m r) => ∃ blocks, p.Holds blocks)
      ids ⟨[], fresh_holds⟩ ?_
    rintro _ id _ _ p ⟨blocks, hp⟩
    have hheader : (p.run.header id).length < n := by
      have hle := p.run.length_header_le id
      omega
    exact (packFormatStringIndex_holds hp id hheader).imp (fun p' hp' => ⟨_, hp'.1⟩)
  exact hholds.imp (fun _ _ => trivial)

/-- The packers follow the maximal runs. After any sequence of fewer than 2^64 ids the members for
    run-length encoding hold the last maximal run, the log stream is the ids of the maximal runs and
    the runlength stream the records of the closed ones; a flush adds the record of the last one.
    No two consecutive headers are equal, and the runs count for all calls. -/
theorem packIndices_maximalRuns {n m r : Nat} (ids : List Nat) (hids : ∀ id ∈ ids, id < 2 ^ 16)
    (hlength : ids.length < 2 ^ 64) :
    (10 ≤ r →
      (1 ≤ n → ∃ p : Packer n m r, packIndices PackerClass.fresh ids = .ok p) ∧
      ∀ p : Packer n m r, packIndices PackerClass.fresh ids = .ok p →
        p.run = lastRun (maximalRuns ids) ∧
        p.logFile.contents = (runHeaders (maximalRuns ids)).flatMap headerBytes ∧
        p.runlengthFile.contents
          = (records id (maximalRuns ids).dropLast).flatMap recordBytes ∧
        ∃ p', p.flush = .ok p' ∧
          p'.runlengthFile.spilled = (records id (maximalRuns ids)).flatMap recordBytes) ∧
    (3 ≤ n → ∀ f, packIndices (PackerClass.fresh : RingbufferPacker n m r) ids = .error f →
      f = .abort) ∧
    (∀ p : RingbufferPacker n m r, packIndices PackerClass.fresh ids = .ok p →
      p.run = lastRun (maximalRuns ids) ∧
      (p.buffer <:+ (runHeaders (maximalRuns ids)).flatMap headerBytes ∧
        p.bufferIndex = 2 * (runHeaders (maximalRuns ids)).length ∧
        (ids ≠ [] → 2 ≤ p.buffer.length)) ∧
      p.runlengthBuffer = (records id (maximalRuns ids).dropLast).flatMap recordBytes ∧
      ∀ p', p.flush = .ok p' →
        p'.runlengthBuffer = (records id (maximalRuns ids)).flatMap recordBytes) ∧
    (runHeaders (maximalRuns ids)).IsChain (· ≠ ·) ∧
    ((records id (maximalRuns ids)).map Prod.snd).sum + (runHeaders (maximalRuns ids)).length
      = ids.length + (records id (maximalRuns ids)).length := by
  have hrun := run_packIndices hids hlength
  have hlog := log_packIndices hids hlength
  have hclosed := runlength_packIndices hids hlength
  have hall := close_packIndices hids hlength
  have hnil := nil_notMem_maximalRuns ids
  refine ⟨fun hr => ⟨fun hn => ?_, fun p hp => ?_⟩, fun hn f hf => ?_, fun p hp => ?_,
    isChain_runHeaders ids, ?_⟩
  · exact Packer.exists_packIndices hn (by omega) ids
  · have hrel := Packer.refinement.packIndices hp
    obtain ⟨p', hflush⟩ := Packer.exists_flush (by omega) p
    refine ⟨hrel.run.trans hrun, hrel.log.trans hlog, (hrel.runlength hr).trans hclosed, p', hflush,
      ?_⟩
    have hspilled := (Packer.flush_tracks p _ p' hrel hflush).runlength hr
    rw [hall, SpillBuffer.contents, (Packer.held_of_flush hflush).2.2, List.append_nil] at hspilled
    exact hspilled
  · exact (RingbufferPacker.packIndices_yieldsOr hn ids).eq_of_error hf
  · have hrel := RingbufferPacker.refinement.packIndices hp
    refine ⟨hrel.run.trans hrun, ⟨hlog ▸ hrel.buffer, ?_, fun hne => ?_⟩,
      hrel.runlengthBuffer.trans hclosed, fun p' hflush => ?_⟩
    · rw [hrel.bufferIndex, hlog, length_flatMap_headerBytes]
    · refine (RingbufferPacker.two_le_length_buffer hp).resolve_left (fun hinitial => ?_)
      exact lastRun_ne_initial hne ((hrel.run.trans hrun).symm.trans hinitial)
    · exact (RingbufferPacker.writeCurrentRunlength_tracks p _ p' hrel hflush).runlengthBuffer.trans
        hall
  · rw [length_runHeaders hnil, sum_records id hnil, maximalRuns, List.flatten_splitBy]

/-- Two calls with id 3, then one with id 0, through the smallest buffers. -/
theorem packIndices_maximalRuns_three :
    ∃ p : Packer 1 2 10, packIndices PackerClass.fresh [3, 3, 0] = .ok p ∧ p.run = ⟨0, 1⟩ ∧
      p.logFile.contents = [3, 0, 0, 0] ∧
      p.runlengthFile.contents = [3, 0, 2, 0, 0, 0, 0, 0, 0, 0] := by
  obtain ⟨hpacker, -⟩ := packIndices_maximalRuns (n := 1) (m := 2) (r := 10) [3, 3, 0] (by decide)
    (by decide)
  obtain ⟨p, hp⟩ := (hpacker le_rfl).1 le_rfl
  obtain ⟨hrun, hlog, hrunlength, -⟩ := (hpacker le_rfl).2 p hp
  exact ⟨p, hp, hrun, hlog, hrunlength⟩

end BinaryLog
