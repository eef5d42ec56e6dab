import BinaryLog.RingWindow

set_option autoImplicit false

/-! # Reading a ring buffer snapshot

Eviction takes whole entries from the log, but the id of a run is written with its first entry only,
and the runlength buffer keeps the records of evicted runs. `SnapshotReadable` says when neither
shows: the bytes kept start with the header of a run, and the records, read from the first one on,
fit the kept runs. `ringbuffer_snapshot_iff` proves that this is exactly when the decoder returns
the calls whose entries are kept. -/

namespace BinaryLog

open Bytes Simulation Runs Window

/-! ## Kept entries -/

theorem length_flatMap_pieceEntries (ps : List (List Call)) :
    (ps.flatMap pieceEntries).length = ps.flatten.length := by
  induction ps with
  | nil => rfl
  | cons p ps ih => simp [ih]

theorem drop_pieceEntries_boundary (dropped kept : List (List Call)) :
    ((dropped ++ kept).flatMap pieceEntries).drop dropped.flatten.length
      = kept.flatMap pieceEntries := by
  rw [List.flatMap_append, ← length_flatMap_pieceEntries, List.drop_left]

/-- Inside a piece the entries are arguments only, without an id in front. -/
theorem drop_pieceEntries_inside (dropped kept : List (List Call)) {front back : List Call}
    (hfront : front ≠ []) :
    ((dropped ++ (front ++ back) :: kept).flatMap pieceEntries).drop
        (dropped.flatten.length + front.length)
      = back.map Call.argBytes ++ kept.flatMap pieceEntries := by
  obtain ⟨c, front, rfl⟩ := List.exists_cons_of_ne_nil hfront
  have hlength : (front.map Call.argBytes).length = front.length := List.length_map _
  rw [← List.drop_drop, drop_pieceEntries_boundary, List.flatMap_cons, List.cons_append,
    pieceEntries, List.length_cons, List.cons_append, List.drop_succ_cons, List.map_append,
    List.append_assoc, ← hlength, List.drop_left]

/-- The condition under which a snapshot can be read. The trimmed entries are the longest suffix of
    whole entries shorter than the buffer. -/
def SnapshotReadable (logBufferSize : Nat) (ops : List Op) : Prop :=
  ∃ dropped kept left, pieces (callEvents ops) = dropped ++ kept ∧
    (trim logBufferSize 0 (entries .initial (callEvents ops))).flatten
      = kept.flatMap pieceBytes ∧
    Follows Call.index kept (records Call.index (pieces (callEvents ops))) left

/-! ## Decoding -/

section Decode

variable {table : List IndexEntry} {es : List (Event Call)} {i : Nat}

/-- A position in the calls, in the pieces and in the entries: between two pieces or inside one. -/
theorem exists_split_entries (hlegible : Legible .initial es) :
    (∃ dropped kept, pieces es = dropped ++ kept ∧ (items es).drop i = kept.flatten ∧
      ((entries .initial es).drop i).flatten = kept.flatMap pieceBytes) ∨
    ∃ dropped front back kept, pieces es = dropped ++ (front ++ back) :: kept ∧ front ≠ [] ∧
      back ≠ [] ∧ (items es).drop i = (back :: kept).flatten ∧
      ((entries .initial es).drop i).flatten
        = back.flatMap Call.argBytes ++ kept.flatMap pieceBytes := by
  rw [entries_eq_pieceEntries hlegible, ← flatten_pieces es]
  rcases Nat.le_total i (pieces es).flatten.length with hle | hge
  · rcases exists_split_flatten (pieces es) hle with ⟨dropped, kept, hpieces, rfl⟩ |
      ⟨dropped, front, back, kept, hpieces, hfront, hback, rfl⟩
    · refine .inl ⟨dropped, kept, hpieces, ?_, ?_⟩
      · rw [hpieces, List.flatten_append, List.drop_left]
      · rw [hpieces, drop_pieceEntries_boundary, flatten_flatMap_pieceEntries]
    · refine .inr ⟨dropped, front, back, kept, hpieces, hfront, hback, ?_, ?_⟩
      · rw [hpieces, List.flatten_append, List.flatten_cons, List.flatten_cons,
          ← List.drop_drop, List.drop_left, List.append_assoc, List.drop_left]
      · rw [hpieces, drop_pieceEntries_inside dropped kept hfront, List.flatten_append,
          flatten_flatMap_pieceEntries]
        rfl
  · refine .inl ⟨pieces es, [], by simp, ?_, ?_⟩
    · rw [List.drop_eq_nil_of_le hge]
      rfl
    · rw [List.drop_eq_nil_of_le (by rw [length_flatMap_pieceEntries]; exact hge)]
      rfl

/-- A decoder that returns exactly the calls behind the kept bytes started at the header of a run:
    an id for every group leaves none for a run that was cut open. -/
theorem exists_kept_of_parseAndPrint (hlegible : Legible .initial es)
    (hchain : (pieces es).IsChain (fun p q => keyOf Call.index p ≠ keyOf Call.index q))
    (hdesc : ∀ c ∈ items es, c.Described table) (hindex : ∀ c ∈ items es, c.index < 2 ^ 16)
    {rs : List (Nat × Nat)} (hrs : ∀ r ∈ rs, ValidRecord r) {rest : List UInt8}
    (h : parseAndPrint table ((entries .initial es).drop i).flatten (rs.flatMap recordBytes)
      = some (((items es).drop i).map (Call.printed table), rest)) :
    ∃ dropped kept left, pieces es = dropped ++ kept ∧
      ((entries .initial es).drop i).flatten = kept.flatMap pieceBytes ∧
      Follows Call.index kept rs left := by
  obtain ⟨groups, left, hflatten, hfile, hgroups, hfollows⟩ :=
    parseAndPrintLoop_eq_some (fun c hc => hdesc c (List.mem_of_mem_drop hc)) hrs h
  have hread := readable_of_mem_pieces hdesc hindex
  have hbytes := length_flatMap_pieceBytes (fun g hg => (hgroups g hg).1)
  rw [← hfile, hflatten] at hbytes
  rcases exists_split_entries (i := i) hlegible with ⟨dropped, kept, hpieces, hcalls, hentries⟩ |
    ⟨dropped, front, back, kept, hpieces, hfront, hback, hcalls, hentries⟩
  · -- as many groups as runs, so the groups are the runs
    have hkept : ∀ p ∈ kept, p ≠ [] ∧ Homogeneous Call.index p := by
      intro p hp
      have hp' := hread p (by rw [hpieces]; exact List.mem_append_right _ hp)
      exact ⟨hp'.ne_nil, hp'.homogeneous⟩
    rw [hpieces] at hchain
    have hmaximal := length_le_of_flatten_eq hgroups hkept hchain.right_of_append
      (hflatten.trans hcalls)
    have hlength : groups.length = kept.length := by
      have hkeptBytes := length_flatMap_pieceBytes (fun p hp => (hkept p hp).1)
      rw [hentries, hkeptBytes, ← hcalls] at hbytes
      omega
    obtain rfl := hmaximal.2 hlength
    exact ⟨dropped, groups, left, hpieces, hentries, hfollows⟩
  · -- a run was cut open: the decoder needs an id for its rest, and there are no bytes for one
    exfalso
    have hcut := hread (front ++ back) (by rw [hpieces]; simp)
    have hkept : ∀ p ∈ back :: kept, p ≠ [] ∧ Homogeneous Call.index p := by
      intro p hp
      rcases List.mem_cons.1 hp with rfl | hp
      · exact ⟨hback, fun a ha b hb => hcut.homogeneous a (List.mem_append_right _ ha) b
          (List.mem_append_right _ hb)⟩
      · have hp' := hread p (by rw [hpieces]; simp [hp])
        exact ⟨hp'.ne_nil, hp'.homogeneous⟩
    have hkey : keyOf Call.index (front ++ back) = keyOf Call.index back := by
      obtain ⟨a, front, rfl⟩ := List.exists_cons_of_ne_nil hfront
      obtain ⟨b, back, rfl⟩ := List.exists_cons_of_ne_nil hback
      exact congrArg some (hcut.homogeneous a (by simp) b (by simp))
    rw [hpieces] at hchain
    obtain ⟨hnext, hchain'⟩ := List.isChain_cons.1 hchain.right_of_append
    have hmaximal := length_le_of_flatten_eq hgroups hkept
      (List.IsChain.cons hchain' (fun q hq => hkey ▸ hnext q hq)) (hflatten.trans hcalls)
    have hkeptBytes := length_flatMap_pieceBytes
      (fun p hp => (hkept p (List.mem_cons_of_mem _ hp)).1)
    rw [hentries, List.length_append, hkeptBytes, hcalls, List.flatten_cons, List.flatMap_append,
      List.length_append] at hbytes
    simp only [List.length_cons] at hmaximal
    omega

end Decode

/-! ## Snapshots -/

/-- The buffers after a final flush: the newest entries, and all records. -/
theorem RingbufferPacker.files_eq {n m r : Nat} {ops : List Op}
    (hsmall : ∀ e ∈ entries .initial (callEvents ops), e.length < n)
    {lg : Logger (RingbufferPacker n m r)} (hlg : Logger.run .fresh (ops ++ [.flush]) = .ok lg) :
    lg.packer.files = ⟨(finalFiles ops).index,
      (trim n 0 (entries .initial (callEvents ops))).flatten, (finalFiles ops).runlength⟩ := by
  have hsame : entries .initial (callEvents (ops ++ [.flush]))
      = entries .initial (callEvents ops) := by
    rw [callEvents_concat]
    exact entries_concat_mark _ _
  have htracked := (run_tracked (m := m) (r := r) (ops ++ [.flush]) (hsame ▸ hsmall)).of_ok hlg
  obtain ⟨kept, base, hwindow, hbuffer, -, -⟩ := htracked.holds
  have hrel := RingbufferPacker.refinement.run hlg
  obtain ⟨hindex, -, hrunlength⟩ := Streams.runOps_flush ops
  have hindexBuffer := hrel.indexBuffer.trans hindex
  have hrunlengthBuffer := hrel.runlengthBuffer.trans hrunlength
  rw [hsame] at hwindow
  rw [RingbufferPacker.files, getIndexBuffer, getLogBuffer, getRunlengthBuffer, hindexBuffer,
    hrunlengthBuffer, hbuffer, hwindow.trim_eq]

/-- A snapshot of a run that would be decoded if nothing were evicted: the decoder returns exactly
    the calls whose entries are in the buffer if and only if the kept bytes start with the header of
    a run and the records, from the first one on, fit the kept runs. -/
theorem ringbuffer_snapshot_iff {n m r : Nat} (ops : List Op) (hflush : Op.flush ∉ ops)
    (hconstants : SameConstants ops)
    (hsmall : ∀ e ∈ entries .initial (callEvents ops), e.length < n)
    (hplain : (finalFiles ops).Recover ops) (lg : Logger (RingbufferPacker n m r))
    (hlg : Logger.run .fresh (ops ++ [.flush]) = .ok lg) :
    (∃ i rest, lg.packer.getLogBuffer = ((entries .initial (callEvents ops)).drop i).flatten ∧
      lg.packer.files.unpack
        = some (((calls ops).drop i).map (Call.printed (rowTable ops)), rest)) ↔
      SnapshotReadable n ops := by
  have h := wellTyped_of_recover hconstants hplain
  have hlegible := ((recover_finalFiles_iff h).1 hplain).1
  have hindex : ∀ c ∈ items (callEvents ops), c.index < 2 ^ 16 :=
    fun c hc => index_lt_of_mem_calls hc
  have hread := readable_of_mem_pieces h.described hindex
  have hrs := validRecord_of_mem_records hread ((legible_iff _).1 hlegible).2
  have hchain : (pieces (callEvents ops)).IsChain
      (fun p q => keyOf Call.index p ≠ keyOf Call.index q) := by
    rw [pieces, callEvents_of_noFlush hflush]
    exact isChain_cut_items Call.index [] (calls ops)
  have hfiles := RingbufferPacker.files_eq hsmall hlg
  have hbuffer : lg.packer.getLogBuffer = (trim n 0 (entries .initial (callEvents ops))).flatten :=
    congrArg Files.log hfiles
  have hunpack : lg.packer.files.unpack = parseAndPrint (rowTable ops)
      (trim n 0 (entries .initial (callEvents ops))).flatten
      ((records Call.index (pieces (callEvents ops))).flatMap recordBytes) := by
    rw [hfiles, ← emitted_eq_records hlegible]
    exact Files.unpack_of_parse h.parse_index
  rw [hbuffer, hunpack]
  constructor
  · rintro ⟨i, rest, hkept, hdecode⟩
    rw [hkept] at hdecode
    obtain ⟨dropped, kept, left, hpieces, hentries, hfollows⟩ :=
      exists_kept_of_parseAndPrint hlegible hchain h.described hindex hrs hdecode
    exact ⟨dropped, kept, left, hpieces, hkept.trans hentries, hfollows⟩
  · rintro ⟨dropped, kept, left, hpieces, hkept, hfollows⟩
    refine ⟨dropped.flatten.length, left.flatMap recordBytes, ?_, ?_⟩
    · rw [hkept, entries_eq_pieceEntries hlegible, hpieces, drop_pieceEntries_boundary,
        flatten_flatMap_pieceEntries]
    · have hcalls : (calls ops).drop dropped.flatten.length = kept.flatten := by
        rw [calls, ← flatten_pieces, hpieces, List.flatten_append, List.drop_left]
      rw [hcalls, hkept]
      exact parseAndPrintLoop_append hfollows hrs
        (fun p hp => hread p (by rw [hpieces]; exact List.mem_append_right _ hp)) le_rfl

/-- Two rows, called 0, 1, 0. -/
def threeSingleCalls : List Op :=
  [.logIndex (.literal [65]) [.dynamic (.uint8 1)],
    .logIndex (.literal [66]) [], .log 0 [.dynamic (.uint8 1)], .log 1 [],
    .log 0 [.dynamic (.uint8 2)]]

/-- Of three single calls the first one is evicted. -/
theorem ringbuffer_snapshot_single :
    ∃ lg : Logger (RingbufferPacker 6 64 16),
      Logger.run .fresh (threeSingleCalls ++ [.flush]) = .ok lg ∧
      ∃ i rest, lg.packer.getLogBuffer
          = ((entries .initial (callEvents threeSingleCalls)).drop i).flatten ∧
        lg.packer.files.unpack = some (((calls threeSingleCalls).drop i).map
          (Call.printed (rowTable threeSingleCalls)), rest) := by
  obtain ⟨lg, hlg⟩ : ∃ lg : Logger (RingbufferPacker 6 64 16),
      Logger.run .fresh (threeSingleCalls ++ [.flush]) = .ok lg := ⟨_, rfl⟩
  refine ⟨lg, hlg, (ringbuffer_snapshot_iff threeSingleCalls (by simp [threeSingleCalls])
    (by decide) (by decide) ⟨by decide, [], by decide⟩ lg hlg).2 ?_⟩
  exact ⟨[[⟨0, [.dynamic (.uint8 1)]⟩]],
    [[⟨1, []⟩], [⟨0, [.dynamic (.uint8 2)]⟩]], [], rfl, by decide,
    .single _ _ _ _ (by decide) (.single _ _ _ _ (by decide) (.nil _))⟩

/-- A row with a one-byte argument, called six times. -/
def sixCalls : List Op :=
  .logIndex (.literal [65]) [.dynamic (.uint8 1)] ::
    List.replicate 6 (.log 0 [.dynamic (.uint8 1)])

/-- The first of six calls is evicted, and the id of the run with it. -/
theorem ringbuffer_snapshot_loses_id :
    (∀ e ∈ entries .initial (callEvents sixCalls), e.length < 6) ∧
    (finalFiles sixCalls).Recover sixCalls ∧
    ∃ lg : Logger (RingbufferPacker 6 64 16),
      Logger.run .fresh (sixCalls ++ [.flush]) = .ok lg ∧
      lg.packer.getLogBuffer = [1, 1, 1, 1, 1] ∧ lg.packer.files.unpack = none := by
  refine ⟨by decide, ⟨by decide, [], by decide⟩, ?_⟩
  have hrun : (Logger.run (.fresh : Logger (RingbufferPacker 6 64 16))
      (sixCalls ++ [.flush])).toOption.all (fun lg =>
        decide (lg.packer.getLogBuffer = [1, 1, 1, 1, 1] ∧ lg.packer.files.unpack = none)) = true ∧
      (Logger.run (.fresh : Logger (RingbufferPacker 6 64 16))
        (sixCalls ++ [.flush])).toOption.isSome = true := by decide +kernel
  cases hlg : Logger.run (.fresh : Logger (RingbufferPacker 6 64 16)) (sixCalls ++ [.flush]) with
  | error f =>
    rw [hlg] at hrun
    exact absurd hrun.2 (by simp [Except.toOption])
  | ok lg =>
    rw [hlg] at hrun
    exact ⟨lg, rfl, of_decide_eq_true hrun.1⟩

end BinaryLog
