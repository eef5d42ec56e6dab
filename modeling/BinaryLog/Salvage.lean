import BinaryLog.Recovery

set_option autoImplicit false

/-! # A log file beside other records

The decoder takes the number of calls behind an id from the head of the runlength file, whatever
that file is: the one written with the log, a cut of it, or nothing at all. Where neighbouring
pieces of the log have different ids (`MaximalPieces`, so every run without flushes), the log can
be read back in one way only, and `parseAndPrint_pieces_iff` says for which records the decoder
finds it: they must lead through the pieces. Without a runlength file this means that no id comes
twice in a row (`unpack_without_records_iff`). -/

namespace BinaryLog

open Bytes Simulation Runs

/-! ## Maximal pieces -/

/-- Neighbouring pieces have different ids: no flush has cut a run in two. -/
def MaximalPieces (es : List (Event Call)) : Prop :=
  (pieces es).IsChain (fun p q => keyOf Call.index p ≠ keyOf Call.index q)

instance (es : List (Event Call)) : Decidable (MaximalPieces es) := by
  unfold MaximalPieces; infer_instance

theorem MaximalPieces.cutsOnlyZero {es : List (Event Call)} (h : MaximalPieces es) :
    CutsOnlyZero (pieces es) :=
  List.IsChain.imp (fun _ _ hne heq => absurd heq hne) h

/-- Maximal pieces are legible, as long as the run length does not wrap. -/
theorem MaximalPieces.legible {es : List (Event Call)} (h : MaximalPieces es)
    (hcount : (items es).length < 2 ^ 64) : Legible .initial es :=
  (legible_iff es).2 ⟨h.cutsOnlyZero, fun _ hp => (length_le_of_mem_pieces hp).trans_lt hcount⟩

/-! ## Records that lead through the pieces -/

instance (r : Nat × Nat) : Decidable (ValidRecord r) := by
  unfold ValidRecord; infer_instance

/-- Beside any records, the decoder returns the calls of maximal pieces exactly if the records lead
    through them: every other way to group the calls has more ids than the log. -/
theorem parseAndPrint_pieces_iff {table : List IndexEntry} {ps : List (List Call)}
    (h : ∀ p ∈ ps, Readable table p)
    (hchain : ps.IsChain (fun p q => keyOf Call.index p ≠ keyOf Call.index q))
    {rs : List (Nat × Nat)} (hrs : ∀ r ∈ rs, ValidRecord r) :
    (∃ rest, parseAndPrint table (ps.flatMap pieceBytes) (rs.flatMap recordBytes)
      = some (ps.flatten.map (Call.printed table), rest)) ↔
    LeadThrough Call.index rs ps := by
  have hnil : [] ∉ ps := fun hmem => (h [] hmem).ne_nil rfl
  rw [← exists_follows_iff hnil]
  constructor
  · rintro ⟨rest, hprint⟩
    have hdesc : ∀ c ∈ ps.flatten, c.Described table := by
      intro c hc
      obtain ⟨p, hp, hcp⟩ := List.mem_flatten.1 hc
      exact (h p hp).described c hcp
    obtain ⟨groups, left, hflatten, hfile, hgroups, hfollows⟩ :=
      parseAndPrintLoop_eq_some hdesc hrs hprint
    -- the same bytes and the same arguments leave the same number of ids
    have hpieces := length_flatMap_pieceBytes (fun p hp => (h p hp).ne_nil)
    have hread := length_flatMap_pieceBytes (fun g hg => (hgroups g hg).1)
    rw [← hfile] at hread
    rw [hflatten] at hread
    obtain ⟨-, hunique⟩ := length_le_of_flatten_eq hgroups
      (fun p hp => ⟨(h p hp).ne_nil, (h p hp).homogeneous⟩) hchain hflatten
    obtain rfl := hunique (by omega)
    exact ⟨left, hfollows⟩
  · rintro ⟨left, hfollows⟩
    exact ⟨_, parseAndPrintLoop_append hfollows hrs h le_rfl⟩

/-- The same for the events of a run. -/
theorem parseAndPrint_beside_iff (table : List IndexEntry) {es : List (Event Call)}
    (hdesc : ∀ c ∈ items es, c.Described table) (hindex : ∀ c ∈ items es, c.index < 2 ^ 16)
    (hmaximal : MaximalPieces es) (hcount : (items es).length < 2 ^ 64) {rs : List (Nat × Nat)}
    (hrs : ∀ r ∈ rs, ValidRecord r) :
    (∃ rest, parseAndPrint table (entries .initial es).flatten (rs.flatMap recordBytes)
      = some ((items es).map (Call.printed table), rest)) ↔
    LeadThrough Call.index rs (pieces es) := by
  rw [flatten_entries (hmaximal.legible hcount), ← flatten_pieces es]
  exact parseAndPrint_pieces_iff (readable_of_mem_pieces hdesc hindex) hmaximal hrs

/-- Maximal pieces are single calls exactly if no id comes twice in a row. -/
theorem MaximalPieces.single_iff {es : List (Event Call)} (h : MaximalPieces es) :
    (∀ p ∈ pieces es, p.length = 1) ↔ ((items es).map Call.index).IsChain (· ≠ ·) := by
  rw [List.isChain_map]
  constructor
  · intro hsingle
    have hitems : ∀ ps : List (List Call), (∀ p ∈ ps, p.length = 1) →
        ps = ps.flatten.map (fun c => [c]) := by
      intro ps hps
      induction ps with
      | nil => rfl
      | cons p ps ih =>
        obtain ⟨c, rfl⟩ := List.length_eq_one_iff.1 (hps p List.mem_cons_self)
        rw [List.flatten_cons, List.map_append,
          ← ih (fun q hq => hps q (List.mem_cons_of_mem _ hq))]
        rfl
    unfold MaximalPieces at h
    rw [hitems _ hsingle, flatten_pieces, List.isChain_map] at h
    exact h.imp (fun a b hne heq => hne (congrArg some heq))
  · intro hchain p hp
    have hhom := homogeneous_of_mem_cut Call.index [] (Homogeneous.nil Call.index) es p hp
    have hinfix := List.infix_of_mem_flatten hp
    rw [flatten_pieces] at hinfix
    rcases p with _ | ⟨a, _ | ⟨b, p⟩⟩
    · exact absurd hp (nil_notMem_pieces es)
    · rfl
    · have hpair := List.isChain_cons_cons.1 <| List.IsChain.infix hchain hinfix
      exact absurd (hhom a (by simp) b (by simp)) hpair.1

/-! ## Files -/

/-- The unpacker on the index and the log of a run beside any records. -/
theorem Files.unpack_records_iff {ops : List Op} (h : WellTyped ops)
    (hmaximal : MaximalPieces (callEvents ops)) (hcount : (calls ops).length < 2 ^ 64)
    {rs : List (Nat × Nat)} (hrs : ∀ r ∈ rs, ValidRecord r) :
    (∃ rest, Files.unpack ⟨(finalFiles ops).index, (finalFiles ops).log, rs.flatMap recordBytes⟩
      = some ((calls ops).map (Call.printed (rowTable ops)), rest)) ↔
    LeadThrough Call.index rs (pieces (callEvents ops)) := by
  have hparse : parse (Files.mk (finalFiles ops).index (finalFiles ops).log
      (rs.flatMap recordBytes)).index = some (rowTable ops) := h.parse_index
  rw [Files.unpack_of_parse hparse]
  exact parseAndPrint_beside_iff _ h.described (fun c hc => index_lt_of_mem_calls hc) hmaximal
    hcount hrs

/-- The index and the log that `packer` leaves behind after a flush, also with a runlength buffer
    too small for a record. -/
theorem Packer.index_log_of_run_flush {n m r : Nat} {ops : List Op} {lg : Logger (Packer n m r)}
    (h : Logger.run .fresh (ops ++ [.flush]) = .ok lg) :
    lg.packer.files.index = (finalFiles ops).index ∧
      lg.packer.files.log = (finalFiles ops).log := by
  have hrel := Packer.refinement.run h
  obtain ⟨hspilledLog, hspilledIndex, -⟩ := Packer.spilled_eq_contents h
  obtain ⟨hindex, hlog, -⟩ := Streams.runOps_flush ops
  exact ⟨hspilledIndex.trans (hrel.index.trans hindex), hspilledLog.trans (hrel.log.trans hlog)⟩

/-- Whatever valid records the log file of `packer` is read beside (for every buffer size): if no
    flush cut a run in two, the unpacker stays in bounds and prints the calls exactly if the records
    lead through the maximal runs. -/
theorem unpack_beside_iff {n m r : Nat} (hn : 1 ≤ n) (hm : 2 ≤ m) (hr : 1 ≤ r) (ops : List Op)
    (hmaximal : MaximalPieces (callEvents ops)) (h : WellTyped ops)
    (hcount : (calls ops).length < 2 ^ 64) :
    ∃ lg : Logger (Packer n m r), Logger.run .fresh (ops ++ [.flush]) = .ok lg ∧
      ∀ rs : List (Nat × Nat), (∀ r ∈ rs, ValidRecord r) →
        ((∃ rest, unpack lg.packer.indexFile.spilled lg.packer.logFile.spilled
            (rs.flatMap recordBytes)
          = some ((calls ops).map (Call.printed (rowTable ops)), rest)) ↔
        LeadThrough Call.index rs (pieces (callEvents ops))) := by
  obtain ⟨lg, hlg⟩ := Packer.run_isSome hn hm hr .fresh (ops ++ [.flush])
  obtain ⟨hindex, hlog⟩ := Packer.index_log_of_run_flush hlg
  refine ⟨lg, hlg, fun rs hrs => ?_⟩
  show (∃ rest, Files.unpack ⟨lg.packer.files.index, lg.packer.files.log, _⟩ = _) ↔ _
  rw [hindex, hlog]
  exact Files.unpack_records_iff h hmaximal hcount hrs

/-- Two calls of a row and one of another: a record that belongs to no call is left over, a wrong
    length is not followed. -/
theorem unpack_beside_iff_three_calls :
    ∃ lg : Logger (Packer 1 2 1), Logger.run .fresh [.logIndex (.literal [65]) [],
        .logIndex (.literal [66]) [], .log 0 [], .log 0 [], .log 1 [], .flush] = .ok lg ∧
      (∃ rest, unpack lg.packer.indexFile.spilled lg.packer.logFile.spilled
          ([(0, 2), (5, 9)].flatMap recordBytes)
        = some ([⟨0, [65], []⟩, ⟨0, [65], []⟩, ⟨1, [66], []⟩], rest)) ∧
      ¬ ∃ rest, unpack lg.packer.indexFile.spilled lg.packer.logFile.spilled
          ([(0, 3)].flatMap recordBytes)
        = some ([⟨0, [65], []⟩, ⟨0, [65], []⟩, ⟨1, [66], []⟩], rest) := by
  obtain ⟨lg, hlg, hiff⟩ := unpack_beside_iff (n := 1) (m := 2) (r := 1) (by decide) (by decide)
    (by decide) [.logIndex (.literal [65]) [], .logIndex (.literal [66]) [], .log 0 [], .log 0 [],
      .log 1 []] (by decide) (by decide) (by decide)
  refine ⟨lg, hlg, (hiff [(0, 2), (5, 9)] (by decide)).2 ?_, fun hprint => ?_⟩
  · exact (exists_follows_iff (nil_notMem_pieces _)).1
      ⟨[(5, 9)], .run _ _ _ _ _ _ (.single _ _ _ _ (by decide) (.nil _))⟩
  · obtain ⟨left, hrecords, -⟩ := (hiff [(0, 3)] (by decide)).1 hprint
    -- the first record is the run's own
    have hhead : some (0, 3) = some (0, 2) := congrArg List.head? hrecords
    exact absurd hhead (by decide)

/-- Without its runlength file the log is read back in bounds exactly if no id comes twice in a
    row. -/
theorem unpack_without_records_iff {n m r : Nat} (hn : 1 ≤ n) (hm : 2 ≤ m) (hr : 1 ≤ r)
    (ops : List Op) (hmaximal : MaximalPieces (callEvents ops)) (h : WellTyped ops)
    (hcount : (calls ops).length < 2 ^ 64) :
    ∃ lg : Logger (Packer n m r), Logger.run .fresh (ops ++ [.flush]) = .ok lg ∧
      ((∃ rest, unpack lg.packer.indexFile.spilled lg.packer.logFile.spilled []
          = some ((calls ops).map (Call.printed (rowTable ops)), rest)) ↔
        ((calls ops).map Call.index).IsChain (· ≠ ·)) := by
  obtain ⟨lg, hlg⟩ := Packer.run_isSome hn hm hr .fresh (ops ++ [.flush])
  obtain ⟨hindex, hlog⟩ := Packer.index_log_of_run_flush hlg
  refine ⟨lg, hlg, ?_⟩
  have hnone : ∀ r ∈ ([] : List (Nat × Nat)), ValidRecord r := by simp
  have hbeside := Files.unpack_records_iff h hmaximal hcount hnone
  rw [← hindex, ← hlog, leadThrough_nil_iff (nil_notMem_pieces _), hmaximal.single_iff] at hbeside
  exact hbeside

/-- Two rows called in turn need no runlength file. -/
theorem unpack_without_records_in_turn :
    ∃ lg : Logger (Packer 1 2 1), Logger.run .fresh [.logIndex (.literal [65]) [],
        .logIndex (.literal [66]) [], .log 0 [], .log 1 [], .log 0 [], .flush] = .ok lg ∧
      ∃ rest, unpack lg.packer.indexFile.spilled lg.packer.logFile.spilled []
        = some ([⟨0, [65], []⟩, ⟨1, [66], []⟩, ⟨0, [65], []⟩], rest) := by
  obtain ⟨lg, hlg, hiff⟩ := unpack_without_records_iff (n := 1) (m := 2) (r := 1) (by decide)
    (by decide) (by decide) [.logIndex (.literal [65]) [], .logIndex (.literal [66]) [], .log 0 [],
      .log 1 [], .log 0 []] (by decide) (by decide) (by decide)
  exact ⟨lg, hlg, hiff.2 (by decide)⟩

end BinaryLog
