import BinaryLog.Agreement
import BinaryLog.Decoding

set_option autoImplicit false

/-! # Which runs can be read back

`decode_iff` settles, for calls and flushes in any order, when the decoder returns the calls: the
pieces the log is cut into must be unambiguous, flushes must cut runs of id 0 only, and no piece may
be longer than its record can say. The two theorems about loggers follow from it.
`unpack_iff_unambiguous` is the case without flushes, where the pieces are the maximal runs, and
`flush_recovers_iff` says when inserting flushes into a run that is read back keeps it so. -/

namespace BinaryLog

open Bytes Simulation Runs

/-! ## Streams -/

section Events

variable {table : List IndexEntry} {es : List (Event Call)}

theorem readable_of_mem_pieces (hdesc : ∀ c ∈ items es, c.Described table)
    (hindex : ∀ c ∈ items es, c.index < 2 ^ 16) : ∀ p ∈ pieces es, Readable table p := by
  intro p hp
  have hmem : ∀ c ∈ p, c ∈ items es := by
    intro c hc
    have hflat : c ∈ (pieces es).flatten := List.mem_flatten.2 ⟨p, hp, hc⟩
    rwa [flatten_pieces] at hflat
  exact {
    ne_nil := by
      rintro rfl
      exact nil_notMem_pieces es hp
    homogeneous := homogeneous_of_mem_cut Call.index [] (Homogeneous.nil Call.index) es p hp
    described := fun c hc => hdesc c (hmem c hc)
    index := fun c hc => hindex c (hmem c hc) }

/-- A legible run with unambiguous pieces is decoded to its calls, and nothing is left over. -/
theorem parseAndPrint_of_legible (hdesc : ∀ c ∈ items es, c.Described table)
    (hindex : ∀ c ∈ items es, c.index < 2 ^ 16) (hlegible : Legible .initial es)
    (hunambiguous : Unambiguous ((pieces es).map (List.map Call.index))) :
    parseAndPrint table (entries .initial es).flatten
        ((emitted .initial (es ++ [.mark])).flatMap recordBytes)
      = some ((items es).map (Call.printed table), []) := by
  have hread := readable_of_mem_pieces hdesc hindex
  have hrs := validRecord_of_mem_records hread ((legible_iff es).1 hlegible).2
  have hfollows := follows_records Call.index (pieces es) (nil_notMem_pieces es)
    hunambiguous
  rw [parseAndPrint, flatten_entries hlegible, emitted_eq_records hlegible,
    parseAndPrintLoop_append hfollows hrs hread le_rfl, flatten_pieces]
  rfl

theorem validRecord_of_mem_final (hindex : ∀ c ∈ items es, c.index < 2 ^ 16) :
    ∀ r ∈ emitted .initial (es ++ [.mark]), ValidRecord r := by
  refine validRecord_of_mem_emitted RunState.Valid.initial (fun c hc => ?_)
  rw [items_append] at hc
  exact hindex c (by simpa [items] using hc)

/-- The decoder returns the calls exactly for legible runs with unambiguous pieces. If it does, then
    the ids it read and the records it used stand for all calls, and that leaves the encoder no
    slack. -/
theorem decode_iff (hdesc : ∀ c ∈ items es, c.Described table)
    (hindex : ∀ c ∈ items es, c.index < 2 ^ 16) :
    (∃ rest, parseAndPrint table (entries .initial es).flatten
        ((emitted .initial (es ++ [.mark])).flatMap recordBytes)
      = some ((items es).map (Call.printed table), rest)) ↔
    Legible .initial es ∧ Unambiguous ((pieces es).map (List.map Call.index)) := by
  constructor
  · rintro ⟨rest, hdecode⟩
    have hlegible : Legible .initial es := by
      obtain ⟨groups, left, hflatten, hfile, hgroups, hfollows⟩ :=
        parseAndPrintLoop_eq_some hdesc (validRecord_of_mem_final hindex) hdecode
      -- the groups the decoder read have as many ids in the log as the encoder wrote
      have hcount := length_of_follows hfollows
      have hlength := length_flatMap_pieceBytes (fun g hg => (hgroups g hg).1)
      rw [hflatten] at hcount hlength
      rw [← hfile] at hlength
      have hentries := length_flatten_entries .initial es
      have hle := headerCount_add_le .initial es
      have hidle : RunState.initial.currentRunlength = 0 := rfl
      exact legible_of_headerCount (by omega)
    refine ⟨hlegible, ?_⟩
    rw [parseAndPrint, flatten_entries hlegible, emitted_eq_records hlegible,
      ← flatten_pieces es] at hdecode
    exact unambiguous_of_parseAndPrintLoop (readable_of_mem_pieces hdesc hindex)
      ((legible_iff es).1 hlegible).2 (isChain_cut Call.index [] es) hdecode
  · rintro ⟨hlegible, hunambiguous⟩
    exact ⟨[], parseAndPrint_of_legible hdesc hindex hlegible hunambiguous⟩

end Events

/-! ## Files -/

/-- The three files the unpacker is given. -/
structure Files where
  index : List UInt8
  log : List UInt8
  runlength : List UInt8

/-- What `packer` has handed to the files. -/
def Packer.files {n m r : Nat} (p : Packer n m r) : Files :=
  ⟨p.indexFile.spilled, p.logFile.spilled, p.runlengthFile.spilled⟩

/-- The three buffers of `ringbuffer_packer`, to be saved by its user. -/
def RingbufferPacker.files {n m r : Nat} (p : RingbufferPacker n m r) : Files :=
  ⟨p.getIndexBuffer, p.getLogBuffer, p.getRunlengthBuffer⟩

def Files.unpack (f : Files) : Option (List LogEntry × List UInt8) :=
  BinaryLog.unpack f.index f.log f.runlength

/-- The table of the rows registered in a run. -/
def rowTable (ops : List Op) : List IndexEntry := (registrations ops).map Registration.row

/-- The files decode to exactly the rows of the run and to exactly its calls, in order. -/
def Files.Recover (f : Files) (ops : List Op) : Prop :=
  parse f.index = some (rowTable ops) ∧
    ∃ rest, f.unpack = some ((calls ops).map (Call.printed (rowTable ops)), rest)

/-- The call has the arguments the row was registered with (a constant with its value), and its
    strings fit. -/
structure Registration.Accepts (reg : Registration) (c : Call) : Prop where
  args : c.args.map Arg.indexArg = reg.args.map Arg.indexArg
  fits : ∀ arg ∈ c.args, arg.value.Fits

/-- Every row fits its fields, and every call has the arguments of its row. -/
structure WellTyped (ops : List Op) : Prop where
  rows : ∀ reg ∈ registrations ops, reg.WellFormed
  calls : ∀ c ∈ calls ops, ∃ reg, (registrations ops)[c.index]? = some reg ∧ reg.Accepts c

instance (reg : Registration) (c : Call) : Decidable (reg.Accepts c) :=
  decidable_of_iff (c.args.map Arg.indexArg = reg.args.map Arg.indexArg ∧
      ∀ arg ∈ c.args, arg.value.Fits)
    ⟨fun h => ⟨h.1, h.2⟩, fun h => ⟨h.1, h.2⟩⟩

instance (ops : List Op) : Decidable (WellTyped ops) :=
  decidable_of_iff ((∀ reg ∈ registrations ops, reg.WellFormed) ∧
      ∀ c ∈ BinaryLog.calls ops, ∃ reg ∈ (registrations ops)[c.index]?, reg.Accepts c)
    ⟨fun h => ⟨h.1, h.2⟩, fun h => ⟨h.1, h.2⟩⟩

theorem WellTyped.described {ops : List Op} (h : WellTyped ops) :
    ∀ c ∈ items (callEvents ops), c.Described (rowTable ops) := by
  intro c hc
  obtain ⟨reg, hreg, haccepts⟩ := h.calls c hc
  refine ⟨reg.row, by rw [rowTable, List.getElem?_map, hreg, Option.map_some], ?_, haccepts.fits⟩
  rw [haccepts.args]
  rfl

theorem entries_concat_mark (run : RunState) (es : List (Event Call)) :
    entries run (es ++ [.mark]) = entries run es := by
  rw [entries_append]
  exact List.append_nil _

/-- The streams after a final flush. -/
def finalFiles (ops : List Op) : Files :=
  ⟨(registrations ops).flatMap Registration.rowBytes, (entries .initial (callEvents ops)).flatten,
    (emitted .initial (callEvents ops ++ [.mark])).flatMap recordBytes⟩

theorem Streams.runOps_flush (ops : List Op) :
    (Streams.initial.runOps (ops ++ [.flush])).index = (finalFiles ops).index ∧
      (Streams.initial.runOps (ops ++ [.flush])).log = (finalFiles ops).log ∧
      (Streams.initial.runOps (ops ++ [.flush])).runlength = (finalFiles ops).runlength := by
  have hevents : callEvents (ops ++ [.flush]) = callEvents ops ++ [.mark] := callEvents_append ops _
  refine ⟨?_, ?_, ?_⟩
  · rw [Streams.index_runOps, registrations_append]
    simp [Streams.initial, registrations, finalFiles]
  · rw [Streams.log_runOps, hevents, entries_concat_mark]
    rfl
  · rw [Streams.runlength_runOps, hevents]
    rfl

/-- The files `packer` leaves behind after a final flush. -/
theorem Packer.files_of_run_flush {n m r : Nat} (hr : 10 ≤ r) {ops : List Op}
    {lg : Logger (Packer n m r)} (h : Logger.run .fresh (ops ++ [.flush]) = .ok lg) :
    lg.packer.files = finalFiles ops := by
  have hrel := Packer.refinement.run h
  obtain ⟨hspilledLog, hspilledIndex, hspilledRunlength⟩ := Packer.spilled_eq_contents h
  obtain ⟨hindex, hlog, hrunlength⟩ := Streams.runOps_flush ops
  rw [Packer.files, hspilledIndex, hrel.index, hindex, hspilledLog, hrel.log, hlog,
    hspilledRunlength, hrel.runlength hr, hrunlength]

/-- The buffers of `ringbuffer_packer` after a final flush, if nothing was evicted. -/
theorem RingbufferPacker.files_of_run_flush {n m r : Nat} {ops : List Op}
    {lg : Logger (RingbufferPacker n m r)} (h : Logger.run .fresh (ops ++ [.flush]) = .ok lg)
    (hwhole : lg.packer.buffer.length = lg.packer.bufferIndex) :
    lg.packer.files = finalFiles ops := by
  have hrel := RingbufferPacker.refinement.run h
  obtain ⟨hindex, hlog, hrunlength⟩ := Streams.runOps_flush ops
  have hbuffer : lg.packer.buffer = (finalFiles ops).log := by
    rw [← hlog]
    exact hrel.buffer.eq_of_length (hwhole.trans hrel.bufferIndex)
  have hindexBuffer := hrel.indexBuffer.trans hindex
  have hrunlengthBuffer := hrel.runlengthBuffer.trans hrunlength
  rw [RingbufferPacker.files, getIndexBuffer, getLogBuffer, getRunlengthBuffer, hbuffer,
    hindexBuffer, hrunlengthBuffer]

theorem Files.unpack_of_parse {f : Files} {table : List IndexEntry}
    (h : parse f.index = some table) : f.unpack = parseAndPrint table f.log f.runlength := by
  rw [Files.unpack, BinaryLog.unpack, h]
  rfl

theorem WellTyped.parse_index {ops : List Op} (h : WellTyped ops) :
    parse (finalFiles ops).index = some (rowTable ops) :=
  parse_rowBytes _ h.rows

/-- What the unpacker makes of the final files. -/
theorem unpack_finalFiles {ops : List Op} (h : WellTyped ops) :
    (finalFiles ops).unpack
      = parseAndPrint (rowTable ops) (entries .initial (callEvents ops)).flatten
      ((emitted .initial (callEvents ops ++ [.mark])).flatMap recordBytes) :=
  Files.unpack_of_parse h.parse_index

theorem recover_finalFiles_iff {ops : List Op} (h : WellTyped ops) :
    (finalFiles ops).Recover ops ↔ Legible .initial (callEvents ops) ∧
      Unambiguous ((pieces (callEvents ops)).map (List.map Call.index)) := by
  rw [Files.Recover, unpack_finalFiles h,
    ← decode_iff h.described (fun c hc => index_lt_of_mem_calls hc)]
  exact and_iff_right h.parse_index

/-- A call passes constants where its row has constants, which the C++ types of a call site
    guarantee. -/
def SameConstants (ops : List Op) : Prop :=
  ∀ c ∈ calls ops, ∀ reg ∈ (registrations ops)[c.index]?,
    c.args.map Arg.isConstant = reg.args.map Arg.isConstant

instance (ops : List Op) : Decidable (SameConstants ops) := by
  unfold SameConstants; infer_instance

/-- Whatever is read back has fitted its fields: the length fields bound what the parsers return. -/
theorem wellTyped_of_recover {ops : List Op} (h : SameConstants ops)
    (hrecover : (finalFiles ops).Recover ops) : WellTyped ops := by
  obtain ⟨hparse, rest, hunpack⟩ := hrecover
  have hrows : ∀ reg ∈ registrations ops, reg.WellFormed := fun reg hreg =>
    Registration.wellFormed_of_bounded (parseLoop_bounded hparse _ (List.mem_map_of_mem hreg))
  refine ⟨hrows, fun c hc => ?_⟩
  rw [Files.unpack_of_parse hparse] at hunpack
  have hread := readWith_of_parseAndPrintLoop hunpack
  obtain ⟨entry, file, file', hentry, -, hargs⟩ := hread _ (List.mem_map_of_mem hc)
  obtain ⟨reg, hreg, rfl⟩ : ∃ reg, (registrations ops)[c.index]? = some reg ∧ reg.row = entry := by
    rw [rowTable, List.getElem?_map, Option.map_eq_some_iff] at hentry
    exact hentry
  have hwf := hrows reg (List.mem_of_getElem? hreg)
  obtain ⟨hsame, hfits⟩ := indexArg_eq_of_parseLogArgs
    (h c hc reg hreg) hwf.constants hargs
  exact ⟨reg, hreg, hsame, hfits⟩

/-! ## Without flushes -/

theorem cutsOnlyZero_of_noFlush {ops : List Op} (h : Op.flush ∉ ops) :
    CutsOnlyZero (pieces (callEvents ops)) := by
  rw [CutsOnlyZero, pieces, callEvents_of_noFlush h]
  exact (isChain_cut_items Call.index [] (calls ops)).imp (fun _ _ hne heq => absurd heq hne)

/-- The pieces of a run without flushes are its maximal runs. -/
theorem map_pieces_of_noFlush {ops : List Op} (h : Op.flush ∉ ops) :
    (pieces (callEvents ops)).map (List.map Call.index)
      = ((calls ops).map Call.index).splitBy (· == ·) := by
  rw [pieces, callEvents_of_noFlush h]
  exact map_cut_items Call.index (calls ops)

theorem length_le_of_mem_pieces {es : List (Event Call)} {p : List Call} (h : p ∈ pieces es) :
    p.length ≤ (items es).length := by
  have hle := List.Sublist.length_le (List.sublist_flatten_of_mem h)
  rwa [flatten_pieces] at hle

/-- The exact boundary of the format: without flushes before the last one, the decoder stays in
    bounds, uses up both files and returns the calls if and only if the maximal runs of one id are
    unambiguous. -/
theorem unpack_iff_unambiguous {n m r : Nat} (hn : 1 ≤ n) (hm : 2 ≤ m) (hr : 10 ≤ r)
    (ops : List Op) (hflush : Op.flush ∉ ops) (h : WellTyped ops)
    (hcount : (calls ops).length < 2 ^ 64) :
    ∃ lg : Logger (Packer n m r), Logger.run .fresh (ops ++ [.flush]) = .ok lg ∧
      (unpack lg.packer.indexFile.spilled lg.packer.logFile.spilled lg.packer.runlengthFile.spilled
          = some ((calls ops).map (Call.printed (rowTable ops)), []) ↔
        Unambiguous (((calls ops).map Call.index).splitBy (· == ·))) := by
  have hpos : 1 ≤ r := by omega
  obtain ⟨lg, hlg⟩ := (Packer.sufficient hn hm hpos).run Packer.refinement (ops ++ [.flush]) trivial
  refine ⟨lg, hlg, ?_⟩
  have hfiles := congrArg Files.unpack (Packer.files_of_run_flush hr hlg)
  rw [unpack_finalFiles h] at hfiles
  have hindex : ∀ c ∈ items (callEvents ops), c.index < 2 ^ 16 :=
    fun c hc => index_lt_of_mem_calls hc
  have hlegible : Legible .initial (callEvents ops) :=
    (legible_iff _).2 ⟨cutsOnlyZero_of_noFlush hflush,
      fun p hp => (length_le_of_mem_pieces hp).trans_lt hcount⟩
  show lg.packer.files.unpack = _ ↔ _
  rw [hfiles, ← map_pieces_of_noFlush hflush]
  constructor
  · intro hunpack
    exact ((decode_iff h.described hindex).1 ⟨[], hunpack⟩).2
  · exact parseAndPrint_of_legible h.described hindex hlegible

/-- Two rows, called 0, 1, 1, 0 with an argument each, through the smallest buffers. -/
theorem unpack_iff_unambiguous_smallest :
    ∃ lg : Logger (Packer 1 2 10),
      Logger.run .fresh [.logIndex (.literal [65]) [.dynamic (.uint8 1)],
        .log 0 [.dynamic (.uint8 1)],
        .logIndex (.literal [66]) [.dynamic (.string [2, 3])], .log 1 [.dynamic (.string [2, 3])],
        .log 1 [.dynamic (.string [])], .log 0 [.dynamic (.uint8 4)],
        .flush] = .ok lg ∧
      unpack lg.packer.indexFile.spilled lg.packer.logFile.spilled lg.packer.runlengthFile.spilled
        = some ([⟨0, [65], [(.typeUint8, [1])]⟩, ⟨1, [66], [(.typeString, [2, 3])]⟩,
            ⟨1, [66], [(.typeString, [])]⟩, ⟨0, [65], [(.typeUint8, [4])]⟩], []) := by
  obtain ⟨lg, hlg, hiff⟩ := unpack_iff_unambiguous (n := 1) (m := 2) (r := 10) (by decide)
    (by decide) (by decide)
    [.logIndex (.literal [65]) [.dynamic (.uint8 1)],
      .log 0 [.dynamic (.uint8 1)],
      .logIndex (.literal [66]) [.dynamic (.string [2, 3])], .log 1 [.dynamic (.string [2, 3])],
      .log 1 [.dynamic (.string [])], .log 0 [.dynamic (.uint8 4)]]
    (by simp) (by decide) (by decide)
  exact ⟨lg, hlg, hiff.2 (by decide)⟩

/-! ## Inserting flushes -/

/-- The run without its flushes. -/
def withoutFlushes : List Op → List Op
  | [] => []
  | .flush :: ops => withoutFlushes ops
  | op :: ops => op :: withoutFlushes ops

theorem flush_notMem_withoutFlushes (ops : List Op) : Op.flush ∉ withoutFlushes ops := by
  induction ops with
  | nil => exact List.not_mem_nil
  | cons op ops ih => cases op <;> simpa [withoutFlushes] using ih

theorem calls_withoutFlushes (ops : List Op) : calls (withoutFlushes ops) = calls ops := by
  induction ops with
  | nil => rfl
  | cons op ops ih =>
    cases op with
    | logIndex formatString args => exact ih
    | log pos args => exact congrArg (List.cons _) ih
    | flush => exact ih

theorem registrations_withoutFlushes (ops : List Op) :
    registrations (withoutFlushes ops) = registrations ops := by
  induction ops with
  | nil => rfl
  | cons op ops ih => cases op <;> simp [withoutFlushes, registrations, ih]

theorem wellTyped_withoutFlushes (ops : List Op) :
    WellTyped (withoutFlushes ops) ↔ WellTyped ops := by
  have hrows := registrations_withoutFlushes ops
  have hcalls := calls_withoutFlushes ops
  constructor
  · rintro ⟨h, h'⟩
    rw [hrows] at h h'
    rw [hcalls] at h'
    exact ⟨h, h'⟩
  · rintro ⟨h, h'⟩
    rw [← hrows] at h h'
    rw [← hcalls] at h'
    exact ⟨h, h'⟩

theorem sameConstants_withoutFlushes (ops : List Op) :
    SameConstants (withoutFlushes ops) ↔ SameConstants ops := by
  rw [SameConstants, SameConstants, registrations_withoutFlushes, calls_withoutFlushes]

theorem recover_withoutFlushes (f : Files) (ops : List Op) :
    f.Recover (withoutFlushes ops) ↔ f.Recover ops := by
  rw [Files.Recover, Files.Recover, calls_withoutFlushes, rowTable, rowTable,
    registrations_withoutFlushes]

/-- The flushes leave the pieces readable: one that cuts a run cuts it into two pieces of id 0, and
    the pieces are unambiguous. -/
def FlushesHarmless (ops : List Op) : Prop :=
  CutsOnlyZero (pieces (callEvents ops)) ∧
    Unambiguous ((pieces (callEvents ops)).map (List.map Call.index))

instance (ops : List Op) : Decidable (FlushesHarmless ops) := by
  unfold FlushesHarmless; infer_instance

/-- The pieces are no longer than the runs, so the lengths are no further condition. -/
theorem recover_iff_flushesHarmless {ops : List Op} (h : SameConstants ops)
    (hplain : (finalFiles (withoutFlushes ops)).Recover ops) :
    (finalFiles ops).Recover ops ↔ FlushesHarmless ops := by
  rw [← recover_withoutFlushes] at hplain
  have hplainTyped := wellTyped_of_recover ((sameConstants_withoutFlushes ops).2 h) hplain
  have htyped := (wellTyped_withoutFlushes ops).1 hplainTyped
  rw [recover_finalFiles_iff hplainTyped] at hplain
  have hshort := ((legible_iff _).1 hplain.1).2
  rw [callEvents_of_noFlush (flush_notMem_withoutFlushes ops), calls_withoutFlushes] at hshort
  have hpieces : ∀ p ∈ pieces (callEvents ops), p.length < 2 ^ 64 := by
    intro p hp
    obtain ⟨q, hq, hle⟩ := exists_le_of_mem_cut Call.index List.nil_suffix
      (Homogeneous.nil Call.index) (callEvents ops) p hp
    exact hle.trans_lt (hshort q hq)
  rw [recover_finalFiles_iff htyped, legible_iff, FlushesHarmless]
  exact ⟨fun hboth => ⟨hboth.1.1, hboth.2⟩, fun hboth => ⟨⟨hboth.1, hpieces⟩, hboth.2⟩⟩

/-- When a run without flushes is read back, the same run with flushes is read back exactly if the
    flushes are harmless; both for `packer` and for `ringbuffer_packer` when nothing is evicted. -/
theorem flush_recovers_iff {n m r N M K : Nat} (hn : 1 ≤ n) (hm : 2 ≤ m) (hr : 10 ≤ r)
    (ops : List Op) (h : SameConstants ops) :
    (∃ plain flushed : Logger (Packer n m r),
      Logger.run .fresh (withoutFlushes ops ++ [.flush]) = .ok plain ∧
      Logger.run .fresh (ops ++ [.flush]) = .ok flushed ∧
      (plain.packer.files.Recover ops →
        (flushed.packer.files.Recover ops ↔ FlushesHarmless ops))) ∧
    (∀ plain flushed : Logger (RingbufferPacker N M K),
      Logger.run .fresh (withoutFlushes ops ++ [.flush]) = .ok plain →
      plain.packer.buffer.length = plain.packer.bufferIndex →
      Logger.run .fresh (ops ++ [.flush]) = .ok flushed →
      flushed.packer.buffer.length = flushed.packer.bufferIndex →
      plain.packer.files.Recover ops →
        (flushed.packer.files.Recover ops ↔ FlushesHarmless ops)) := by
  have hpos : 1 ≤ r := by omega
  have hruns (ops : List Op) := (Packer.sufficient hn hm hpos).run Packer.refinement ops trivial
  constructor
  · obtain ⟨plain, hplain⟩ := hruns (withoutFlushes ops ++ [.flush])
    obtain ⟨flushed, hflushed⟩ := hruns (ops ++ [.flush])
    refine ⟨plain, flushed, hplain, hflushed, ?_⟩
    rw [Packer.files_of_run_flush hr hplain, Packer.files_of_run_flush hr hflushed]
    exact recover_iff_flushesHarmless h
  · intro plain flushed hplain hwhole hflushed hwhole'
    rw [RingbufferPacker.files_of_run_flush hplain hwhole,
      RingbufferPacker.files_of_run_flush hflushed hwhole']
    exact recover_iff_flushesHarmless h

/-- A flush inside a run of id 0 does no harm. -/
theorem flush_recovers_zero :
    ∃ flushed : Logger (Packer 1 2 10),
      Logger.run .fresh [.logIndex (.literal [65]) [], .log 0 [], .log 0 [], .flush, .log 0 [],
        .flush] = .ok flushed ∧
      flushed.packer.files.Recover [.logIndex (.literal [65]) [], .log 0 [], .log 0 [], .flush,
        .log 0 []] := by
  obtain ⟨plain, flushed, hplain, hflushed, hiff⟩ :=
    (flush_recovers_iff (n := 1) (m := 2) (r := 10) (N := 0) (M := 0) (K := 0) (by decide)
      (by decide) (by decide) [.logIndex (.literal [65]) [], .log 0 [], .log 0 [], .flush,
        .log 0 []] (by decide)).1
  obtain rfl : _ = plain := Except.ok.inj hplain
  exact ⟨flushed, hflushed, (hiff ⟨by decide, [], by decide⟩).2 (by decide)⟩

/-- After two calls of id 1 and a flush, the third one leaves no trace in the files. -/
theorem flush_loses_call :
    ∃ plain flushed : Logger (Packer 1048576 32 32),
      Logger.run .fresh [.logIndex (.literal [65]) [], .logIndex (.literal [66]) [], .log 1 [],
        .log 1 [], .log 1 [], .flush] = .ok plain ∧
      plain.packer.files.Recover [.logIndex (.literal [65]) [], .logIndex (.literal [66]) [],
        .log 1 [], .log 1 [], .log 1 []] ∧
      Logger.run .fresh [.logIndex (.literal [65]) [], .logIndex (.literal [66]) [], .log 1 [],
        .log 1 [], .flush, .log 1 [], .flush] = .ok flushed ∧
      ¬ flushed.packer.files.Recover [.logIndex (.literal [65]) [],
        .logIndex (.literal [66]) [], .log 1 [], .log 1 [], .flush, .log 1 []] := by
  refine ⟨_, _, rfl, ⟨by decide, [], by decide⟩, rfl, ?_⟩
  rintro ⟨-, rest, h⟩
  have hlength : some 2 = some 3 :=
    congrArg (Option.map (fun res : List LogEntry × List UInt8 => res.1.length)) h
  exact absurd hlength (by decide)

end BinaryLog
