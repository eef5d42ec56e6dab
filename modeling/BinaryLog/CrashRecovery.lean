import BinaryLog.Bounds
import BinaryLog.CrashOrder
import BinaryLog.Salvage

set_option autoImplicit false

/-! # What can be read back after an early exit

A program that ends in `exit` without the destructors of its loggers leaves what `packer` has handed
to `fwrite` for the three files: some rows, some of the log and some records, each cut where its own
buffer was last spilled. (`exit` writes out what `stdio` keeps of the runlength file; `abort` and a
kill lose it.) Where the log ends with the last entry of a call, `crash_recovers_iff` says exactly
when the unpacker prints the calls up to it without a read out of bounds: the index has to be cut at
a row and must have the rows of these calls, and the records in the file must lead through their
runs. -/

namespace BinaryLog

open Bytes Simulation Runs

/-! ## Files only grow -/

/-- The property is kept by writing and by handing the buffer over. -/
structure KeptByWrites {cap : Nat} (chunk : Nat) (Q : SpillBuffer UInt8 cap → Prop) : Prop where
  write : ∀ b bs b', Q b → b.write chunk bs = some b' → Q b'
  spill : ∀ b, Q b → Q b.spill

/-- The property is kept by writing a record and by handing the buffer over. -/
structure KeptByRecords {cap : Nat} (Q : SpillBuffer UInt8 cap → Prop) : Prop where
  record : ∀ (bytes : List UInt8) b b', bytes.length = 10 → Q b →
    Packer.writeRecordLoop bytes bytes.length b bytes.length = some b' → Q b'
  spill : ∀ b, Q b → Q b.spill

namespace Packer

variable {n m r : Nat}

/-- Properties of the three files that their writes keep are kept by the packer. -/
theorem preserved_files {L : SpillBuffer UInt8 n → Prop} {I : SpillBuffer UInt8 m → Prop}
    {R : SpillBuffer UInt8 r → Prop} (hL : KeptByWrites n L) (hI : KeptByWrites (m - 1) I)
    (hR : KeptByRecords R) :
    Preserved (fun p : Packer n m r => L p.logFile ∧ I p.indexFile ∧ R p.runlengthFile) := by
  have hlog : ∀ (p : Packer n m r) bs p',
      L p.logFile ∧ I p.indexFile ∧ R p.runlengthFile → BinaryLog.bufferOrWrite p bs = .ok p' →
        L p'.logFile ∧ I p'.indexFile ∧ R p'.runlengthFile := by
    intro p bs p' hp h
    change Packer.bufferOrWrite p bs = .ok p' at h
    simp only [Packer.bufferOrWrite, orFault_eq_ok, Option.map_eq_some_iff] at h
    obtain ⟨b, hb, rfl⟩ := h
    exact ⟨hL.write _ bs b hp.1 hb, hp.2⟩
  have hclose : ∀ p p' : Packer n m r,
      L p.logFile ∧ I p.indexFile ∧ R p.runlengthFile →
        p.writeCurrentRunlengthToRunlengthFile = .ok p' →
          L p'.logFile ∧ I p'.indexFile ∧ R p'.runlengthFile := by
    intro p p' hp h
    unfold Packer.writeCurrentRunlengthToRunlengthFile at h
    split at h
    · simp only [orFault_eq_ok, Option.map_eq_some_iff] at h
      obtain ⟨b, hb, rfl⟩ := h
      exact ⟨hp.1, hp.2.1, hR.record _ _ b p.run.length_recordBytes hp.2.2 hb⟩
    · exact Except.ok.inj h ▸ hp
  refine ⟨hlog, ?_, ?_, ?_⟩
  · intro p bs p' hp h
    change Packer.bufferOrWriteIndexFile p bs = .ok p' at h
    simp only [Packer.bufferOrWriteIndexFile, orFault_eq_ok, Option.map_eq_some_iff] at h
    obtain ⟨b, hb, rfl⟩ := h
    exact ⟨hp.1, hI.write _ bs b hp.2.1 hb, hp.2.2⟩
  · intro p index p' hp h
    exact packFormatStringIndexBody_preserved hlog hclose (fun _ _ hp => hp) hp h
  · intro p p' hp h
    change Packer.flush p = .ok p' at h
    simp only [Packer.flush, Packer.flushRunlengthFile, bind_eq_ok, Except.ok.injEq] at h
    obtain ⟨p₁, hp₁, rfl⟩ := h
    obtain ⟨hlog₁, hindex₁, hrunlength₁⟩ := hclose (flushLogFile (flushIndexFile p)) p₁
      ⟨hL.spill _ hp.1, hI.spill _ hp.2.1, hp.2.2⟩ hp₁
    exact ⟨hlog₁, hindex₁, hR.spill _ hrunlength₁⟩

theorem keptByWrites_spilled {cap chunk : Nat} (bs : List UInt8) :
    KeptByWrites chunk (fun b : SpillBuffer UInt8 cap => bs <+: b.spilled) where
  write _ _ _ hb hwrite := hb.trans (SpillBuffer.spilled_prefix_write hwrite)
  spill _ hb := hb.trans (List.prefix_append _ _)

theorem spilled_prefix_writeRecordLoop {bytes : List UInt8} {fuel bytesLeft : Nat}
    {b b' : SpillBuffer UInt8 r} (h : writeRecordLoop bytes fuel b bytesLeft = some b') :
    b.spilled <+: b'.spilled := by
  induction fuel generalizing b bytesLeft with
  | zero =>
    cases bytesLeft with
    | zero => exact Option.some.inj h ▸ List.prefix_rfl
    | succ bytesLeft => exact absurd h (by simp [writeRecordLoop])
  | succ fuel ih =>
    cases bytesLeft with
    | zero => exact Option.some.inj h ▸ List.prefix_rfl
    | succ bytesLeft =>
      simp only [writeRecordLoop, Option.bind_eq_some_iff] at h
      obtain ⟨b₁, hcopy, hrest⟩ := h
      have hround := b.spilled_prefix_makeRoom (bytesLeft + 1)
      rw [← (SpillBuffer.copy_eq_some hcopy).1] at hround
      exact hround.trans (ih hrest)

theorem keptByRecords_spilled {cap : Nat} (bs : List UInt8) :
    KeptByRecords (fun b : SpillBuffer UInt8 cap => bs <+: b.spilled) where
  record _ _ _ _ hb h := hb.trans (spilled_prefix_writeRecordLoop h)
  spill _ hb := hb.trans (List.prefix_append _ _)

end Packer

/-- Every file of `g` starts with the file of `f`. -/
structure Files.StartsWith (g f : Files) : Prop where
  index : f.index <+: g.index
  log : f.log <+: g.log
  runlength : f.runlength <+: g.runlength

/-- What is in the files stays there. -/
theorem Packer.startsWith_of_run {n m r : Nat} {ops : List Op} {lg lg' : Logger (Packer n m r)}
    (h : lg.run ops = .ok lg') : lg'.packer.files.StartsWith lg.packer.files := by
  have hkept := preserved_files (n := n) (m := m) (r := r)
    (keptByWrites_spilled lg.packer.logFile.spilled)
    (keptByWrites_spilled lg.packer.indexFile.spilled)
    (keptByRecords_spilled lg.packer.runlengthFile.spilled)
  obtain ⟨hlog, hindex, hrunlength⟩ :=
    hkept.run ⟨List.prefix_rfl, List.prefix_rfl, List.prefix_rfl⟩ h
  exact ⟨hindex, hlog, hrunlength⟩

/-! ## Whole records in the file -/

/-- File and buffer hold whole records. -/
def WholeRecords {cap : Nat} (b : SpillBuffer UInt8 cap) : Prop :=
  10 ∣ b.spilled.length ∧ 10 ∣ b.held.length

theorem WholeRecords.spill {cap : Nat} {b : SpillBuffer UInt8 cap} (h : WholeRecords b) :
    WholeRecords b.spill := by
  refine ⟨?_, Nat.dvd_zero 10⟩
  rw [SpillBuffer.spill, List.length_append]
  exact Nat.dvd_add h.1 h.2

/-- With ten bytes of buffer no record is cut by a spill. -/
theorem keptByRecords_wholeRecords {cap : Nat} (hcap : 10 ≤ cap) :
    KeptByRecords (fun b : SpillBuffer UInt8 cap => WholeRecords b) where
  record bytes b b' hbytes hb h := by
    have hne : bytes ≠ [] := by
      rintro rfl
      exact absurd hbytes (by simp)
    rw [Packer.writeRecordLoop_of_le hne (by omega), hbytes] at h
    obtain ⟨hspilled, hheld⟩ := SpillBuffer.copy_eq_some h
    have hroom : WholeRecords (b.makeRoom 10) := by
      unfold SpillBuffer.makeRoom
      split
      · exact hb.spill
      · exact hb
    unfold WholeRecords
    rw [hspilled, hheld, List.length_append, hbytes]
    exact ⟨hroom.1, Nat.dvd_add hroom.2 (Nat.dvd_refl 10)⟩
  spill _ hb := hb.spill

/-- A cut of the records at a multiple of ten bytes is the first of them. -/
theorem take_records_of_prefix {rs : List (Nat × Nat)} {cut : List UInt8}
    (hcut : cut <+: rs.flatMap recordBytes) (hwhole : 10 ∣ cut.length) :
    cut = (rs.take (cut.length / 10)).flatMap recordBytes := by
  have hlength : ∀ l : List (Nat × Nat), (l.flatMap recordBytes).length = 10 * l.length := by
    intro l
    induction l with
    | nil => rfl
    | cons r l ih =>
      rw [List.flatMap_cons, List.length_append, length_recordBytes, ih, List.length_cons]
      omega
  have hle := hcut.length_le
  rw [hlength] at hle
  have hsplit := congrArg (List.flatMap recordBytes) (List.take_append_drop (cut.length / 10) rs)
  rw [List.flatMap_append] at hsplit
  rw [← hsplit] at hcut
  refine (List.prefix_of_prefix_length_le hcut (List.prefix_append _ _) ?_).eq_of_length ?_
  all_goals
    rw [hlength, List.length_take]
    omega

/-- What `packer` has handed to the runlength file are the first of the records written so far. -/
theorem Packer.runlength_on_disk {n m r : Nat} (hr : 10 ≤ r) {ops : List Op}
    {lg : Logger (Packer n m r)} (h : Logger.run .fresh ops = .ok lg) :
    lg.packer.files.runlength
      = ((emitted .initial (callEvents ops)).take (lg.packer.files.runlength.length / 10)).flatMap
          recordBytes := by
  have hkept := Packer.preserved_files (n := n) (m := m) (r := r) (L := fun _ => True)
    (I := fun _ => True) ⟨fun _ _ _ _ _ => trivial, fun _ _ => trivial⟩
    ⟨fun _ _ _ _ _ => trivial, fun _ _ => trivial⟩ (keptByRecords_wholeRecords hr)
  have hfresh : WholeRecords (Logger.fresh : Logger (Packer n m r)).packer.runlengthFile :=
    ⟨Nat.dvd_zero 10, Nat.dvd_zero 10⟩
  obtain ⟨-, -, hwhole⟩ := hkept.run ⟨trivial, trivial, hfresh⟩ h
  have hcontents := (Packer.refinement.run h).runlength hr
  rw [Streams.runlength_runOps, SpillBuffer.contents] at hcontents
  exact take_records_of_prefix ⟨_, hcontents⟩ hwhole.1

/-! ## Recovery -/

theorem Call.printed_take {table : List IndexEntry} {k : Nat} {c : Call} (h : c.index < k) :
    c.printed (table.take k) = c.printed table := by
  rw [Call.printed, Call.printed, List.getElem?_take_of_lt h]

theorem Call.Described.take {table : List IndexEntry} {k : Nat} {c : Call}
    (h : c.Described table) (hk : c.index < k) : c.Described (table.take k) := by
  obtain ⟨entry, hentry, hmatches⟩ := h
  exact ⟨entry, by rw [List.getElem?_take_of_lt hk, hentry], hmatches⟩

/-- Rows and records in the files suffice for the calls of `ops`, in a run that begins with them:
    the index is cut at a row and has the rows of the calls, and the records lead through their
    runs. -/
structure SavedFor {n m r : Nat} (p : Packer n m r) (ops all : List Op) : Prop where
  rows : ∃ k, p.files.index = ((registrations all).take k).flatMap Registration.rowBytes ∧
    ∀ c ∈ calls ops, c.index < k
  records : LeadThrough Call.index
    ((emitted .initial (callEvents all)).take (p.files.runlength.length / 10))
    (pieces (callEvents ops))

/-- A run that ends in `exit` without destructors, behind any member call: where no flush has cut a
    run of `ops` and the log file ends with the last entry of `ops`, the unpacker stays in bounds and
    prints exactly the calls of `ops` if and only if the rows and records in the files suffice for
    them. -/
theorem crash_recovers_iff {n m r : Nat} (hr : 10 ≤ r) (ops ops' : List Op)
    (lg : Logger (Packer n m r)) (hrun : Logger.run .fresh (ops ++ ops') = .ok lg)
    (h : WellTyped (ops ++ ops')) (hmaximal : MaximalPieces (callEvents ops))
    (hcount : (calls ops).length < 2 ^ 64) (hlog : lg.packer.files.log = (finalFiles ops).log) :
    (∃ rest, lg.packer.files.unpack
      = some ((calls ops).map (Call.printed (rowTable (ops ++ ops'))), rest)) ↔
    SavedFor lg.packer ops (ops ++ ops') := by
  have hmem : ∀ c ∈ items (callEvents ops), c ∈ calls (ops ++ ops') := by
    intro c hc
    rw [calls_append]
    exact List.mem_append_left _ hc
  have hrs : ∀ rec ∈ (emitted .initial (callEvents (ops ++ ops'))).take
      (lg.packer.files.runlength.length / 10), ValidRecord rec := fun rec hrec =>
    validRecord_of_mem_emitted RunState.Valid.initial
      (fun c hc => index_lt_of_mem_calls hc) rec (List.mem_of_mem_take hrec)
  -- a table with the rows of the calls is as good as the whole one
  have hprint : ∀ k, (∀ c ∈ calls ops, c.index < k) →
      ((∃ rest, parseAndPrint ((rowTable (ops ++ ops')).take k) lg.packer.files.log
          lg.packer.files.runlength
        = some ((calls ops).map (Call.printed (rowTable (ops ++ ops'))), rest)) ↔
      LeadThrough Call.index ((emitted .initial (callEvents (ops ++ ops'))).take
        (lg.packer.files.runlength.length / 10)) (pieces (callEvents ops))) := by
    intro k hk
    have hiff := parseAndPrint_beside_iff ((rowTable (ops ++ ops')).take k)
      (fun c hc => (h.described c (hmem c hc)).take (hk c hc))
      (fun c hc => index_lt_of_mem_calls (hmem c hc)) hmaximal hcount hrs
    rw [← Packer.runlength_on_disk hr hrun] at hiff
    rw [hlog, ← hiff]
    have hcalls : (calls ops).map (Call.printed (rowTable (ops ++ ops')))
        = (items (callEvents ops)).map (Call.printed ((rowTable (ops ++ ops')).take k)) :=
      List.map_congr_left (fun c hc => (Call.printed_take (hk c hc)).symm)
    rw [hcalls]
    rfl
  have hparse : ∀ k, parse (((registrations (ops ++ ops')).take k).flatMap Registration.rowBytes)
      = some ((rowTable (ops ++ ops')).take k) := by
    intro k
    rw [parse_rowBytes _ (fun reg hreg => h.rows reg (List.mem_of_mem_take hreg)), rowTable,
      List.map_take]
  constructor
  · rintro ⟨rest, hunpack⟩
    obtain ⟨table, htable, hrest⟩ := Option.bind_eq_some_iff.1 hunpack
    obtain ⟨k, hk⟩ := (Packer.parse_cut_iff hrun h.rows List.prefix_rfl).1
      (Option.isSome_iff_exists.2 ⟨table, htable⟩)
    rw [hk, hparse] at htable
    obtain rfl := Option.some.inj htable
    -- every printed call has found its row
    have hrows : ∀ c ∈ calls ops, c.index < k := by
      intro c hc
      obtain ⟨entry, -, -, hentry, -⟩ :=
        readWith_of_parseAndPrintLoop hrest _ (List.mem_map_of_mem hc)
      have hlt := (List.getElem?_eq_some_iff.1 hentry).1
      rw [List.length_take] at hlt
      exact Nat.lt_of_lt_of_le hlt (Nat.min_le_left _ _)
    exact ⟨⟨k, hk, hrows⟩, (hprint k hrows).1 ⟨rest, hrest⟩⟩
  · rintro ⟨⟨k, hk, hrows⟩, hrecords⟩
    obtain ⟨rest, hrest⟩ := (hprint k hrows).2 hrecords
    refine ⟨rest, ?_⟩
    rw [Files.unpack_of_parse (by rw [hk, hparse]), hrest]

/-- A flush behind the row and two calls, of which the second is still in the buffer. -/
theorem crash_recovers_first_call :
    ∃ lg : Logger (Packer 1 2 10), Logger.run .fresh ([.logIndex (.literal [65])
        [.dynamic (.uint8 7)], .flush, .log 0 [.dynamic (.uint8 7)]]
          ++ [.log 0 [.dynamic (.uint8 8)]]) = .ok lg ∧
      ∃ rest, lg.packer.files.unpack = some ([⟨0, [65], [(.typeUint8, [7])]⟩], rest) := by
  have hiff := crash_recovers_iff (n := 1) (m := 2) (r := 10) (by decide)
    [.logIndex (.literal [65]) [.dynamic (.uint8 7)], .flush, .log 0 [.dynamic (.uint8 7)]]
    [.log 0 [.dynamic (.uint8 8)]] _ rfl (by decide) (by decide) (by decide) (by decide)
  refine ⟨_, rfl, hiff.2 ⟨⟨1, by decide, by decide⟩, ?_⟩⟩
  exact (exists_follows_iff (nil_notMem_pieces _)).1 ⟨[], .single _ [] [] [] (by simp) (.nil [])⟩

/-- The same run with a second row: its first bytes are in the file, and the unpacker fails at
    them. -/
example : ∃ lg : Logger (Packer 1 2 10), Logger.run .fresh ([.logIndex (.literal [65])
        [.dynamic (.uint8 7)], .flush, .log 0 [.dynamic (.uint8 7)]]
          ++ [.log 0 [.dynamic (.uint8 8)], .logIndex (.literal [66]) []]) = .ok lg ∧
      lg.packer.files.log = [0, 0, 7] ∧ lg.packer.files.unpack = none :=
  ⟨_, rfl, by decide, by decide⟩

end BinaryLog
