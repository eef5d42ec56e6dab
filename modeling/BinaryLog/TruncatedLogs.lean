import BinaryLog.Output

set_option autoImplicit false

/-! # Logs that are cut off

An incomplete log file, beside the complete index and runlength files, is printed up to the last
call whose values are all there, wherever the cut is: `truncated_output`. -/

namespace BinaryLog

open Bytes Delimited Simulation Runs

/-! ## The records, one by one -/

/-- What the unpacker finds at the head of the records. -/
theorem readRun_recordBytes {r : Nat × Nat} (h : ValidRecord r) (index : Nat)
    (rest : List UInt8) :
    readRun index (recordBytes r ++ rest)
      = some (if r.1 = index then (r.2, rest) else (1, recordBytes r ++ rest)) := by
  have hne : recordBytes r ++ rest ≠ [] := by
    intro hnil
    exact absurd (congrArg List.length hnil) (by simp)
  have hid (bs : List UInt8) : readLittleEndian 2 (toLittleEndian 2 r.1 ++ bs) = some (r.1, bs) :=
    readLittleEndian_append (by simpa using h.1) bs
  have hlength (bs : List UInt8) : readLittleEndian 8 (toLittleEndian 8 r.2 ++ bs)
      = some (r.2, bs) := readLittleEndian_append (by simpa using h.2.2) bs
  rw [readRun, if_neg hne]
  simp only [recordBytes, List.append_assoc, hid, hlength, Option.bind_eq_bind, Option.bind_some]
  split <;> rfl

theorem readRun_records {rs : List (Nat × Nat)} (h : ∀ r ∈ rs, ValidRecord r) (index : Nat) :
    readRun index (rs.flatMap recordBytes)
      = some ((nextRun index rs).1, (nextRun index rs).2.flatMap recordBytes) := by
  cases rs with
  | nil => rfl
  | cons r rs =>
    rw [List.flatMap_cons, readRun_recordBytes (h r List.mem_cons_self), nextRun]
    split <;> rfl

/-- Read along the pieces, as long as each finds the number of its calls in the runlength file. -/
def readRuns : List (List Call) → List UInt8 → Option (List UInt8)
  | [], runlengthfile => some runlengthfile
  | p :: ps, runlengthfile => do
      let c ← p.head?
      let (runlength, runlengthfile) ← readRun c.index runlengthfile
      if runlength = p.length then readRuns ps runlengthfile else none

theorem readRuns_cons_eq_some {p : List Call} {ps : List (List Call)} {file file' : List UInt8} :
    readRuns (p :: ps) file = some file' ↔
      ∃ c ∈ p.head?, ∃ rest, readRun c.index file = some (p.length, rest) ∧
        readRuns ps rest = some file' := by
  simp only [readRuns, Option.bind_eq_bind, Option.bind_eq_some_iff, Prod.exists,
    Option.ite_none_right_eq_some]
  constructor
  · rintro ⟨c, hc, _, rest, hrun, rfl, hrest⟩
    exact ⟨c, hc, rest, hrun, hrest⟩
  · rintro ⟨c, hc, rest, hrun, hrest⟩
    exact ⟨c, hc, _, rest, hrun, rfl, hrest⟩

/-- Records that can be followed through the pieces are read along them. -/
theorem readRuns_of_follows {ps : List (List Call)} {rs left : List (Nat × Nat)}
    (h : Follows Call.index ps rs left) (hrs : ∀ r ∈ rs, ValidRecord r) :
    readRuns ps (rs.flatMap recordBytes) = some (left.flatMap recordBytes) := by
  induction h with
  | nil rs => rfl
  | single a ps rs left hhead hfollows ih =>
    refine readRuns_cons_eq_some.2 ⟨a, rfl, rs.flatMap recordBytes, ?_, ih hrs⟩
    rw [readRun_records hrs, nextRun_of_single hhead a rfl]
  | run a b p ps rs left hfollows ih =>
    refine readRuns_cons_eq_some.2 ⟨a, rfl, rs.flatMap recordBytes, ?_,
      ih (fun r hr => hrs r (List.mem_cons_of_mem _ hr))⟩
    rw [readRun_records hrs, nextRun_of_long p rs a rfl]

/-! ## Printing calls -/

section Table

variable {table : List IndexEntry} {index : Nat} {entry : IndexEntry}

/-- The first call of the file is printed. -/
theorem printCalls_cons (htable : table[index]? = some entry) {c : Call} (hindex : c.index = index)
    (hdesc : c.Described table) (n : Nat) (rest : List UInt8) :
    printCalls index entry (n + 1) (c.argBytes ++ rest)
      = ⟨c.printed table :: (printCalls index entry n rest).output,
          (printCalls index entry n rest).value⟩ := by
  subst hindex
  obtain ⟨entry', hentry, hmatches⟩ := hdesc
  obtain rfl : entry = entry' := Option.some.inj (htable.symm.trans hentry)
  have hargs := parseLogArgs_append c.args hmatches.fits [] rest
  rw [← hmatches.args, ← Call.argBytes_eq hmatches.fits] at hargs
  rw [printCalls, hargs, Call.printed, htable]
  rfl

/-- The calls whose values are in front of the file are printed, whatever is behind them. -/
theorem printCalls_append (htable : table[index]? = some entry) (cs : List Call)
    (h : ∀ c ∈ cs, c.index = index ∧ c.Described table) (n : Nat) (rest : List UInt8) :
    printCalls index entry (cs.length + n) (cs.flatMap Call.argBytes ++ rest)
      = ⟨cs.map (Call.printed table) ++ (printCalls index entry n rest).output,
          (printCalls index entry n rest).value⟩ := by
  induction cs with
  | nil => rw [List.length_nil, Nat.zero_add]; rfl
  | cons c cs ih =>
    obtain ⟨hindex, hdesc⟩ := h c List.mem_cons_self
    rw [List.length_cons, Nat.succ_add, List.flatMap_cons, List.append_assoc,
      printCalls_cons htable hindex hdesc, ih (fun c' hc' => h c' (List.mem_cons_of_mem _ hc'))]
    rfl

/-- Values that are cut off cannot be read. -/
theorem parseLogArgs_cut (htable : table[index]? = some entry) {c : Call} (hindex : c.index = index)
    (hdesc : c.Described table) {k : Nat} (hk : k < c.argBytes.length) :
    parseLogArgs [] entry.args (c.argBytes.take k) = none := by
  subst hindex
  obtain ⟨entry', hentry, hmatches⟩ := hdesc
  obtain rfl : entry = entry' := Option.some.inj (htable.symm.trans hentry)
  refine Option.eq_none_iff_forall_ne_some.2 ?_
  rintro ⟨args, rest⟩ hread
  have hwhole := parseLogArgs_append c.args hmatches.fits [] []
  rw [← hmatches.args, ← Call.argBytes_eq hmatches.fits, List.append_nil] at hwhole
  -- the whole values are read like the cut ones, which leaves what was cut off
  have hlonger := parseLogArgs_longer hread (c.argBytes.drop k)
  rw [List.take_append_drop, hwhole, Option.some.injEq, Prod.mk.injEq] at hlonger
  have hdrop := (List.append_eq_nil_iff.1 hlonger.2.symm).2
  exact absurd (List.drop_eq_nil_iff.1 hdrop) (by omega)

/-- Of calls that are cut off the whole ones are printed. -/
theorem printCalls_cut (htable : table[index]? = some entry) (cs : List Call)
    (h : ∀ c ∈ cs, c.index = index ∧ c.Described table) {k : Nat}
    (hk : k < (cs.flatMap Call.argBytes).length) :
    printCalls index entry cs.length ((cs.flatMap Call.argBytes).take k)
      = ⟨(cs.take (wholeItems k (cs.map Call.argBytes))).map (Call.printed table), none⟩ := by
  induction cs generalizing k with
  | nil => exact absurd hk (by simp)
  | cons c cs ih =>
    obtain ⟨hindex, hdesc⟩ := h c List.mem_cons_self
    rw [List.flatMap_cons, List.length_append] at hk
    rw [List.flatMap_cons, List.map_cons, wholeItems]
    split
    · next hle =>
      rw [List.take_append, List.take_of_length_le hle, List.length_cons,
        printCalls_cons htable hindex hdesc,
        ih (fun c' hc' => h c' (List.mem_cons_of_mem _ hc')) (by omega)]
      rfl
    · next hlt =>
      rw [List.take_append_of_le_length (by omega), List.length_cons, printCalls,
        parseLogArgs_cut htable hindex hdesc (by omega)]
      rfl

end Table

/-! ## Printing pieces -/

section Pieces

variable {table : List IndexEntry}

/-- An entry whose number of calls has been found. -/
theorem printLogEntry_header {index n : Nat} {entry : IndexEntry} {file file' : List UInt8}
    (hindex : index < 2 ^ 16) (htable : table[index]? = some entry)
    (hrun : readRun index file = some (n, file')) (body : List UInt8) :
    printLogEntry table (headerBytes index ++ body) file
      = ⟨(printCalls index entry n body).output,
          (printCalls index entry n body).value.map (fun rest => (rest, file'))⟩ := by
  rw [printLogEntry, readLittleEndian_headerBytes hindex, Printing.ofOption_some_bind]
  show (Printing.ofOption (readRun index file) >>= _) = _
  rw [hrun, Printing.ofOption_some_bind]
  show (Printing.ofOption table[index]? >>= _) = _
  rw [htable, Printing.ofOption_some_bind]
  exact Printing.bind_pure_eq _ _

/-- One round of the loop. -/
theorem printLoop_succ {file : List UInt8} (h : file ≠ []) (fuel : Nat)
    (runlengthfile : List UInt8) :
    printLoop table (fuel + 1) file runlengthfile
      = printLogEntry table file runlengthfile >>= fun rest =>
          printLoop table fuel rest.1 rest.2 := by
  cases file with
  | nil => exact absurd rfl h
  | cons b bs => rfl

theorem headerBytes_append_ne_nil (index : Nat) (body : List UInt8) :
    headerBytes index ++ body ≠ [] := by
  intro hnil
  exact absurd (congrArg List.length hnil) (by simp)

/-- One round of the loop on a piece whose number of calls is found. -/
theorem printLoop_piece {p : List Call} (h : Readable table p) {file file' : List UInt8}
    (hrun : ∀ c ∈ p.head?, readRun c.index file = some (p.length, file')) (fuel : Nat)
    (rest : List UInt8) :
    printLoop table (fuel + 1) (pieceBytes p ++ rest) file
      = ⟨p.map (Call.printed table) ++ (printLoop table fuel rest file').output,
          (printLoop table fuel rest file').value⟩ := by
  cases p with
  | nil => exact absurd rfl h.ne_nil
  | cons c cs =>
    obtain ⟨entry, hentry, -⟩ := h.described c List.mem_cons_self
    have hcalls := printCalls_append hentry (c :: cs) (fun c' hc' =>
      ⟨h.homogeneous c' hc' c List.mem_cons_self, h.described c' hc'⟩) 0 rest
    have hnone : printCalls c.index entry 0 rest = pure rest := rfl
    rw [Nat.add_zero, hnone, Printing.output_pure, Printing.value_pure, List.append_nil] at hcalls
    rw [pieceBytes_cons, List.append_assoc,
      printLoop_succ (headerBytes_append_ne_nil c.index _),
      printLogEntry_header (h.index c List.mem_cons_self) hentry (hrun c rfl), hcalls]
    exact Printing.bind_of_some (a := (rest, file')) rfl _

/-- Of a piece that is cut off the whole calls are printed. -/
theorem output_printLoop_cut {p : List Call} (h : Readable table p) {file file' : List UInt8}
    (hrun : ∀ c ∈ p.head?, readRun c.index file = some (p.length, file')) {k fuel : Nat}
    (hk : k < (pieceBytes p).length) (hfuel : k ≤ fuel) :
    (printLoop table fuel ((pieceBytes p).take k) file).output
      = (p.take (wholeItems k (pieceEntries p))).map (Call.printed table) := by
  cases p with
  | nil => exact absurd rfl h.ne_nil
  | cons c cs =>
    have hheader : (headerBytes c.index).length = 2 := length_headerBytes c.index
    rw [pieceBytes_cons, List.length_append, hheader] at hk
    rw [pieceBytes_cons, pieceEntries, wholeItems, List.length_append, hheader]
    by_cases htwo : 2 ≤ k
    · obtain ⟨entry, hentry, -⟩ := h.described c List.mem_cons_self
      obtain ⟨fuel, rfl⟩ : ∃ f, fuel = f + 1 := ⟨fuel - 1, by omega⟩
      have hcalls := printCalls_cut hentry (c :: cs) (k := k - 2) (fun c' hc' =>
        ⟨h.homogeneous c' hc' c List.mem_cons_self, h.described c' hc'⟩) (by omega)
      rw [List.map_cons, wholeItems] at hcalls
      rw [List.take_append, List.take_of_length_le (hheader.trans_le htwo), hheader,
        printLoop_succ (headerBytes_append_ne_nil c.index _),
        printLogEntry_header (h.index c List.mem_cons_self) hentry (hrun c rfl), hcalls,
        Printing.bind_of_none rfl]
      have hcond : (2 + c.argBytes.length ≤ k) = (c.argBytes.length ≤ k - 2) := by
        rw [eq_iff_iff]
        omega
      simp only [hcond, Nat.sub_add_eq]
    · -- not even the id is whole
      rw [if_neg (by omega), List.take_zero, List.map_nil,
        List.take_append_of_le_length (by omega)]
      have hshort : readLittleEndian 2 ((headerBytes c.index).take k) = none := by
        rw [readLittleEndian, readBytes, List.length_take, if_neg (by omega), Option.map_none]
      cases hfile : (headerBytes c.index).take k with
      | nil => cases fuel <;> rfl
      | cons b bs =>
        cases fuel with
        | zero => rfl
        | succ fuel =>
          rw [hfile] at hshort
          rw [printLoop, printLogEntry, hshort]
          rfl

/-- Of pieces that are cut off anywhere the whole calls are printed. -/
theorem output_printLoop_take {ps : List (List Call)} (h : ∀ p ∈ ps, Readable table p)
    {file file' : List UInt8} (hruns : readRuns ps file = some file') {k fuel : Nat}
    (hfuel : ((ps.flatMap pieceBytes).take k).length ≤ fuel) :
    (printLoop table fuel ((ps.flatMap pieceBytes).take k) file).output
      = (ps.flatten.take (wholeItems k (ps.flatMap pieceEntries))).map (Call.printed table) := by
  induction ps generalizing file k fuel with
  | nil =>
    rw [List.flatMap_nil, List.take_nil, List.flatten_nil, List.take_nil]
    cases fuel <;> rfl
  | cons p ps ih =>
    have hread := h p List.mem_cons_self
    obtain ⟨c, hc, file₁, hrun, hrest⟩ := readRuns_cons_eq_some.1 hruns
    have hhead : ∀ c ∈ p.head?, readRun c.index file = some (p.length, file₁) := by
      intro c' hc'
      obtain rfl := Option.some.inj (hc.symm.trans hc')
      exact hrun
    rw [List.flatMap_cons] at hfuel
    rw [List.flatMap_cons, List.flatMap_cons, List.flatten_cons]
    by_cases hk : (pieceBytes p).length ≤ k
    · have htwo := two_le_length_pieceBytes hread.ne_nil
      rw [List.take_append, List.take_of_length_le hk, List.length_append] at hfuel
      obtain ⟨fuel, rfl⟩ : ∃ f, fuel = f + 1 := ⟨fuel - 1, by omega⟩
      have hentries : (pieceEntries p).flatten.length ≤ k := hk
      rw [List.take_append, List.take_of_length_le hk, printLoop_piece hread hhead,
        ih (fun q hq => h q (List.mem_cons_of_mem _ hq)) hrest (by omega),
        wholeItems_append_of_le hentries, length_pieceEntries, List.take_length_add_append,
        List.map_append]
      rfl
    · have hcut : k < (pieceEntries p).flatten.length := Nat.lt_of_not_le hk
      rw [List.take_append_of_le_length (by omega), List.length_take] at hfuel
      have hwhole := wholeItems_le_length k (pieceEntries p)
      rw [length_pieceEntries] at hwhole
      rw [List.take_append_of_le_length (by omega), wholeItems_append_of_lt hcut,
        List.take_append_of_le_length hwhole,
        output_printLoop_cut hread hhead (by omega) (by omega)]

end Pieces

/-! ## Files -/

/-- The log of a run that can be read back, cut off after any number of bytes: before its first read
    out of bounds the unpacker prints the calls whose entries end before the cut, however many these
    are, and no others. -/
theorem truncated_output {n m r : Nat} (hn : 1 ≤ n) (hm : 2 ≤ m) (hr : 10 ≤ r) (ops : List Op)
    (h : WellTyped ops) (hlegible : Legible .initial (callEvents ops))
    (hunambiguous : Unambiguous ((pieces (callEvents ops)).map (List.map Call.index))) :
    ∃ lg : Logger (Packer n m r), Logger.run .fresh (ops ++ [.flush]) = .ok lg ∧
      ∀ k, ∃ j ≤ (calls ops).length,
        (∀ i ≤ (calls ops).length, i ≤ j ↔
          ((entries .initial (callEvents ops)).take i).flatten.length ≤ k) ∧
        Files.output ⟨lg.packer.files.index, lg.packer.files.log.take k, lg.packer.files.runlength⟩
          = ((calls ops).take j).map (Call.printed (rowTable ops)) := by
  have hpos : 1 ≤ r := by omega
  obtain ⟨lg, hlg⟩ := Packer.run_isSome hn hm hpos .fresh (ops ++ [.flush])
  refine ⟨lg, hlg, fun k => ?_⟩
  have hread := readable_of_mem_pieces h.described
    (fun c (hc : c ∈ items (callEvents ops)) => index_lt_of_mem_calls hc)
  have hrs := validRecord_of_mem_records hread ((legible_iff _).1 hlegible).2
  have hruns := readRuns_of_follows
    (follows_records Call.index _ (nil_notMem_pieces _) hunambiguous) hrs
  have hentries := entries_eq_pieceEntries hlegible
  have hlength : (entries .initial (callEvents ops)).length = (calls ops).length := by
    rw [hentries, calls, ← flatten_pieces]
    induction pieces (callEvents ops) with
    | nil => rfl
    | cons p ps ih => simp [ih]
  refine ⟨wholeItems k (entries .initial (callEvents ops)), hlength ▸ wholeItems_le_length k _,
    fun i hi => le_wholeItems_iff (hlength ▸ hi), ?_⟩
  have hparse : parse (Files.mk (finalFiles ops).index ((finalFiles ops).log.take k)
      (finalFiles ops).runlength).index = some (rowTable ops) := h.parse_index
  have hlog : (finalFiles ops).log = (pieces (callEvents ops)).flatMap pieceBytes :=
    flatten_entries hlegible
  have hrunlength : (finalFiles ops).runlength
      = (records Call.index (pieces (callEvents ops))).flatMap recordBytes :=
    congrArg (List.flatMap recordBytes) (emitted_eq_records hlegible)
  rw [Packer.files_of_run_flush hr hlg, Files.output_of_parse hparse]
  simp only [hlog, hrunlength]
  rw [output_printLoop_take hread hruns le_rfl, flatten_pieces, hentries]
  rfl

/-- Two calls of a row, the second one cut off in front of its value. -/
theorem truncated_output_first_call :
    ∃ lg : Logger (Packer 1 2 10), Logger.run .fresh ([.logIndex (.literal [65])
        [.dynamic (.uint8 7)], .log 0 [.dynamic (.uint8 7)], .log 0 [.dynamic (.uint8 8)]]
          ++ [.flush]) = .ok lg ∧
      Files.output ⟨lg.packer.files.index, lg.packer.files.log.take 3, lg.packer.files.runlength⟩
        = [⟨0, [65], [(.typeUint8, [7])]⟩] := by
  obtain ⟨lg, hlg, hcut⟩ := truncated_output (n := 1) (m := 2) (r := 10) (by decide) (by decide)
    (by decide) [.logIndex (.literal [65]) [.dynamic (.uint8 7)], .log 0 [.dynamic (.uint8 7)],
      .log 0 [.dynamic (.uint8 8)]] (by decide) ((legible_iff _).2 ⟨by decide, by decide⟩)
    (by decide)
  obtain ⟨j, -, hj, houtput⟩ := hcut 3
  have hone : 1 ≤ j := (hj 1 (by decide)).2 (by decide)
  have htwo : ¬ 2 ≤ j := fun h => absurd ((hj 2 (by decide)).1 h) (by decide)
  obtain rfl : j = 1 := by omega
  exact ⟨lg, hlg, houtput⟩

end BinaryLog
