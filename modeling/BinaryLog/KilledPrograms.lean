import BinaryLog.CrashRecovery
import BinaryLog.TruncatedLogs

set_option autoImplicit false

/-! # A program that is killed after a flush

A killed program leaves the three files cut anywhere: inside a member function, between two calls of
`fwrite`, with the last part of the runlength file lost in `stdio`. `flushed_output_iff` says what
that does to the calls before a flush. Their bytes are safe, but the unpacker still has to get
through an index file that may end inside a later row, and through records of later runs. -/

namespace BinaryLog

open Bytes Simulation Runs

/-! ## Reading along to the last piece -/

/-- The runlength file leads the unpacker to the last of the pieces: every piece before it finds the
    number of its calls, and the last one at least as many. -/
def LeadsToLast : List (List Call) → List UInt8 → Prop
  | [], _ => True
  | [p], file => ∃ c ∈ p.head?, ∃ n rest, readRun c.index file = some (n, rest) ∧ p.length ≤ n
  | p :: q :: ps, file => ∃ c ∈ p.head?, ∃ rest, readRun c.index file = some (p.length, rest) ∧
      LeadsToLast (q :: ps) rest

section Pieces

variable {table : List IndexEntry}

/-- The calls of the pieces are printed first, whatever is behind them in the log. -/
theorem output_of_leadsToLast {ps : List (List Call)} (h : ∀ p ∈ ps, Readable table p)
    {file : List UInt8} (hleads : LeadsToLast ps file) {fuel : Nat} (rest : List UInt8)
    (hfuel : (ps.flatMap pieceBytes).length ≤ fuel) :
    ps.flatten.map (Call.printed table)
      <+: (printLoop table fuel (ps.flatMap pieceBytes ++ rest) file).output := by
  induction ps generalizing file fuel with
  | nil => exact List.nil_prefix
  | cons p ps ih =>
    have hread := h p List.mem_cons_self
    have htwo := two_le_length_pieceBytes hread.ne_nil
    rw [List.flatMap_cons, List.length_append] at hfuel
    obtain ⟨fuel, rfl⟩ : ∃ f, fuel = f + 1 := ⟨fuel - 1, by omega⟩
    cases ps with
    | nil =>
      obtain ⟨c, hc, n, file', hrun, hn⟩ := hleads
      obtain ⟨cs, rfl⟩ := List.head?_eq_some_iff.1 hc
      obtain ⟨entry, hentry, -⟩ := hread.described c List.mem_cons_self
      have hcalls := printCalls_append hentry (c :: cs) (fun c' hc' =>
        ⟨hread.homogeneous c' hc' c List.mem_cons_self, hread.described c' hc'⟩)
        (n - (c :: cs).length) rest
      rw [Nat.add_sub_cancel' hn] at hcalls
      simp only [List.flatMap_cons, List.flatMap_nil, List.append_nil, List.flatten_cons,
        List.flatten_nil]
      rw [pieceBytes_cons, List.append_assoc,
        printLoop_succ (headerBytes_append_ne_nil c.index _),
        printLogEntry_header (hread.index c List.mem_cons_self) hentry hrun, hcalls]
      refine List.IsPrefix.trans ?_ (Printing.output_prefix_bind _ _)
      exact List.prefix_append _ _
    | cons q ps =>
      obtain ⟨c, hc, file', hrun, hrest⟩ := hleads
      have hhead : ∀ c ∈ p.head?, readRun c.index file = some (p.length, file') := by
        intro c' hc'
        obtain rfl := Option.some.inj (hc.symm.trans hc')
        exact hrun
      rw [List.flatMap_cons, List.append_assoc, printLoop_piece hread hhead, List.flatten_cons,
        List.map_append]
      exact List.prefix_append_right_inj _ |>.2
        (ih (fun p' hp' => h p' (List.mem_cons_of_mem _ hp')) hrest (by omega))

/-! ## What the output says about the records -/

/-- At the head of a cut of valid records the unpacker finds one call, and leaves the file alone, or
    a record of several. -/
theorem readRun_cut {rs : List (Nat × Nat)} (hrs : ∀ r ∈ rs, ValidRecord r)
    {file rest : List UInt8} (hfile : file <+: rs.flatMap recordBytes) {index n : Nat}
    (h : readRun index file = some (n, rest)) : (n = 1 ∧ rest = file) ∨ 1 < n := by
  by_cases hnil : file = []
  · rw [readRun, if_pos hnil] at h
    obtain ⟨rfl, rfl⟩ := Prod.mk.inj (Option.some.inj h)
    exact .inl ⟨rfl, rfl⟩
  · obtain ⟨tail, htail⟩ := hfile
    rw [readRun, if_neg hnil] at h
    simp only [Option.bind_eq_bind, Option.bind_eq_some_iff, Prod.exists] at h
    obtain ⟨next, file₁, hnext, h⟩ := h
    split at h
    · next heq =>
      simp only [hnext, Option.bind_some] at h
      -- a record that is read is whole, and the first one
      have hwhole : readRun index (rs.flatMap recordBytes) = some (n, rest ++ tail) := by
        have hne : file ++ tail ≠ [] := fun hnil' => hnil (List.append_eq_nil_iff.1 hnil').1
        rw [← htail, readRun, if_neg hne]
        simp only [readLittleEndian_longer hnext tail, readLittleEndian_longer h tail,
          Option.bind_eq_bind, Option.bind_some, if_pos heq]
      cases rs with
      | nil => exact absurd (List.append_eq_nil_iff.1 htail).1 hnil
      | cons r rs =>
        have hvalid := hrs r List.mem_cons_self
        rw [List.flatMap_cons, readRun_recordBytes hvalid, Option.some.injEq] at hwhole
        split at hwhole
        · obtain ⟨rfl, -⟩ := Prod.mk.inj hwhole
          exact .inr hvalid.2.1
        · obtain ⟨rfl, hrest⟩ := Prod.mk.inj hwhole
          rw [← List.flatMap_cons, ← htail] at hrest
          exact .inl ⟨rfl, (List.append_cancel_right hrest).symm⟩
    · obtain ⟨rfl, rfl⟩ := Prod.mk.inj (Option.some.inj h)
      exact .inl ⟨rfl, rfl⟩

/-- The first call either fails, or is printed with the id of the entry. -/
theorem printCalls_succ_cases (index n : Nat) (entry : IndexEntry) (body : List UInt8) :
    printCalls index entry (n + 1) body = ⟨[], none⟩ ∨
    ∃ args rest, printCalls index entry (n + 1) body
      = ⟨⟨index, entry.formatString, args⟩ :: (printCalls index entry n rest).output,
          (printCalls index entry n rest).value⟩ := by
  rw [printCalls]
  cases hargs : parseLogArgs [] entry.args body with
  | none => exact .inl rfl
  | some read => exact .inr ⟨read.1, read.2, rfl⟩

/-- The second call of an entry that claims two or more has the id of the first. -/
theorem index_eq_of_printCalls {index n : Nat} {entry : IndexEntry} {body : List UInt8}
    {g : List UInt8 → List UInt8 × List UInt8}
    {f : List UInt8 × List UInt8 → Printing LogEntry (List UInt8)} {a b : LogEntry}
    {es : List LogEntry}
    (h : a :: b :: es <+: (Printing.mk (printCalls index entry (n + 2) body).output
      ((printCalls index entry (n + 2) body).value.map g) >>= f).output) :
    b.index = index := by
  rcases printCalls_succ_cases index (n + 1) entry body with hfirst | ⟨args, rest, hfirst⟩
  · rw [hfirst, Printing.bind_of_none rfl] at h
    exact absurd h (by simp)
  · rcases printCalls_succ_cases index n entry rest with hsecond | ⟨args', rest', hsecond⟩
    · rw [hfirst, hsecond, Printing.bind_of_none rfl] at h
      exact absurd h (by simp)
    · obtain ⟨_, hprinted⟩ := Printing.output_prefix_bind
        (Printing.mk (printCalls index entry (n + 2) body).output
          ((printCalls index entry (n + 2) body).value.map g)) f
      obtain ⟨_, h⟩ := h
      rw [← hprinted, hfirst, hsecond] at h
      obtain ⟨-, h⟩ := List.cons_eq_cons.1 h
      obtain ⟨rfl, -⟩ := List.cons_eq_cons.1 h
      rfl

/-- Without a number of calls nothing is printed. -/
theorem exists_readRun_of_output {c : Call} {cs : List Call} {ps : List (List Call)}
    (hindex : c.index < 2 ^ 16) {fuel : Nat} {rest file : List UInt8} {e : LogEntry}
    {es : List LogEntry} (h : e :: es
      <+: (printLoop table fuel (((c :: cs) :: ps).flatMap pieceBytes ++ rest) file).output) :
    ∃ fuel' n file', fuel = fuel' + 1 ∧ readRun c.index file = some (n, file') := by
  rw [List.flatMap_cons, List.append_assoc, pieceBytes_cons, List.append_assoc] at h
  cases fuel with
  | zero =>
    obtain ⟨b, bs, hcons⟩ := List.exists_cons_of_ne_nil (headerBytes_append_ne_nil c.index
      ((c :: cs).flatMap Call.argBytes ++ (ps.flatMap pieceBytes ++ rest)))
    rw [hcons] at h
    exact absurd h (by simp [printLoop, Printing.ofOption])
  | succ fuel =>
    cases hrun : readRun c.index file with
    | none =>
      rw [printLoop_succ (headerBytes_append_ne_nil c.index _), printLogEntry,
        readLittleEndian_headerBytes hindex, Printing.ofOption_some_bind] at h
      simp only [hrun, Printing.ofOption_none_bind] at h
      exact absurd h (by simp [Printing.ofOption])
    | some run => exact ⟨fuel, run.1, run.2, rfl, rfl⟩

/-- A single call whose neighbour has another id cannot have been given a longer run. -/
theorem le_one_of_output {c d : Call} {ps : List (List Call)} (hread : Readable table [c])
    (hne : c.index ≠ d.index) {file file' : List UInt8} {n : Nat}
    (hrun : readRun c.index file = some (n, file')) {fuel : Nat} {rest : List UInt8}
    {es : List LogEntry} (h : c.printed table :: d.printed table :: es
      <+: (printLoop table (fuel + 1) (([c] :: ps).flatMap pieceBytes ++ rest) file).output) :
    n ≤ 1 := by
  obtain ⟨entry, hentry, -⟩ := hread.described c List.mem_cons_self
  by_contra hlong
  obtain ⟨n, rfl⟩ : ∃ m, n = m + 2 := ⟨n - 2, by omega⟩
  rw [List.flatMap_cons, List.append_assoc, pieceBytes_cons, List.append_assoc,
    printLoop_succ (headerBytes_append_ne_nil c.index _),
    printLogEntry_header (hread.index c List.mem_cons_self) hentry hrun] at h
  exact hne (index_eq_of_printCalls h).symm

/-- One piece further. -/
theorem leadsToLast_cons {p : List Call} {ps : List (List Call)} (hread : Readable table p)
    {file file' : List UInt8}
    (hrun : ∀ c ∈ p.head?, readRun c.index file = some (p.length, file')) {fuel : Nat}
    {rest : List UInt8}
    (h : (p :: ps).flatten.map (Call.printed table)
      <+: (printLoop table (fuel + 1) ((p :: ps).flatMap pieceBytes ++ rest) file).output)
    (hrest : ps.flatten.map (Call.printed table)
      <+: (printLoop table fuel (ps.flatMap pieceBytes ++ rest) file').output →
        LeadsToLast ps file') : LeadsToLast (p :: ps) file := by
  obtain ⟨c, cs, rfl⟩ := List.exists_cons_of_ne_nil hread.ne_nil
  cases ps with
  | nil => exact ⟨c, rfl, _, _, hrun c rfl, le_rfl⟩
  | cons q ps =>
    rw [List.flatMap_cons, List.append_assoc, printLoop_piece hread hrun, List.flatten_cons,
      List.map_append, List.prefix_append_right_inj] at h
    exact ⟨c, rfl, file', hrun c rfl, hrest h⟩

/-- With all records of the pieces in the runlength file, and behind them a cut of valid ones, only
    an unpacker that is led to the last piece prints all their calls. -/
theorem leadsToLast_of_output {ps : List (List Call)} (h : ∀ p ∈ ps, Readable table p)
    (hchain : ps.IsChain (fun p q => p.length = 1 → keyOf Call.index p ≠ keyOf Call.index q))
    {left : List UInt8} {later : List (Nat × Nat)}
    (hvalid : ∀ r ∈ records Call.index ps ++ later, ValidRecord r)
    (hleft : left <+: later.flatMap recordBytes) {fuel : Nat} {rest : List UInt8}
    (houtput : ps.flatten.map (Call.printed table)
      <+: (printLoop table fuel (ps.flatMap pieceBytes ++ rest)
        ((records Call.index ps).flatMap recordBytes ++ left)).output) :
    LeadsToLast ps ((records Call.index ps).flatMap recordBytes ++ left) := by
  induction ps generalizing fuel with
  | nil => trivial
  | cons p ps ih =>
    have hread := h p List.mem_cons_self
    have hps : ∀ q ∈ ps, Readable table q := fun q hq => h q (List.mem_cons_of_mem _ hq)
    obtain ⟨hnext, hchain'⟩ := List.isChain_cons.1 hchain
    rcases p with _ | ⟨a, _ | ⟨b, p⟩⟩
    · exact absurd rfl hread.ne_nil
    · change LeadsToLast ([a] :: ps) ((records Call.index ps).flatMap recordBytes ++ left)
      change _ <+: (printLoop table fuel _
        ((records Call.index ps).flatMap recordBytes ++ left)).output at houtput
      have hprefix : (records Call.index ps).flatMap recordBytes ++ left
          <+: (records Call.index ps ++ later).flatMap recordBytes := by
        rw [List.flatMap_append]
        exact List.prefix_append_right_inj _ |>.2 hleft
      obtain ⟨fuel, n, file', rfl, hrun⟩ :=
        exists_readRun_of_output (hread.index a List.mem_cons_self) houtput
      rcases readRun_cut hvalid hprefix hrun with ⟨rfl, rfl⟩ | hlong
      · exact leadsToLast_cons hread (fun c hc => Option.some.inj hc ▸ hrun) houtput
          (ih hps hchain' hvalid)
      · cases ps with
        | nil => exact ⟨a, rfl, n, file', hrun, hlong.le⟩
        | cons q ps =>
          obtain ⟨d, ds, rfl⟩ := List.exists_cons_of_ne_nil (hps q List.mem_cons_self).ne_nil
          have hne : a.index ≠ d.index := fun heq =>
            hnext (d :: ds) (by simp) rfl (congrArg some heq)
          exact absurd (le_one_of_output hread hne hrun houtput) (by omega)
    · have hcons : (records Call.index ((a :: b :: p) :: ps)).flatMap recordBytes ++ left
          = recordBytes (a.index, p.length + 2)
            ++ ((records Call.index ps).flatMap recordBytes ++ left) := by
        rw [records, List.flatMap_cons, List.append_assoc]
      rw [hcons] at houtput ⊢
      have hrun := readRun_recordBytes (hvalid (a.index, p.length + 2) (by simp [records])) a.index
        ((records Call.index ps).flatMap recordBytes ++ left)
      rw [if_pos rfl] at hrun
      obtain ⟨fuel, -, -, rfl, -⟩ :=
        exists_readRun_of_output (hread.index a List.mem_cons_self) houtput
      refine leadsToLast_cons hread (fun c hc => Option.some.inj hc ▸ hrun) houtput
        (ih hps hchain' (fun r hr => hvalid r ?_))
      rw [records, List.cons_append]
      exact List.mem_cons_of_mem _ hr

end Pieces

/-! ## Files -/

theorem Call.Described.longer {table table' : List IndexEntry} (h : table <+: table') {c : Call}
    (hdesc : c.Described table) : c.Described table' := by
  obtain ⟨entry, hentry, hmatches⟩ := hdesc
  exact ⟨entry, getElem?_longer h hentry, hmatches⟩

theorem Call.printed_longer {table table' : List IndexEntry} (h : table <+: table') {c : Call}
    (hdesc : c.Described table) : c.printed table' = c.printed table := by
  obtain ⟨entry, hentry, -⟩ := hdesc
  rw [Call.printed, Call.printed, getElem?_longer h hentry, hentry]

/-- In the files of a killed program the records of a flush come first, and a cut of the later ones
    behind them. -/
theorem Files.StartsWith.exists_left {n m r : Nat} (hr : 10 ≤ r) {ops ops' : List Op}
    {lg : Logger (Packer n m r)} (hrun : Logger.run .fresh (ops ++ [.flush] ++ ops') = .ok lg)
    {f : Files} (hstart : f.StartsWith (finalFiles ops)) (hend : lg.packer.files.StartsWith f) :
    ∃ left later, f.runlength = (finalFiles ops).runlength ++ left ∧
      left <+: later.flatMap recordBytes ∧
      emitted .initial (callEvents (ops ++ [.flush] ++ ops'))
        = emitted .initial (callEvents ops ++ [.mark]) ++ later := by
  obtain ⟨left, hleft⟩ := hstart.runlength
  have hemitted := emitted_append .initial (callEvents ops ++ [.mark]) (callEvents ops')
  have hevents : callEvents (ops ++ [.flush] ++ ops')
      = callEvents ops ++ [.mark] ++ callEvents ops' := by
    rw [callEvents_append, callEvents_append]
    rfl
  refine ⟨left, _, hleft.symm, ?_, hevents ▸ hemitted⟩
  have hall := hend.runlength
  rw [Packer.runlength_on_disk hr hrun, hevents] at hall
  have hprefix := hall.trans ⟨_, by rw [← List.flatMap_append, List.take_append_drop]⟩
  rw [← hleft, hemitted, List.flatMap_append] at hprefix
  exact (List.prefix_append_right_inj _).1 hprefix

theorem registrations_append_flush (ops ops' : List Op) :
    registrations (ops ++ [.flush] ++ ops') = registrations (ops ++ ops') := by
  rw [registrations_append, registrations_append, registrations_append, registrations,
    registrations, List.append_nil]

/-- The index file of a killed program can be parsed exactly if it is cut at a row. -/
theorem Packer.parse_flushed_iff {n m r : Nat} {ops ops' : List Op} {lg : Logger (Packer n m r)}
    (hrun : Logger.run .fresh (ops ++ [.flush] ++ ops') = .ok lg) (h : WellTyped ops)
    (hrows : ∀ reg ∈ registrations ops', reg.WellFormed) {f : Files}
    (hend : lg.packer.files.StartsWith f) :
    (parse f.index).isSome ↔
      ∃ k, f.index = ((registrations (ops ++ ops')).take k).flatMap Registration.rowBytes := by
  rw [← registrations_append_flush]
  refine Packer.parse_cut_iff hrun (fun reg hreg => ?_) hend.index
  rw [registrations_append_flush, registrations_append, List.mem_append] at hreg
  exact hreg.elim (h.rows reg) (hrows reg)

/-- The rows of a flush come first in the table. -/
theorem Files.StartsWith.rowTable_isPrefix {ops : List Op} (h : WellTyped ops) {f : Files}
    (hstart : f.StartsWith (finalFiles ops)) {table : List IndexEntry}
    (htable : parse f.index = some table) : rowTable ops <+: table := by
  obtain ⟨rows, hindex⟩ := hstart.index
  rw [← hindex] at htable
  exact parseLoop_longer h.parse_index htable

/-- A program that is killed at any moment after a flush, with calls before the flush and no run of
    theirs but of id 0 cut by an earlier one, whatever is then in the files beyond what the flush
    left there: what the unpacker prints before its first read out of bounds begins with these calls
    if and only if the index file is cut at a row and the records in the file lead it to the last of
    their runs. -/
theorem flushed_output_iff {n m r : Nat} (hr : 10 ≤ r) (ops ops' : List Op)
    (lg₁ lg : Logger (Packer n m r)) (hflush : Logger.run .fresh (ops ++ [.flush]) = .ok lg₁)
    (hrun : lg₁.run ops' = .ok lg) (f : Files) (hstart : f.StartsWith lg₁.packer.files)
    (hend : lg.packer.files.StartsWith f) (h : WellTyped ops)
    (hrows : ∀ reg ∈ registrations ops', reg.WellFormed)
    (hlegible : Legible .initial (callEvents ops)) (hcalls : calls ops ≠ []) :
    (calls ops).map (Call.printed (rowTable ops)) <+: f.output ↔
    (∃ k, f.index = ((registrations (ops ++ ops')).take k).flatMap Registration.rowBytes) ∧
      LeadsToLast (pieces (callEvents ops)) f.runlength := by
  have hwhole : Logger.run .fresh (ops ++ [.flush] ++ ops') = .ok lg := by
    rw [Logger.run_append, hflush, ok_bind, hrun]
  rw [Packer.files_of_run_flush hr hflush] at hstart
  rw [← Packer.parse_flushed_iff hwhole h hrows hend]
  -- without a table nothing is printed at all
  cases htable : parse f.index with
  | none =>
    refine iff_of_false (fun hprefix => ?_) (by simp)
    rw [Files.output, Files.print, htable] at hprefix
    exact hcalls (List.map_eq_nil_iff.1 (List.prefix_nil.1 hprefix))
  | some table =>
    rw [Option.isSome_some, eq_self, true_and, Files.output_of_parse htable]
    have hprefix := hstart.rowTable_isPrefix h htable
    have hdesc : ∀ c ∈ items (callEvents ops), c.Described table := fun c hc =>
      (h.described c hc).longer hprefix
    have hread := readable_of_mem_pieces hdesc
      (fun c (hc : c ∈ items (callEvents ops)) => index_lt_of_mem_calls hc)
    have hprinted : (calls ops).map (Call.printed (rowTable ops))
        = (pieces (callEvents ops)).flatten.map (Call.printed table) := by
      rw [flatten_pieces]
      exact List.map_congr_left fun c hc =>
        (Call.printed_longer hprefix (h.described c hc)).symm
    obtain ⟨rest, hlog⟩ := hstart.log
    have hpieces : f.log = (pieces (callEvents ops)).flatMap pieceBytes ++ rest := by
      rw [← hlog, ← flatten_entries hlegible]
      rfl
    obtain ⟨left, later, hrunlength, hleft, hemitted⟩ := hstart.exists_left hr hwhole hend
    have hrecords : f.runlength
        = (records Call.index (pieces (callEvents ops))).flatMap recordBytes ++ left := by
      rw [hrunlength, ← emitted_eq_records hlegible]
      rfl
    rw [hprinted, hpieces]
    constructor
    · intro houtput
      rw [hrecords] at houtput ⊢
      refine leadsToLast_of_output hread (isChain_cut Call.index [] _) (fun r hr => ?_) hleft
        houtput
      rw [← emitted_eq_records hlegible, ← hemitted] at hr
      exact validRecord_of_mem_emitted RunState.Valid.initial
        (fun c hc => index_lt_of_mem_calls hc) r hr
    · intro hleads
      exact output_of_leadsToLast hread hleads rest (by rw [List.length_append]; omega)

/-- Two calls and a flush; of a third call one byte has reached the log. -/
theorem flushed_output_two_calls :
    ∃ lg₁ lg : Logger (Packer 1 2 10), Logger.run .fresh ([.logIndex (.literal [65])
        [.dynamic (.uint8 7)], .log 0 [.dynamic (.uint8 7)], .log 0 [.dynamic (.uint8 8)]]
          ++ [.flush]) = .ok lg₁ ∧ lg₁.run [.log 0 [.dynamic (.uint8 9)]] = .ok lg ∧
      [⟨0, [65], [(.typeUint8, [7])]⟩, ⟨0, [65], [(.typeUint8, [8])]⟩] <+: Files.output
        ⟨lg₁.packer.files.index, lg₁.packer.files.log ++ [0], lg₁.packer.files.runlength⟩ := by
  refine ⟨_, _, rfl, rfl, (flushed_output_iff (n := 1) (m := 2) (r := 10) (by decide)
    [.logIndex (.literal [65]) [.dynamic (.uint8 7)], .log 0 [.dynamic (.uint8 7)],
      .log 0 [.dynamic (.uint8 8)]] [.log 0 [.dynamic (.uint8 9)]] _ _ rfl rfl _
    ⟨by decide, by decide, by decide⟩ ⟨by decide, by decide, by decide⟩ (by decide)
    (by simp [registrations]) ((legible_iff _).2 ⟨by decide, by decide⟩) (by decide)).2 ?_⟩
  exact ⟨⟨1, by decide⟩, ⟨0, [.dynamic (.uint8 7)]⟩, rfl, 2, [], by decide, by decide⟩

/-- Two single calls and a flush, and then a run of the first id: its record, which reaches the file
    before the program is killed, is taken for the first call. -/
example : ∃ lg₁ lg : Logger (Packer 1 2 10), Logger.run .fresh ([.logIndex (.literal [65]) [],
        .logIndex (.literal [66]) [], .log 0 [], .log 1 []] ++ [.flush]) = .ok lg₁ ∧
      lg₁.packer.files.output = [⟨0, [65], []⟩, ⟨1, [66], []⟩] ∧
      lg₁.run [.log 0 [], .log 0 [], .log 1 [], .log 1 [], .log 0 []] = .ok lg ∧
      ¬ [⟨0, [65], []⟩, ⟨1, [66], []⟩] <+: lg.packer.files.output := by
  exact ⟨_, _, rfl, by decide, rfl, by decide⟩

end BinaryLog
