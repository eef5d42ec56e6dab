import BinaryLog.Bounds
import BinaryLog.Lib.Printing

set_option autoImplicit false

/-! # What the unpacker has printed by the time it fails

`parse_and_print` prints every call as soon as it has read it, so a log that is cut off, or a record
that claims too much, costs the calls behind the first read past the end of a file, not the lines
already printed. `Files.print` is the two parsers with their output; where they stay in bounds it is
`Files.unpack` (`Files.outcome_print`). It ends at the first read out of bounds: what the program
does from there on (a mapped file goes on with zeros up to the end of its page) is not described.

With more of the log and of the index file, and the same runlength file, the unpacker prints the
same before its first read out of bounds, and more (`output_longer`). -/

namespace BinaryLog

open Bytes

/-! ## The unpacker with its output -/

/-- How many calls are behind the id `index`, from the head of the runlength file. -/
def readRun (index : Nat) (runlengthfile : List UInt8) : Option (Nat × List UInt8) :=
  if runlengthfile = [] then some (1, runlengthfile)
  else do
    let (indexInRunlengthFile, _) ← readLittleEndian 2 runlengthfile
    if indexInRunlengthFile = index then do
      let (_, runlengthfile) ← readLittleEndian 2 runlengthfile
      readLittleEndian 8 runlengthfile
    else some (1, runlengthfile)

/-- The loop over the `runlength` calls of one entry of the log file. -/
def printCalls (index : Nat) (entry : IndexEntry) :
    Nat → List UInt8 → Printing LogEntry (List UInt8)
  | 0, logfile => pure logfile
  | runlength + 1, logfile => do
      let (args, logfile) ← .ofOption (parseLogArgs [] entry.args logfile)
      .print ⟨index, entry.formatString, args⟩
      printCalls index entry runlength logfile

/-- `parse_and_print_log_entry`; returns the two cursors. -/
def printLogEntry (indexTable : List IndexEntry) (logfile runlengthfile : List UInt8) :
    Printing LogEntry (List UInt8 × List UInt8) := do
  let (index, logfile) ← .ofOption (readLittleEndian 2 logfile)
  let (runlength, runlengthfile) ← .ofOption (readRun index runlengthfile)
  let entry ← .ofOption indexTable[index]?
  let logfile ← printCalls index entry runlength logfile
  pure (logfile, runlengthfile)

/-- The loop of `parse_and_print`, cut off after `fuel` entries. -/
def printLoop (indexTable : List IndexEntry) :
    Nat → List UInt8 → List UInt8 → Printing LogEntry (List UInt8)
  | _, [], runlengthfile => pure runlengthfile
  | 0, _ :: _, _ => .ofOption none
  | fuel + 1, b :: bs, runlengthfile => do
      let (logfile, runlengthfile) ← printLogEntry indexTable (b :: bs) runlengthfile
      printLoop indexTable fuel logfile runlengthfile

/-- What the `main` of the unpacker does with its two parsers, on mapped files: the index or the log
    may be empty here, whereas the constructors throw then (`Env.unpackerMain`). -/
def Files.print (f : Files) : Printing LogEntry (List UInt8) := do
  let indexTable ← .ofOption (parse f.index)
  printLoop indexTable f.log.length f.log f.runlength

/-- What the unpacker prints before its end or its first read out of bounds. -/
def Files.output (f : Files) : List LogEntry := f.print.output

/-! ## In bounds -/

theorem outcome_printCalls (index : Nat) (entry : IndexEntry) (runlength : Nat)
    (logfile : List UInt8) :
    (printCalls index entry runlength logfile).outcome
      = parseCalls index entry runlength logfile := by
  induction runlength generalizing logfile with
  | zero => rfl
  | succ runlength ih =>
    rw [printCalls, parseCalls, Printing.outcome_ofOption_bind]
    refine congrArg (Option.bind _) (funext fun read => ?_)
    rw [Printing.outcome_print_bind, ih]
    exact Option.map_eq_bind

/-- An entry by its two reads: the id, and the number of calls behind it. -/
theorem parseAndPrintLogEntry_eq_readRun (table : List IndexEntry)
    (logfile runlengthfile : List UInt8) :
    parseAndPrintLogEntry table logfile runlengthfile
      = (readLittleEndian 2 logfile).bind (fun head =>
          (readRun head.1 runlengthfile).bind (fun run =>
            (table[head.1]?).bind (fun entry =>
              (parseCalls head.1 entry run.1 head.2).bind (fun res =>
                some (res.1, res.2, run.2))))) := by
  unfold parseAndPrintLogEntry readRun
  cases hhead : readLittleEndian 2 logfile with
  | none => rfl
  | some head =>
    by_cases hnil : runlengthfile = []
    · simp only [if_pos hnil, Option.bind_eq_bind, Option.bind_some]
    · simp only [if_neg hnil, Option.bind_eq_bind, Option.bind_some]
      cases hnext : readLittleEndian 2 runlengthfile with
      | none => rfl
      | some next =>
        simp only [Option.bind_some]
        by_cases heq : next.1 = head.1
        · simp only [heq, if_true]
        · simp only [if_neg heq, Option.bind_some]

theorem outcome_printLogEntry (table : List IndexEntry) (logfile runlengthfile : List UInt8) :
    (printLogEntry table logfile runlengthfile).outcome
      = parseAndPrintLogEntry table logfile runlengthfile := by
  rw [parseAndPrintLogEntry_eq_readRun, printLogEntry, Printing.outcome_ofOption_bind]
  refine congrArg (Option.bind _) (funext fun head => ?_)
  rw [Printing.outcome_ofOption_bind]
  refine congrArg (Option.bind _) (funext fun run => ?_)
  rw [Printing.outcome_ofOption_bind]
  refine congrArg (Option.bind _) (funext fun entry => ?_)
  rw [Printing.outcome_bind, outcome_printCalls]
  refine congrArg (Option.bind _) (funext fun res => ?_)
  rw [Printing.outcome_pure, Option.map_some, List.append_nil]

theorem outcome_printLoop (table : List IndexEntry) (fuel : Nat)
    (logfile runlengthfile : List UInt8) :
    (printLoop table fuel logfile runlengthfile).outcome
      = parseAndPrintLoop table fuel logfile runlengthfile := by
  induction fuel generalizing logfile runlengthfile with
  | zero => cases logfile <;> rfl
  | succ fuel ih =>
    cases logfile with
    | nil => rfl
    | cons b bs =>
      rw [printLoop, parseAndPrintLoop, Printing.outcome_bind, outcome_printLogEntry]
      refine congrArg (Option.bind _) (funext fun res => ?_)
      rw [ih]
      exact Option.map_eq_bind

/-- In bounds the unpacker with its output is the unpacker without. -/
theorem Files.outcome_print (f : Files) : f.print.outcome = f.unpack := by
  rw [Files.print, Printing.outcome_ofOption_bind, Files.unpack, BinaryLog.unpack]
  exact congrArg (Option.bind _) (funext fun table => outcome_printLoop table _ _ _)

/-- The output of the unpacker on files whose index can be parsed. -/
theorem Files.output_of_parse {f : Files} {table : List IndexEntry}
    (h : parse f.index = some table) :
    f.output = (printLoop table f.log.length f.log f.runlength).output := by
  rw [Files.output, Files.print, h]
  rfl

/-! ## Longer files -/

theorem readSize_longer {type : Option FmtArgType} {file rest : List UInt8} {size : Nat}
    (h : readSize type file = some (size, rest)) (tail : List UInt8) :
    readSize type (file ++ tail) = some (size, rest ++ tail) := by
  unfold readSize at h ⊢
  by_cases hstring : type = some .typeString
  · rw [if_pos hstring] at h ⊢
    exact readLittleEndian_longer h tail
  · rw [if_neg hstring] at h ⊢
    obtain ⟨rfl, rfl⟩ := Prod.mk.inj (Option.some.inj h)
    rfl

theorem parseLogArg_longer {info : IndexArg} {file rest value : List UInt8}
    (h : parseLogArg info file = some (value, rest)) (tail : List UInt8) :
    parseLogArg info (file ++ tail) = some (value, rest ++ tail) := by
  unfold parseLogArg at h ⊢
  by_cases hconstant : info.isConstant = true
  · rw [if_pos hconstant] at h ⊢
    obtain ⟨rfl, rfl⟩ := Prod.mk.inj (Option.some.inj h)
    rfl
  · rw [if_neg hconstant] at h ⊢
    simp only [Option.bind_eq_bind, Option.bind_eq_some_iff, Prod.exists] at h ⊢
    obtain ⟨size, file₁, hsize, hread⟩ := h
    exact ⟨size, file₁ ++ tail, readSize_longer hsize tail, readBytes_longer hread tail⟩

theorem parseLogArgs_longer {infos : List IndexArg}
    {store args : List (FmtArgType × List UInt8)} {file rest : List UInt8}
    (h : parseLogArgs store infos file = some (args, rest)) (tail : List UInt8) :
    parseLogArgs store infos (file ++ tail) = some (args, rest ++ tail) := by
  induction infos generalizing store file with
  | nil =>
    obtain ⟨rfl, rfl⟩ := Prod.mk.inj (Option.some.inj h)
    rfl
  | cons info infos ih =>
    simp only [parseLogArgs, Option.bind_eq_bind, Option.bind_eq_some_iff, Prod.exists] at h ⊢
    obtain ⟨value, file₁, hhead, hrest⟩ := h
    exact ⟨value, file₁ ++ tail, parseLogArg_longer hhead tail, ih hrest⟩

theorem continuedBy_printCalls (index : Nat) (entry : IndexEntry) (runlength : Nat)
    (logfile tail : List UInt8) :
    (printCalls index entry runlength logfile).ContinuedBy (fun rest rest' => rest' = rest ++ tail)
      (printCalls index entry runlength (logfile ++ tail)) := by
  induction runlength generalizing logfile with
  | zero => exact .pure rfl
  | succ runlength ih =>
    have hargs : (Printing.ofOption (ε := LogEntry)
        (parseLogArgs [] entry.args logfile)).ContinuedBy
        (fun read read' => read' = (read.1, read.2 ++ tail))
        (.ofOption (parseLogArgs [] entry.args (logfile ++ tail))) :=
      Printing.continuedBy_ofOption
        (fun read hread => ⟨_, parseLogArgs_longer hread tail, rfl⟩)
    refine hargs.bind ?_
    rintro ⟨args, rest⟩ _ rfl
    exact (Printing.continuedBy_print (R := fun _ _ => True) trivial _).bind (fun _ _ _ => ih rest)

/-- Rows behind those of the table change no lookup in it. -/
theorem getElem?_longer {table table' : List IndexEntry} (h : table <+: table') {index : Nat}
    {entry : IndexEntry} (hentry : table[index]? = some entry) : table'[index]? = some entry := by
  obtain ⟨rows, rfl⟩ := h
  rw [List.getElem?_append_left (List.getElem?_eq_some_iff.1 hentry).1, hentry]

theorem continuedBy_printLogEntry {table table' : List IndexEntry} (h : table <+: table')
    (logfile tail runlengthfile : List UInt8) :
    (printLogEntry table logfile runlengthfile).ContinuedBy
      (fun rest rest' => rest' = (rest.1 ++ tail, rest.2))
      (printLogEntry table' (logfile ++ tail) runlengthfile) := by
  have hhead : (Printing.ofOption (ε := LogEntry) (readLittleEndian 2 logfile)).ContinuedBy
      (fun read read' => read' = (read.1, read.2 ++ tail))
      (.ofOption (readLittleEndian 2 (logfile ++ tail))) :=
    Printing.continuedBy_ofOption
      (fun read hread => ⟨_, readLittleEndian_longer hread tail, rfl⟩)
  refine hhead.bind ?_
  rintro ⟨index, body⟩ _ rfl
  have hrun : (Printing.ofOption (ε := LogEntry) (readRun index runlengthfile)).ContinuedBy
      (fun run run' => run' = run) (.ofOption (readRun index runlengthfile)) :=
    Printing.continuedBy_ofOption (fun run hrun => ⟨run, hrun, rfl⟩)
  refine hrun.bind ?_
  rintro ⟨runlength, rest⟩ _ rfl
  have hentry : (Printing.ofOption (ε := LogEntry) table[index]?).ContinuedBy
      (fun entry entry' => entry' = entry) (.ofOption table'[index]?) :=
    Printing.continuedBy_ofOption
      (fun entry hentry => ⟨entry, getElem?_longer h hentry, rfl⟩)
  refine hentry.bind ?_
  rintro _ entry rfl
  refine (continuedBy_printCalls index entry runlength body tail).bind ?_
  rintro logfile' _ rfl
  exact .pure rfl

/-- A longer log is printed the same way, as far as the shorter one goes. -/
theorem output_printLoop_longer {table table' : List IndexEntry} (h : table <+: table')
    {fuel fuel' : Nat} (hfuel : fuel ≤ fuel') (logfile tail runlengthfile : List UInt8) :
    (printLoop table fuel logfile runlengthfile).output
      <+: (printLoop table' fuel' (logfile ++ tail) runlengthfile).output := by
  induction fuel generalizing fuel' logfile runlengthfile with
  | zero => cases logfile <;> exact List.nil_prefix
  | succ fuel ih =>
    obtain ⟨fuel', rfl⟩ : ∃ f, fuel' = f + 1 := ⟨fuel' - 1, by omega⟩
    cases logfile with
    | nil => exact List.nil_prefix
    | cons b bs =>
      refine (continuedBy_printLogEntry h (b :: bs) tail runlengthfile).output_prefix_bind ?_
      rintro ⟨logfile', rest⟩ _ rfl
      exact ih (Nat.le_of_succ_le_succ hfuel) logfile' rest

theorem parseLoop_longer {fuel fuel' : Nat} {file tail : List UInt8}
    {table table' : List IndexEntry} (h : parseLoop fuel file = some table)
    (h' : parseLoop fuel' (file ++ tail) = some table') : table <+: table' := by
  induction fuel generalizing fuel' file table table' with
  | zero =>
    cases file with
    | nil => exact Option.some.inj h ▸ List.nil_prefix
    | cons b bs => exact absurd h (by simp [parseLoop])
  | succ fuel ih =>
    cases file with
    | nil => exact Option.some.inj h ▸ List.nil_prefix
    | cons b bs =>
      simp only [parseLoop, Option.bind_eq_bind, Option.bind_eq_some_iff, Prod.exists,
        Option.some.injEq] at h
      obtain ⟨entry, rest, hentry, entries, hrest, rfl⟩ := h
      obtain ⟨row, hrow, hfile⟩ := wholeRow_of_parseEntry hentry
      have hentry' : parseEntry (b :: (bs ++ tail)) = some (entry, rest ++ tail) := by
        rw [← List.cons_append, hfile, List.append_assoc]
        exact hrow.parse _
      cases fuel' with
      | zero => exact absurd h' (by simp [parseLoop])
      | succ fuel' =>
        simp only [List.cons_append, parseLoop, hentry', Option.bind_eq_bind, Option.bind_some,
          Option.bind_eq_some_iff, Option.some.injEq] at h'
        obtain ⟨entries', hrest', rfl⟩ := h'
        exact List.cons_prefix_cons.2 ⟨rfl, ih hrest hrest'⟩

/-- With more of the log file and of the index file, beside the same runlength file, what the
    unpacker prints before its first read out of bounds begins with what it has printed before its
    first read out of bounds: whatever the files are, as long as the longer index file is not cut
    inside a row. -/
theorem output_longer {f g : Files} (hindex : f.index <+: g.index) (hlog : f.log <+: g.log)
    (hrunlength : f.runlength = g.runlength) (hparse : (parse g.index).isSome) :
    f.output <+: g.output := by
  obtain ⟨table', htable'⟩ := Option.isSome_iff_exists.1 hparse
  obtain ⟨rows, hindex⟩ := hindex
  obtain ⟨tail, hlog⟩ := hlog
  cases htable : parse f.index with
  | none =>
    have hnone : f.output = [] := by
      rw [Files.output, Files.print, htable]
      rfl
    exact hnone ▸ List.nil_prefix
  | some table =>
    have hlonger : parse (f.index ++ rows) = some table' := hindex ▸ htable'
    rw [Files.output_of_parse htable, Files.output_of_parse htable', ← hlog, hrunlength]
    exact output_printLoop_longer (parseLoop_longer htable hlonger)
      (by rw [List.length_append]; omega) f.log tail g.runlength

/-- One row and its call, and then a second row and half the id of its call. -/
theorem output_longer_two_rows :
    [⟨0, [65], []⟩] <+: Files.output ⟨[1, 0, 65, 0, 1, 0, 66, 0], [0, 0, 1], []⟩ :=
  output_longer (f := ⟨[1, 0, 65, 0], [0, 0], []⟩) (by decide) (by decide) rfl (by decide)

end BinaryLog
