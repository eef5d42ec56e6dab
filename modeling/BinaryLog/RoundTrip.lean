import BinaryLog.Recovery
import BinaryLog.Session

set_option autoImplicit false

/-! # From call sites back to what was logged

The life of one logger: constructed, used by `BINARY_LOG` call sites in any order, destroyed.
`roundTrip_iff` says when the unpacker returns exactly what was logged. It is a condition on the
order of the call sites alone: cut into maximal runs of one call site, a run of one call must not be
followed, as far as the runs of two or more go, by one of the same call site. -/

namespace BinaryLog

open Bytes Simulation Runs Firsts

/-! ## A second flush -/

theorem RunState.pending_reset (run : RunState) : run.reset.pending = [] := by
  unfold RunState.reset
  split
  · rfl
  · next hshort => rw [RunState.pending, if_neg hshort]

/-- A second flush writes nothing. -/
theorem finalFiles_concat_flush (ops : List Op) :
    finalFiles (ops ++ [.flush]) = finalFiles ops := by
  have hevents : callEvents (ops ++ [.flush]) = callEvents ops ++ [.mark] := callEvents_append ops _
  have hrecords : emitted .initial (callEvents ops ++ [.mark] ++ [.mark])
      = emitted .initial (callEvents ops ++ [.mark]) := by
    have hlast := emitted_append .initial (callEvents ops ++ [.mark]) [.mark]
    rw [hlast, finalRun_append]
    simp [emitted, finalRun, RunState.pending_reset]
  rw [finalFiles, hevents, entries_concat_mark, hrecords, registrations_append]
  simp [registrations, finalFiles]

/-! ## Programs that only log -/

section Program

variable {S : Type}

/-- The executions as steps of a program. -/
def logActions (program : List (S × List Arg)) : List (Action S) :=
  program.map (fun x => .log x.1 x.2)

@[simp] theorem executions_logActions (program : List (S × List Arg)) :
    executions (logActions program) = program := by
  induction program with
  | nil => rfl
  | cons x program ih => exact congrArg (List.cons x) ih

variable [DecidableEq S]

theorem flush_notMem_memberCalls (format : S → CString) (statics : Statics S) (next : UInt8)
    (program : List (S × List Arg)) :
    Op.flush ∉ memberCalls format statics next (logActions program) := by
  induction program generalizing statics next with
  | nil => exact List.not_mem_nil
  | cons x program ih =>
    intro h
    rcases List.mem_append.1 h with h | h
    · unfold siteCalls at h
      split at h <;> simp at h
    · exact ih _ _ h

variable {σ : Type} [PackerClass σ]

/-- A logger from its construction to the end of its destruction. -/
def runProgram (sites : S → CallSite) (program : List (S × List Arg)) :
    Except Fault (Logger σ) := do
  let (_, lg) ← runSession (fun s => (sites s).formatString) (logActions program)
  lg.destroy

theorem runProgram_eq (sites : S → CallSite) (program : List (S × List Arg)) :
    (runProgram sites program : Except Fault (Logger σ))
      = Logger.run .fresh (sessionCalls (fun s => (sites s).formatString) (logActions program)
          ++ [.flush] ++ [.flush]) := by
  have hsession := session_eq (fun s => (sites s).formatString) (logActions program)
    (fun _ => none) (.fresh : Logger σ)
  rw [List.append_assoc, Logger.run_append]
  -- a new logger counts its rows from 0
  show _ = (Logger.run .fresh
    (memberCalls _ (fun _ => none) (Logger.fresh : Logger σ).formatStringIndex _) >>= _)
  rw [← hsession, runProgram, runSession]
  cases (logActions program).foldlM (Action.step fun s => (sites s).formatString)
      (fun _ => none, (.fresh : Logger σ)) with
  | error f => rfl
  | ok st => exact Logger.destroy_eq st.2

/-! ## What comes back -/

/-- What a program logs: a format string and typed argument values for each call. -/
def logged (sites : S → CallSite) (program : List (S × List Arg)) :
    List (List UInt8 × List (FmtArgType × List UInt8)) :=
  program.map (fun x => ((sites x.1).formatString.bytes, x.2.map Arg.typedValue))

/-- The unpacker stays in bounds and prints exactly these entries. -/
def Files.Print (f : Files) (expected : List (List UInt8 × List (FmtArgType × List UInt8))) :
    Prop :=
  ∃ entries rest, f.unpack = some (entries, rest) ∧
    entries.map (fun e => (e.formatString, e.args)) = expected

/-- The maximal runs of one call site are unambiguous, and a record can hold their lengths. -/
def RunsRecorded (trace : List S) : Prop :=
  Unambiguous (trace.splitBy (· == ·)) ∧ ∀ run ∈ trace.splitBy (· == ·), run.length < 2 ^ 64

instance (trace : List S) : Decidable (RunsRecorded trace) := by
  unfold RunsRecorded; infer_instance

/-- Every execution of a call site has the same constants. -/
def KeepsConstants (program : List (S × List Arg)) : Prop :=
  ∀ x ∈ program, ∀ y ∈ program, x.1 = y.1 → x.2.map Arg.indexArg = y.2.map Arg.indexArg

/-- Two call sites that are executed differ in their format strings or their argument types. -/
def Distinguishable (sites : S → CallSite) (program : List (S × List Arg)) : Prop :=
  ∀ s ∈ program.map Prod.fst, ∀ t ∈ program.map Prod.fst,
    (sites s).formatString.bytes = (sites t).formatString.bytes →
    (sites s).params.map (fun p => p.type.getArgType)
      = (sites t).params.map (fun p => p.type.getArgType) → s = t

variable {sites : S → CallSite} {program : List (S × List Arg)}

theorem wellTyped_sessionCalls (h : Conforms sites program) (hkeeps : KeepsConstants program)
    (hfits : ∀ x ∈ program, ∀ arg ∈ x.2, arg.value.Fits) :
    WellTyped (sessionCalls (fun s => (sites s).formatString) (logActions program)) := by
  have hprogram := executions_logActions program
  have h' : Conforms sites (executions (logActions program)) := by rwa [hprogram]
  refine ⟨h'.wellFormed (by rwa [hprogram]), ?_⟩
  rw [(memberCalls_of_numbered _ Numbered.start h'.length_keys).1]
  intro c hc
  obtain ⟨x, hx, rfl⟩ := List.mem_map.1 hc
  obtain ⟨y, hy, hsite, hplace⟩ := h'.registration_of_mem hx
  rw [hprogram] at hx hy
  exact ⟨_, hplace, hkeeps x hx y hy hsite.symm, hfits x hx⟩

theorem map_index_sessionCalls (h : Conforms sites program) :
    (calls (sessionCalls (fun s => (sites s).formatString) (logActions program))).map Call.index
      = (program.map Prod.fst).map ((keys Prod.fst [] program).idxOf ·) := by
  have h' : Conforms sites (executions (logActions program)) := by rwa [executions_logActions]
  rw [(memberCalls_of_numbered _ Numbered.start h'.length_keys).1, executions_logActions]
  simp

theorem mem_keys_of_mem_map {s : S} (hs : s ∈ program.map Prod.fst) :
    s ∈ keys Prod.fst [] program := by
  obtain ⟨x, hx, rfl⟩ := List.mem_map.1 hs
  exact mem_keys Prod.fst [] hx

/-- Ids number the call sites, so the runs of one id are the runs of one call site. -/
theorem recover_iff_runsRecorded (h : Conforms sites program) (hkeeps : KeepsConstants program)
    (hfits : ∀ x ∈ program, ∀ arg ∈ x.2, arg.value.Fits) :
    (finalFiles (sessionCalls (fun s => (sites s).formatString) (logActions program))).Recover
        (sessionCalls (fun s => (sites s).formatString) (logActions program))
      ↔ RunsRecorded (program.map Prod.fst) := by
  have hflush :=
    flush_notMem_memberCalls (fun s => (sites s).formatString) (fun _ => none) 0 program
  have hinj : ∀ s ∈ program.map Prod.fst, ∀ t ∈ program.map Prod.fst,
      (keys Prod.fst [] program).idxOf s = (keys Prod.fst [] program).idxOf t → s = t :=
    fun s hs t _ heq => (List.idxOf_inj (mem_keys_of_mem_map hs)).1 heq
  have hruns := map_pieces_of_noFlush hflush
  rw [map_index_sessionCalls h, splitBy_map hinj] at hruns
  have hlengths : (∀ p ∈ pieces (callEvents (sessionCalls (fun s => (sites s).formatString)
        (logActions program))), p.length < 2 ^ 64) ↔
      ∀ run ∈ (program.map Prod.fst).splitBy (· == ·), run.length < 2 ^ 64 := by
    have hall := congrArg (fun runs => ∀ l ∈ runs.map List.length, l < 2 ^ 64) hruns
    simpa using hall
  rw [recover_finalFiles_iff (wellTyped_sessionCalls h hkeeps hfits), legible_iff, hruns, hlengths,
    unambiguous_map_iff (by rwa [List.flatten_splitBy]), RunsRecorded]
  exact ⟨fun hboth => ⟨hboth.2, hboth.1.2⟩,
    fun hboth => ⟨⟨cutsOnlyZero_of_noFlush hflush, hboth.2⟩, hboth.1⟩⟩

/-- What the decoder should print for an execution. -/
def printedExecution (sites : S → CallSite) (program : List (S × List Arg)) (x : S × List Arg) :
    LogEntry :=
  ⟨(keys Prod.fst [] program).idxOf x.1, (sites x.1).formatString.bytes, x.2.map Arg.typedValue⟩

theorem map_printed_calls (h : Conforms sites program) :
    (calls (sessionCalls (fun s => (sites s).formatString) (logActions program))).map
        (Call.printed (rowTable (sessionCalls (fun s => (sites s).formatString)
          (logActions program))))
      = program.map (printedExecution sites program) := by
  have hprogram := executions_logActions program
  have h' : Conforms sites (executions (logActions program)) := by rwa [hprogram]
  rw [(memberCalls_of_numbered _ Numbered.start h'.length_keys).1, hprogram, List.map_map]
  refine List.map_congr_left (fun x hx => ?_)
  obtain ⟨y, -, -, hplace⟩ := h'.registration_of_mem (x := x) (by rwa [hprogram])
  rw [hprogram] at hplace
  simp only [Function.comp_apply, Call.printed, rowTable, List.getElem?_map, hplace,
    Option.map_some, Option.getD_some, printedExecution]
  rfl

/-- Decoding to the calls is more than printing them: an entry also has its row. -/
theorem print_of_recover (h : Conforms sites program) {f : Files}
    (hrecover : f.Recover (sessionCalls (fun s => (sites s).formatString) (logActions program))) :
    f.Print (logged sites program) := by
  obtain ⟨-, rest, hunpack⟩ := hrecover
  rw [map_printed_calls h] at hunpack
  refine ⟨_, rest, hunpack, ?_⟩
  rw [List.map_map]
  rfl

/-- Where call sites can be told apart, a printed entry tells its row. -/
theorem eq_printedExecution (hsites : Distinguishable sites program) {x : S × List Arg}
    (h : Conforms sites program) (hx : x ∈ program) {e : LogEntry}
    (hrow : e.OfRow (rowTable (sessionCalls (fun s => (sites s).formatString)
      (logActions program))))
    (hformat : e.formatString = (sites x.1).formatString.bytes)
    (hargs : e.args = x.2.map Arg.typedValue) : e = printedExecution sites program x := by
  have hprogram := executions_logActions program
  have h' : Conforms sites (executions (logActions program)) := by rwa [hprogram]
  obtain ⟨row, hrow, hrowFormat, hrowArgs⟩ := hrow
  rw [rowTable, h'.registrations_eq, hprogram, List.map_map, List.getElem?_map,
    Option.map_eq_some_iff] at hrow
  obtain ⟨y, hplace, rfl⟩ := hrow
  have hy : y ∈ program := (firsts_sublist Prod.fst [] program).subset (List.mem_of_getElem? hplace)
  have htypes (z : S × List Arg) (hz : z ∈ program) :
      (sites z.1).params.map (fun p => p.type.getArgType)
        = z.2.map (fun arg => arg.value.getArgType) := by
    rw [← h.params z hz]
    simp [Arg.param, ArgValue.getArgType]
  -- the entry was read with the row of `y`, so `x` and `y` print the same text and types
  have hsame : (sites y.1).params.map (fun p => p.type.getArgType)
      = (sites x.1).params.map (fun p => p.type.getArgType) := by
    rw [hargs] at hrowArgs
    rw [htypes x hx, htypes y hy]
    simpa [Registration.row, Arg.indexArg, Arg.typedValue, List.filterMap_map, Function.comp_def]
      using hrowArgs.symm
  have hxy : y.1 = x.1 := hsites y.1 (List.mem_map_of_mem hy) x.1 (List.mem_map_of_mem hx)
    (hrowFormat.symm.trans hformat) hsame
  have hindex : (keys Prod.fst [] program).idxOf x.1 = e.index := by
    have hkey : (keys Prod.fst [] program)[e.index]? = some x.1 := by
      rw [keys, List.nil_append, List.getElem?_map, hplace, Option.map_some, hxy]
    obtain ⟨hlt, hget⟩ := List.getElem?_eq_some_iff.1 hkey
    rw [← hget]
    exact (nodup_keys Prod.fst List.nodup_nil program).idxOf_getElem e.index hlt
  cases e
  simp only [printedExecution, LogEntry.mk.injEq]
  exact ⟨hindex.symm, hformat, hargs⟩

theorem recover_of_print (h : Conforms sites program) (hkeeps : KeepsConstants program)
    (hfits : ∀ x ∈ program, ∀ arg ∈ x.2, arg.value.Fits) (hsites : Distinguishable sites program)
    (hprint : (finalFiles (sessionCalls (fun s => (sites s).formatString)
      (logActions program))).Print (logged sites program)) :
    (finalFiles (sessionCalls (fun s => (sites s).formatString) (logActions program))).Recover
      (sessionCalls (fun s => (sites s).formatString) (logActions program)) := by
  obtain ⟨entries, rest, hunpack, hprinted⟩ := hprint
  have htyped := wellTyped_sessionCalls h hkeeps hfits
  refine ⟨htyped.parse_index, rest, ?_⟩
  rw [map_printed_calls h, hunpack]
  rw [unpack_finalFiles htyped] at hunpack
  have hrows := readWith_of_parseAndPrintLoop hunpack
  have hlength : entries.length = program.length := by
    simpa [logged] using congrArg List.length hprinted
  have hentries : entries = program.map (printedExecution sites program) := by
    refine List.ext_getElem (by rw [hlength, List.length_map]) (fun i hi hi' => ?_)
    have hget := List.getElem_of_eq hprinted (i := i) (by rwa [List.length_map])
    simp only [logged, List.getElem_map, Prod.mk.injEq] at hget
    rw [List.getElem_map]
    exact eq_printedExecution hsites h (List.getElem_mem _) (hrows _ (List.getElem_mem hi)).ofRow
      hget.1 hget.2
  rw [hentries]

theorem exists_runProgram {n m r : Nat} (hn : 1 ≤ n) (hm : 2 ≤ m) (hr : 10 ≤ r)
    (sites : S → CallSite) (program : List (S × List Arg)) :
    ∃ lg : Logger (Packer n m r), runProgram sites program = .ok lg ∧ lg.packer.files
      = finalFiles (sessionCalls (fun s => (sites s).formatString) (logActions program)) := by
  have hpos : 1 ≤ r := by omega
  obtain ⟨lg, hlg⟩ := (Packer.sufficient hn hm hpos).run Packer.refinement
    (sessionCalls (fun s => (sites s).formatString) (logActions program) ++ [.flush] ++ [.flush])
    trivial
  refine ⟨lg, by rw [runProgram_eq, hlg], ?_⟩
  rw [Packer.files_of_run_flush hr hlg, finalFiles_concat_flush]

/-- With any buffer sizes (the runlength buffer at least ten bytes): the unpacker prints what was
    logged if the runs of the call sites are recorded unambiguously; and if the call sites can be
    told apart by what they print, then only if. -/
theorem roundTrip_iff {n m r : Nat} (hn : 1 ≤ n) (hm : 2 ≤ m) (hr : 10 ≤ r)
    (sites : S → CallSite) (program : List (S × List Arg)) (h : Conforms sites program)
    (hkeeps : KeepsConstants program)
    (hfits : ∀ x ∈ program, ∀ arg ∈ x.2, arg.value.Fits) :
    ∃ lg : Logger (Packer n m r), runProgram sites program = .ok lg ∧
      (RunsRecorded (program.map Prod.fst) → lg.packer.files.Print (logged sites program)) ∧
      (Distinguishable sites program → lg.packer.files.Print (logged sites program) →
        RunsRecorded (program.map Prod.fst)) := by
  obtain ⟨lg, hlg, hfiles⟩ := exists_runProgram hn hm hr sites program
  refine ⟨lg, hlg, ?_⟩
  rw [hfiles, ← recover_iff_runsRecorded h hkeeps hfits]
  exact ⟨print_of_recover h, recover_of_print h hkeeps hfits⟩

end Program

/-- Two call sites, one of them with a constant and a variable argument. -/
def twoSites : Bool → CallSite
  | true => ⟨.literal [65], [⟨.string, true⟩, ⟨.scalar .uint8, false⟩]⟩
  | false => ⟨.literal [66], []⟩

/-- The arguments of one execution of the first. -/
def firstArgs (b : UInt8) : List Arg :=
  [.constant (.string [7, 8]), .dynamic (.uint8 b)]

/-- The first call site twice, the second, and the first again. -/
def twoOneOne : List (Bool × List Arg) :=
  [(true, firstArgs 1), (true, firstArgs 2), (false, []), (true, firstArgs 3)]

theorem conforms_twoSites {program : List (Bool × List Arg)}
    (h : ∀ x ∈ program, x = (false, []) ∨ ∃ b, x = (true, firstArgs b))
    (hcount : (program.map Prod.fst).dedup.length ≤ 256) :
    Conforms twoSites program ∧ KeepsConstants program ∧
      ∀ x ∈ program, ∀ arg ∈ x.2, arg.value.Fits := by
  have hfits : ∀ x ∈ program, ∀ arg ∈ x.2, arg.value.Fits := by
    intro x hx
    rcases h x hx with rfl | ⟨b, rfl⟩
    · simp
    · simp [firstArgs, ArgValue.Fits, ArgValue.uint8, Arg.value]
  refine ⟨⟨?_, ?_, ?_, fun x hx _ hinput => hfits x hx _ hinput, hcount⟩, ?_, hfits⟩
  · intro x hx
    rcases h x hx with rfl | ⟨b, rfl⟩ <;> rfl
  · intro x _
    cases x.1 <;> decide
  · intro x hx
    rcases h x hx with rfl | ⟨b, rfl⟩
    · exact Nat.zero_le _
    · exact Nat.le_of_ble_eq_true rfl
  · intro x hx y hy hxy
    rcases h x hx with rfl | ⟨b, rfl⟩ <;> rcases h y hy with rfl | ⟨c, rfl⟩
    · rfl
    · exact absurd hxy (by simp)
    · exact absurd hxy (by simp)
    · rfl

/-- A run of two and a single execution of the same call site. -/
theorem roundTrip_two_one_one :
    ∃ lg : Logger (Packer 1048576 32 32), runProgram twoSites twoOneOne = .ok lg ∧
      lg.packer.files.Print [([65], [(.typeString, [7, 8]), (.typeUint8, [1])]),
        ([65], [(.typeString, [7, 8]), (.typeUint8, [2])]), ([66], []),
        ([65], [(.typeString, [7, 8]), (.typeUint8, [3])])] := by
  obtain ⟨hconforms, hkeeps, hfits⟩ := conforms_twoSites
    (show ∀ x ∈ twoOneOne, _ by simp [twoOneOne]) (by decide)
  obtain ⟨lg, hlg, hprint, -⟩ := roundTrip_iff (n := 1048576) (m := 32) (r := 32) (by decide)
    (by decide) (by decide) twoSites twoOneOne hconforms hkeeps hfits
  exact ⟨lg, hlg, hprint (by decide)⟩

/-- The first call site, the second, and the first twice. -/
def oneOneTwo : List (Bool × List Arg) :=
  [(true, firstArgs 1), (false, []), (true, firstArgs 2), (true, firstArgs 3)]

/-- The single execution in front takes the record of the two behind it. -/
theorem roundTrip_one_one_two :
    ∃ lg : Logger (Packer 1048576 32 32),
      Conforms twoSites oneOneTwo ∧ KeepsConstants oneOneTwo ∧
      (∀ x ∈ oneOneTwo, ∀ arg ∈ x.2, arg.value.Fits) ∧
      runProgram twoSites oneOneTwo = .ok lg ∧
      ¬ lg.packer.files.Print (logged twoSites oneOneTwo) := by
  obtain ⟨hconforms, hkeeps, hfits⟩ := conforms_twoSites
    (show ∀ x ∈ oneOneTwo, _ by simp [oneOneTwo]) (by decide)
  have hsites : Distinguishable twoSites oneOneTwo := by
    intro s _ t _ hformat _
    cases s <;> cases t <;> first | rfl | exact absurd hformat (by decide)
  obtain ⟨lg, hlg, hfiles⟩ := exists_runProgram (n := 1048576) (m := 32) (r := 32) (by decide)
    (by decide) (by decide) twoSites oneOneTwo
  refine ⟨lg, hconforms, hkeeps, hfits, hlg, ?_⟩
  rw [hfiles]
  intro hprint
  have hrecover := recover_of_print hconforms hkeeps hfits hsites hprint
  exact absurd ((recover_iff_runsRecorded hconforms hkeeps hfits).1 hrecover) (by decide)

end BinaryLog
