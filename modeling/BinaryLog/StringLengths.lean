import BinaryLog.RecordedRows
import BinaryLog.RunlengthFile

set_option autoImplicit false

/-! # Strings longer than their length field

A string is written behind its length modulo 2^16. Four of the five writers go on with as many bytes
as that, so a long string is recorded as a prefix of itself and nothing behind it moves; the writer
of a `std::string` constant passes the whole string. `strings_recorded_iff` says for which runs
every string is read back as its recorded prefix and all three files are those of the recorded
prefixes. -/

namespace BinaryLog

open Bytes Simulation

/-! ## The five writers -/

/-- A string with the writer it goes through. -/
inductive StringWrite where
  | formatString (input : CString)
  | logCstr (input : CString)
  | logString (input : List UInt8)
  | indexCstr (input : CString)
  | indexString (input : List UInt8)

/-- The bytes of the string. -/
def StringWrite.input : StringWrite → List UInt8
  | .formatString input => input.bytes
  | .logCstr input => input.bytes
  | .logString input => input
  | .indexCstr input => input.bytes
  | .indexString input => input

/-- What the writer passes to its buffer function. -/
def StringWrite.writes : StringWrite → List (List UInt8)
  | .formatString input => input.formatStringWrites
  | .logCstr input => (ArgValue.cstr input).logWrites
  | .logString input => (ArgValue.string input).logWrites
  | .indexCstr input => (ArgValue.cstr input).indexWrites
  | .indexString input => (ArgValue.string input).indexWrites

/-- How both parsers read a string. -/
def readString (file : List UInt8) : Option (List UInt8 × List UInt8) := do
  let (size, file) ← readSize (some .typeString) file
  readBytes size file

/-- The payload is as long as the length in front of it, and whatever comes next in the file, a
    parser that has read the string stands at it. -/
structure StringWrite.InSync (w : StringWrite) : Prop where
  payload : ∃ size payload, size < 2 ^ 16 ∧ w.writes = [toLittleEndian 2 size, payload] ∧
    payload.length = size
  read : ∀ rest, readString (w.writes.flatten ++ rest) = some (recordedPrefix w.input, rest)

/-- A string behind its own length is read back. -/
theorem readString_append {bs : List UInt8} (h : bs.length < 2 ^ 16) (rest : List UInt8) :
    readString (toLittleEndian 2 bs.length ++ bs ++ rest) = some (bs, rest) := by
  have hlength : bs.length < 256 ^ 2 := h
  rw [readString, readSize, if_pos rfl, List.append_assoc, readLittleEndian_append hlength]
  exact readBytes_append bs rest

/-- A writer that passes the recorded prefix is in sync. -/
theorem StringWrite.inSync_of_writes {w : StringWrite}
    (h : w.writes = [toLittleEndian 2 (w.input.length % 2 ^ 16), recordedPrefix w.input]) :
    w.InSync := by
  refine ⟨⟨_, _, Nat.mod_lt _ (by decide), h, length_recordedPrefix w.input⟩, fun rest => ?_⟩
  have hread := readString_append (length_recordedPrefix_lt w.input) rest
  rw [length_recordedPrefix] at hread
  rw [h, List.flatten_cons, List.flatten_singleton]
  exact hread

/-- All writers keep in sync except the one of string constants, for strings beyond 65535 bytes. -/
theorem StringWrite.inSync_iff (w : StringWrite) :
    w.InSync ↔ ∀ input, w = .indexString input → input.length ≤ 65535 := by
  constructor
  · rintro hsync input rfl
    obtain ⟨size, payload, hsize, hwrites, hlength⟩ := hsync.payload
    have hpayload : input = payload := (List.cons.inj (List.cons.inj hwrites).2).1
    rw [hpayload, hlength]
    exact Nat.le_of_lt_succ hsize
  · intro h
    refine inSync_of_writes ?_
    cases w with
    | formatString input => rfl
    | logCstr input => rfl
    | logString input => rfl
    | indexCstr input => rfl
    | indexString input =>
      have hlt : input.length < 2 ^ 16 := Nat.lt_succ_of_le (h input rfl)
      rw [StringWrite.input, recordedPrefix_of_lt hlt]
      rfl

/-- Behind the recorded prefix of a string constant the parser finds the rest of the string. -/
theorem readString_indexString (input : List UInt8) :
    readString (StringWrite.indexString input).writes.flatten
      = some (recordedPrefix input, input.drop (input.length % 2 ^ 16)) := by
  have hread := readString_append (length_recordedPrefix_lt input)
    (input.drop (input.length % 2 ^ 16))
  rw [length_recordedPrefix, List.append_assoc, recordedPrefix, List.take_append_drop] at hread
  have hwrites : (StringWrite.indexString input).writes.flatten
      = toLittleEndian 2 (input.length % 2 ^ 16) ++ input := by
    simp [StringWrite.writes, ArgValue.indexWrites]
  rw [hwrites, hread, recordedPrefix]

/-! ## The strings of a run -/

/-- The string a value brings to the log. -/
def ArgValue.logStrings : ArgValue → List StringWrite
  | .scalar _ _ => []
  | .cstr input => [.logCstr input]
  | .string input => [.logString input]

/-- The string a constant brings to the index. -/
def ArgValue.indexStrings : ArgValue → List StringWrite
  | .scalar _ _ => []
  | .cstr input => [.indexCstr input]
  | .string input => [.indexString input]

/-- The strings of an argument of a log call: those of constants are not written. -/
def Arg.logStrings : Arg → List StringWrite
  | .dynamic value => value.logStrings
  | .constant _ => []

/-- The strings of an argument of a row. -/
def Arg.indexStrings : Arg → List StringWrite
  | .dynamic _ => []
  | .constant value => value.indexStrings

/-- The strings a member call writes. -/
def Op.strings : Op → List StringWrite
  | .logIndex formatString args =>
      .formatString formatString ::
        if 0 < UInt8.ofNat args.length then args.flatMap Arg.indexStrings else []
  | .log _ args => args.flatMap Arg.logStrings
  | .flush => []

theorem mem_registrations {ops : List Op} {r : Registration} :
    r ∈ registrations ops ↔ .logIndex r.formatString r.args ∈ ops := by
  obtain ⟨formatString, args⟩ := r
  induction ops with
  | nil => simp [registrations]
  | cons op ops ih => cases op <;> simp [registrations, ih]

theorem mem_flatMap_indexStrings {args : List Arg} {input : List UInt8} :
    StringWrite.indexString input ∈ args.flatMap Arg.indexStrings
      ↔ Arg.constant (.string input) ∈ args := by
  rw [List.mem_flatMap]
  constructor
  · rintro ⟨arg, harg, hmem⟩
    cases arg with
    | dynamic value => exact absurd hmem List.not_mem_nil
    | constant value =>
      cases value with
      | scalar type bytes => exact absurd hmem List.not_mem_nil
      | cstr s => exact absurd (List.mem_singleton.1 hmem) (by simp)
      | string s =>
        obtain rfl := StringWrite.indexString.inj (List.mem_singleton.1 hmem)
        exact harg
  · intro harg
    exact ⟨_, harg, List.mem_singleton.2 rfl⟩

theorem indexString_notMem_logStrings {args : List Arg} {input : List UInt8} :
    StringWrite.indexString input ∉ args.flatMap Arg.logStrings := by
  rw [List.mem_flatMap]
  rintro ⟨arg, -, hmem⟩
  cases arg with
  | constant value => exact absurd hmem List.not_mem_nil
  | dynamic value => cases value <;> simp [Arg.logStrings, ArgValue.logStrings] at hmem

theorem inSync_strings_iff (ops : List Op) :
    (∀ op ∈ ops, ∀ w ∈ op.strings, w.InSync) ↔ ∀ r ∈ registrations ops, r.ShortConstants := by
  simp only [StringWrite.inSync_iff]
  constructor
  · intro h r hr hwritten input hinput
    refine h _ (mem_registrations.1 hr) (.indexString input) ?_ input rfl
    rw [Op.strings, if_pos hwritten]
    exact List.mem_cons_of_mem _ (mem_flatMap_indexStrings.2 hinput)
  · rintro h op hop w hw input rfl
    cases op with
    | logIndex formatString args =>
      have hshort := h ⟨formatString, args⟩ (mem_registrations.2 hop)
      rw [Op.strings] at hw
      have hmem := (List.mem_cons.1 hw).resolve_left (by simp)
      split at hmem
      · next hwritten => exact hshort hwritten input (mem_flatMap_indexStrings.1 hmem)
      · exact absurd hmem List.not_mem_nil
    | log pos args => exact absurd hw indexString_notMem_logStrings
    | flush => exact absurd hw List.not_mem_nil

/-! ## Whole runs -/

/-- The member call with the recorded prefixes for its strings. -/
def Op.recorded : Op → Op
  | .logIndex formatString args => .logIndex formatString.recorded (args.map Arg.recorded)
  | .log pos args => .log pos (args.map Arg.recorded)
  | .flush => .flush

theorem ArgValue.logWrites_recorded (value : ArgValue) :
    value.recorded.logWrites = value.logWrites := by
  cases value with
  | scalar type bytes => rfl
  | cstr input => exact input.formatStringWrites_recorded
  | string input =>
    show [toLittleEndian 2 ((recordedPrefix input).length % 2 ^ 16),
      recordedPrefix (recordedPrefix input)] = _
    rw [length_recordedPrefix_mod, recordedPrefix_recordedPrefix]
    rfl

theorem Arg.logWrites_recorded (arg : Arg) : arg.recorded.logWrites = arg.logWrites := by
  cases arg with
  | constant value => rfl
  | dynamic value => exact value.logWrites_recorded

theorem registrations_recorded (ops : List Op) :
    registrations (ops.map Op.recorded) = (registrations ops).map Registration.recorded := by
  induction ops with
  | nil => rfl
  | cons op ops ih => cases op <;> simp [registrations, Op.recorded, Registration.recorded, ih]

theorem Streams.step_recorded {s : Streams} {op : Op}
    (h : ∀ r ∈ registrations [op], r.ShortConstants) : s.step op.recorded = s.step op := by
  cases op with
  | logIndex formatString args =>
    have hrow := Registration.rowBytes_recorded
      ((Registration.excess_eq_zero_iff ⟨formatString, args⟩).2 (h _ List.mem_cons_self))
    exact congrArg s.appendIndex hrow
  | log pos args =>
    have hargs : Call.argBytes ⟨pos % 2 ^ 16, args.map Arg.recorded⟩
        = Call.argBytes ⟨pos % 2 ^ 16, args⟩ := by
      simp only [Call.argBytes, List.flatMap_map, Arg.logWrites_recorded]
    exact congrArg (Streams.appendLog (s.packIndex (pos % 2 ^ 16))) hargs
  | flush => rfl

theorem Streams.runOps_recorded {s : Streams} {ops : List Op}
    (h : ∀ r ∈ registrations ops, r.ShortConstants) :
    s.runOps (ops.map Op.recorded) = s.runOps ops := by
  induction ops generalizing s with
  | nil => rfl
  | cons op ops ih =>
    have hsplit : registrations (op :: ops) = registrations [op] ++ registrations ops :=
      registrations_append [op] ops
    rw [hsplit] at h
    rw [List.map_cons, runOps_cons, runOps_cons,
      Streams.step_recorded (fun r hr => h r (List.mem_append_left _ hr))]
    exact ih (fun r hr => h r (List.mem_append_right _ hr))

/-- Rows with long constants make the index file longer. -/
theorem shortConstants_of_rowBytes {regs : List Registration}
    (h : (regs.map Registration.recorded).flatMap Registration.rowBytes
      = regs.flatMap Registration.rowBytes) : ∀ r ∈ regs, r.ShortConstants := by
  have hlength : ∀ regs : List Registration, (regs.flatMap Registration.rowBytes).length
      = ((regs.map Registration.recorded).flatMap Registration.rowBytes).length
        + (regs.map Registration.excess).sum := by
    intro regs
    induction regs with
    | nil => rfl
    | cons r regs ih =>
      simp only [List.flatMap_cons, List.length_append, List.map_cons, List.sum_cons, ih,
        r.length_rowBytes]
      omega
  have hsum := hlength regs
  rw [h] at hsum
  have hzero : (regs.map Registration.excess).sum = 0 := by omega
  rw [List.sum_eq_zero_iff_forall_eq_nat, List.forall_mem_map] at hzero
  exact fun r hr => r.excess_eq_zero_iff.1 (hzero r hr)

theorem closedRuns_recorded (ops : List Op) :
    closedRuns (ops.map Op.recorded) = closedRuns ops := by
  have hemitted : ∀ run, emitted run (callEvents (ops.map Op.recorded) ++ [.mark])
      = emitted run (callEvents ops ++ [.mark]) := by
    induction ops with
    | nil => intro run; rfl
    | cons op ops ih =>
      intro run
      cases op with
      | logIndex formatString args => exact ih run
      | log pos args => exact congrArg (run.closing (pos % 2 ^ 16) ++ ·) (ih _)
      | flush => exact congrArg (run.pending ++ ·) (ih _)
  exact hemitted .initial

/-- The files of a run that ends with a flush, whatever the size of the runlength buffer. -/
theorem Packer.files_of_run_flush_restarts {n m r : Nat} {ops : List Op}
    {lg : Logger (Packer n m r)} (h : Logger.run .fresh (ops ++ [.flush]) = .ok lg) :
    lg.packer.files = ⟨(Streams.initial.runOps ops).index, (Streams.initial.runOps ops).log,
      ((closedRuns ops).map (fun rec => restarted r (recordBytes rec) 10)).flatten⟩ := by
  have hrestarts := Packer.restarts.run h
  obtain ⟨hlog, hindex, hrunlength⟩ := Packer.spilled_eq_contents h
  rw [Packer.files, hlog, hrestarts.refines.log, hindex, hrestarts.refines.index, hrunlength,
    hrestarts.contents_eq, Streams.runOps_append]
  rfl

/-- Every string of a run on `packer` is read back as its recorded prefix, with the reader at what
    was written next, if and only if no row with written constants has a `std::string` constant of
    more than 65535 bytes; and exactly then the files are those of the run with all strings replaced
    by their recorded prefixes, so that everything else is decoded as in that run. -/
theorem strings_recorded_iff {n m r : Nat} (ops : List Op) :
    ((∀ op ∈ ops, ∀ w ∈ op.strings, w.InSync) ↔
      ∀ reg ∈ registrations ops, reg.ShortConstants) ∧
    (1 ≤ n → 2 ≤ m → 1 ≤ r → ∃ lg lg' : Logger (Packer n m r),
      Logger.run .fresh (ops ++ [.flush]) = .ok lg ∧
      Logger.run .fresh (ops.map Op.recorded ++ [.flush]) = .ok lg') ∧
    ∀ lg lg' : Logger (Packer n m r), Logger.run .fresh (ops ++ [.flush]) = .ok lg →
      Logger.run .fresh (ops.map Op.recorded ++ [.flush]) = .ok lg' →
      (lg.packer.files = lg'.packer.files ↔ ∀ reg ∈ registrations ops, reg.ShortConstants) := by
  refine ⟨inSync_strings_iff ops, fun hn hm hr => ?_, fun lg lg' hlg hlg' => ?_⟩
  · obtain ⟨lg, hlg⟩ := Packer.run_isSome hn hm hr .fresh (ops ++ [.flush])
    obtain ⟨lg', hlg'⟩ := Packer.run_isSome hn hm hr .fresh (ops.map Op.recorded ++ [.flush])
    exact ⟨lg, lg', hlg, hlg'⟩
  · rw [Packer.files_of_run_flush_restarts hlg, Packer.files_of_run_flush_restarts hlg',
      closedRuns_recorded]
    constructor
    · intro h
      have hindex := congrArg Files.index h
      simp only [Streams.index_runOps, registrations_recorded] at hindex
      exact shortConstants_of_rowBytes (List.append_cancel_left hindex).symm
    · intro h
      rw [Streams.runOps_recorded h]

/-- A constant of three bytes and a later call. -/
theorem strings_recorded_three :
    ∃ lg lg' : Logger (Packer 1 2 10),
      Logger.run .fresh ([.logIndex (.literal [65]) [.constant (.string [97, 98, 99])],
        .log 0 [.constant (.string [97, 98, 99])]] ++ [.flush]) = .ok lg ∧
      lg.packer.files = lg'.packer.files := by
  obtain ⟨-, hreturns, hiff⟩ := strings_recorded_iff (n := 1) (m := 2) (r := 10)
    [.logIndex (.literal [65]) [.constant (.string [97, 98, 99])],
      .log 0 [.constant (.string [97, 98, 99])]]
  obtain ⟨lg, lg', hlg, hlg'⟩ := hreturns le_rfl le_rfl (by decide)
  refine ⟨lg, lg', hlg, (hiff lg lg' hlg hlg').2 ?_⟩
  intro reg hreg hwritten input hinput
  obtain rfl := List.mem_singleton.1 hreg
  obtain rfl : input = [97, 98, 99] := by simpa using hinput
  decide

/-- A constant of 65536 bytes: its length is recorded as 0, and the parser stands at its first byte
    instead of behind its last one. -/
theorem string_constant_out_of_sync :
    ¬ (∀ op ∈ [Op.logIndex (.literal [65]) [.constant (.string (List.replicate 65536 97))]],
      ∀ w ∈ op.strings, w.InSync) ∧
    readString (StringWrite.indexString (List.replicate 65536 97)).writes.flatten
      = some ([], List.replicate 65536 97) := by
  refine ⟨fun h => ?_, ?_⟩
  · have hshort := (inSync_strings_iff _).1 h _ List.mem_cons_self (by decide) _ List.mem_cons_self
    rw [List.length_replicate] at hshort
    exact absurd hshort (by decide)
  · have hmod : 65536 % 2 ^ 16 = 0 := by decide
    rw [readString_indexString, recordedPrefix, List.length_replicate, hmod, List.take_zero,
      List.drop_zero]

end BinaryLog
