import BinaryLog.Agreement
import BinaryLog.Unpacker

set_option autoImplicit false

/-! # The index file

An index row holds the format string, the argument count, all type bytes, and then for each argument
its constness flag and, for a constant, its value, whose size follows from a type byte read earlier.
`parseEntry_append` says that the parser takes exactly one row off the front of the file, and
`index_roundTrip` that the flushed file is the table of the registrations.

What the parser returns is bounded by the length fields of the format, whatever is in the file
(`parseLoop_bounded`); so a table that holds a registration as it was made tells that the
registration fits (`Registration.wellFormed_of_bounded`). -/

namespace BinaryLog

open Bytes Simulation

/-! ## Values -/

/-- A value as the parsers expect it: a string behind its 16-bit length, a number as it is. -/
def ArgValue.framed : ArgValue → List UInt8
  | .scalar _ input => input.val
  | .cstr input => toLittleEndian 2 input.bytes.length ++ input.bytes
  | .string input => toLittleEndian 2 input.length ++ input

theorem ArgValue.flatten_logWrites {value : ArgValue} (h : value.Fits) :
    value.logWrites.flatten = value.framed := by
  cases value with
  | scalar type input => simp [ArgValue.logWrites, ArgValue.framed]
  | cstr input =>
    have hmod : input.bytes.length % 2 ^ 16 = input.bytes.length :=
      Nat.mod_eq_of_lt (Nat.lt_succ_of_le h)
    simp only [ArgValue.logWrites, ArgValue.framed, hmod, List.take_length, List.flatten_cons,
      List.flatten_nil, List.append_nil]
  | string input =>
    have hmod : input.length % 2 ^ 16 = input.length := Nat.mod_eq_of_lt (Nat.lt_succ_of_le h)
    simp only [ArgValue.logWrites, ArgValue.framed, hmod, List.take_length, List.flatten_cons,
      List.flatten_nil, List.append_nil]

theorem ArgValue.flatten_indexWrites {value : ArgValue} (h : value.Fits) :
    value.indexWrites.flatten = value.framed := by
  cases value with
  | scalar type input => simp [ArgValue.indexWrites, ArgValue.framed]
  | cstr input =>
    have hlog := ArgValue.flatten_logWrites h
    exact hlog
  | string input =>
    have hmod : input.length % 2 ^ 16 = input.length := Nat.mod_eq_of_lt (Nat.lt_succ_of_le h)
    simp only [ArgValue.indexWrites, ArgValue.framed, hmod, List.flatten_cons, List.flatten_nil,
      List.append_nil]

theorem readSize_framed {value : ArgValue} (h : value.Fits) (rest : List UInt8) :
    readSize (some value.getArgType) (value.framed ++ rest)
      = some (value.bytes.length, value.bytes ++ rest) := by
  cases value with
  | scalar type input =>
    have hne : (some type.getArgType : Option FmtArgType) ≠ some .typeString :=
      fun heq => type.getArgType_ne_typeString (Option.some.inj heq)
    simp only [readSize, ArgValue.getArgType, ArgValue.cppType, CppType.getArgType, if_neg hne,
      sizeofArgType_getArgType, ArgValue.framed, ArgValue.bytes, input.2]
  | cstr input =>
    have hlt : input.bytes.length < 256 ^ 2 := Nat.lt_succ_of_le h
    simp only [readSize, ArgValue.getArgType, ArgValue.cppType, CppType.getArgType, if_true,
      ArgValue.framed, ArgValue.bytes, List.append_assoc, readLittleEndian_append hlt]
  | string input =>
    have hlt : input.length < 256 ^ 2 := Nat.lt_succ_of_le h
    simp only [readSize, ArgValue.getArgType, ArgValue.cppType, CppType.getArgType, if_true,
      ArgValue.framed, ArgValue.bytes, List.append_assoc, readLittleEndian_append hlt]

/-! ## Rows -/

/-- What an argument looks like in the parsed table. -/
def Arg.indexArg (arg : Arg) : IndexArg :=
  ⟨some arg.value.getArgType, arg.isConstant, if arg.isConstant then arg.value.bytes else []⟩

/-- The parsed row of a registration. -/
def Registration.row (r : Registration) : IndexEntry :=
  ⟨r.formatString.bytes, r.args.map Arg.indexArg⟩

/-- The registrations whose lengths the fields of a row can hold. -/
structure Registration.WellFormed (r : Registration) : Prop where
  formatString : r.formatString.bytes.length ≤ 65535
  args : r.args.length ≤ 255
  constants : ∀ arg ∈ r.args, arg.isConstant = true → arg.value.Fits

instance (r : Registration) : Decidable r.WellFormed :=
  decidable_of_iff (r.formatString.bytes.length ≤ 65535 ∧ r.args.length ≤ 255 ∧
      ∀ arg ∈ r.args, arg.isConstant = true → arg.value.Fits)
    ⟨fun h => ⟨h.1, h.2.1, h.2.2⟩, fun h => ⟨h.1, h.2, h.3⟩⟩

theorem parseArgs_append (args : List Arg)
    (h : ∀ arg ∈ args, arg.isConstant = true → arg.value.Fits) (rest : List UInt8) :
    parseArgs (args.map (fun arg => some arg.value.getArgType))
        ((args.flatMap Arg.constnessWrites).flatten ++ rest)
      = some (args.map Arg.indexArg, rest) := by
  induction args with
  | nil => rfl
  | cons arg args ih =>
    have hrest := ih (fun arg' harg' => h arg' (List.mem_cons_of_mem _ harg'))
    cases arg with
    | dynamic value =>
      have hflag : readLittleEndian 1 ([0] ++ ((args.flatMap Arg.constnessWrites).flatten ++ rest))
          = some (0, (args.flatMap Arg.constnessWrites).flatten ++ rest) :=
        readLittleEndian_append (w := 1) (n := 0) (by decide) _
      simp only [List.map_cons, List.flatMap_cons, Arg.constnessWrites, List.flatten_append,
        List.flatten_cons, List.flatten_nil, List.append_nil, List.append_assoc, parseArgs, hflag,
        Option.bind_eq_bind, Option.bind_some, hrest]
      rfl
    | constant value =>
      have hfits : value.Fits := h (.constant value) List.mem_cons_self rfl
      have hflag (bs : List UInt8) : readLittleEndian 1 ([1] ++ bs) = some (1, bs) :=
        readLittleEndian_append (w := 1) (n := 1) (by decide) _
      have hsize : readSize (some (Arg.constant value).value.getArgType) _ = _ :=
        readSize_framed hfits ((args.flatMap Arg.constnessWrites).flatten ++ rest)
      simp only [List.map_cons, List.flatMap_cons, Arg.constnessWrites, List.flatten_append,
        List.flatten_cons, ArgValue.flatten_indexWrites hfits, List.append_assoc, parseArgs, hflag,
        Option.bind_eq_bind, Option.bind_some, hsize, readBytes_append, hrest, ne_eq,
        one_ne_zero, not_false_eq_true, if_true]
      rfl

/-- The parser takes exactly one row off the front of the file. -/
theorem parseEntry_append {r : Registration} (h : r.WellFormed) (rest : List UInt8) :
    parseEntry (r.rowBytes ++ rest) = some (r.row, rest) := by
  have hlength : r.formatString.bytes.length < 256 ^ 2 := Nat.lt_succ_of_le h.formatString
  have hmod : r.formatString.bytes.length % 2 ^ 16 = r.formatString.bytes.length :=
    Nat.mod_eq_of_lt hlength
  -- with at most 255 arguments the count byte is their number
  have hargs : r.args.length < 256 := Nat.lt_succ_of_le h.args
  have hcount (bs : List UInt8) :
      readLittleEndian 1 ([UInt8.ofNat r.args.length] ++ bs) = some (r.args.length, bs) :=
    readLittleEndian_append (w := 1) (by simpa using hargs) bs
  have hpos : 0 < UInt8.ofNat r.args.length ↔ 0 < r.args.length := by
    rw [UInt8.lt_iff_toNat_lt, UInt8.toNat_ofNat_of_lt' hargs]
    rfl
  simp only [Registration.rowBytes, Registration.rowWrites, CString.formatStringWrites, hmod,
    List.take_length, List.flatten_append, List.flatten_cons, List.flatten_nil, List.append_nil,
    List.append_assoc, parseEntry, readLittleEndian_append hlength, readBytes_append, hcount, hpos,
    Option.bind_eq_bind, Option.bind_some]
  by_cases hnone : 0 < r.args.length
  · have htypes : (r.args.map (fun arg => [arg.value.getArgType.toByte])).flatten
        = r.args.map (fun arg => arg.value.getArgType.toByte) := by
      rw [← List.flatMap_def, List.map_eq_flatMap]
    have hofByte : (r.args.map (fun arg => arg.value.getArgType.toByte)).map FmtArgType.ofByte
        = r.args.map (fun arg => some arg.value.getArgType) := by
      simp
    have hread (bs : List UInt8) :
        readBytes r.args.length (r.args.map (fun arg => arg.value.getArgType.toByte) ++ bs)
          = some (r.args.map (fun arg => arg.value.getArgType.toByte), bs) :=
      readBytes_append_of_length (List.length_map _) bs
    simp only [if_pos hnone, List.flatten_append, htypes, List.append_assoc, hread, hofByte,
      parseArgs_append r.args h.constants rest, Option.bind_some, Registration.row]
  · have hnil : r.args = [] := List.eq_nil_of_length_eq_zero (by omega)
    simp [Registration.row, hnil]

theorem two_le_length_rowBytes (r : Registration) : 2 ≤ r.rowBytes.length := by
  simp [Registration.rowBytes, Registration.rowWrites, CString.formatStringWrites]

/-- Where the parser takes one row off the front for each registration, it gets through all rows. -/
theorem parseLoop_of_parseEntry {row : Registration → IndexEntry} (regs : List Registration)
    (h : ∀ r ∈ regs, ∀ rest, parseEntry (r.rowBytes ++ rest) = some (row r, rest)) {fuel : Nat}
    (hfuel : (regs.flatMap Registration.rowBytes).length ≤ fuel) :
    parseLoop fuel (regs.flatMap Registration.rowBytes) = some (regs.map row) := by
  induction regs generalizing fuel with
  | nil => cases fuel <;> rfl
  | cons r regs ih =>
    have hlength := two_le_length_rowBytes r
    rw [List.flatMap_cons, List.length_append] at hfuel
    obtain ⟨fuel, rfl⟩ : ∃ f, fuel = f + 1 := ⟨fuel - 1, by omega⟩
    obtain ⟨b, bs, hcons⟩ := List.exists_cons_of_length_pos (l := r.rowBytes) (by omega)
    have hentry := h r List.mem_cons_self (regs.flatMap Registration.rowBytes)
    have hfuel' : (regs.flatMap Registration.rowBytes).length ≤ fuel := by omega
    have hrest := ih (fun r' hr' => h r' (List.mem_cons_of_mem _ hr')) hfuel'
    rw [hcons, List.cons_append] at hentry
    rw [List.flatMap_cons, hcons, List.cons_append, parseLoop, hentry]
    simp only [Option.bind_eq_bind, Option.bind_some, hrest, List.map_cons]

/-- The parser stops exactly at the end of the file, with one row per registration. -/
theorem parse_rowBytes (regs : List Registration) (h : ∀ r ∈ regs, r.WellFormed) :
    parse (regs.flatMap Registration.rowBytes) = some (regs.map Registration.row) :=
  parseLoop_of_parseEntry regs (fun r hr => parseEntry_append (h r hr)) le_rfl

/-! ## What a parsed row can hold -/

/-- The bounds the length fields of a row set. -/
structure IndexEntry.Bounded (entry : IndexEntry) : Prop where
  formatString : entry.formatString.length ≤ 65535
  args : entry.args.length ≤ 255
  argData : ∀ arg ∈ entry.args, arg.argData.length ≤ 65535

theorem sizeofArgType_le (type : Option FmtArgType) : sizeofArgType type ≤ 16 := by
  rcases type with _ | type
  · exact Nat.zero_le 16
  · cases type <;> simp [sizeofArgType]

theorem readSize_le {type : Option FmtArgType} {file file' : List UInt8} {size : Nat}
    (h : readSize type file = some (size, file')) : size ≤ 65535 := by
  unfold readSize at h
  split at h
  · have hlt := readLittleEndian_lt h
    omega
  · simp only [Option.some.injEq, Prod.mk.injEq] at h
    have hle := sizeofArgType_le type
    omega

theorem parseArgs_bounded {types : List (Option FmtArgType)} {file file' : List UInt8}
    {args : List IndexArg} (h : parseArgs types file = some (args, file')) :
    args.length = types.length ∧ ∀ arg ∈ args, arg.argData.length ≤ 65535 := by
  induction types generalizing file file' args with
  | nil =>
    simp only [parseArgs, Option.some.injEq, Prod.mk.injEq] at h
    obtain ⟨rfl, -⟩ := h
    exact ⟨rfl, by simp⟩
  | cons type types ih =>
    simp only [parseArgs, Option.bind_eq_bind, Option.bind_eq_some_iff, Prod.exists] at h
    obtain ⟨flag, file₁, -, h⟩ := h
    split at h
    · simp only [Option.bind_eq_some_iff, Prod.exists, Option.some.injEq, Prod.mk.injEq] at h
      obtain ⟨size, file₂, hsize, argData, file₃, hdata, args', file₄, hargs, rfl, -⟩ := h
      have hlength : argData.length ≤ 65535 := by
        rw [(readBytes_eq_some.1 hdata).2]
        exact readSize_le hsize
      refine ⟨by simp [(ih hargs).1], ?_⟩
      intro arg harg
      rcases List.mem_cons.1 harg with rfl | harg
      · exact hlength
      · exact (ih hargs).2 arg harg
    · simp only [Option.bind_eq_some_iff, Prod.exists, Option.some.injEq, Prod.mk.injEq] at h
      obtain ⟨args', file₂, hargs, rfl, -⟩ := h
      refine ⟨by simp [(ih hargs).1], ?_⟩
      intro arg harg
      rcases List.mem_cons.1 harg with rfl | harg
      · exact Nat.zero_le _
      · exact (ih hargs).2 arg harg

theorem parseEntry_bounded {file file' : List UInt8} {entry : IndexEntry}
    (h : parseEntry file = some (entry, file')) : entry.Bounded := by
  simp only [parseEntry, Option.bind_eq_bind, Option.bind_eq_some_iff, Prod.exists] at h
  obtain ⟨size, file₁, hsize, formatString, file₂, hformat, numArgs, file₃, hnum, h⟩ := h
  have hformatString : formatString.length ≤ 65535 := by
    have hlt := readLittleEndian_lt hsize
    rw [(readBytes_eq_some.1 hformat).2]
    omega
  split at h
  · simp only [Option.bind_eq_some_iff, Prod.exists, Option.some.injEq, Prod.mk.injEq] at h
    obtain ⟨types, file₄, htypes, args, file₅, hargs, rfl, -⟩ := h
    obtain ⟨hlength, hdata⟩ := parseArgs_bounded hargs
    have hlt := readLittleEndian_lt hnum
    refine ⟨hformatString, ?_, hdata⟩
    rw [hlength, List.length_map, (readBytes_eq_some.1 htypes).2]
    omega
  · simp only [Option.some.injEq, Prod.mk.injEq] at h
    obtain ⟨rfl, -⟩ := h
    exact ⟨hformatString, Nat.zero_le _, by simp⟩

/-- What holds of every entry that was parsed holds of the whole table. -/
theorem parseLoop_forall {P : IndexEntry → Prop}
    (hP : ∀ file entry rest, parseEntry file = some (entry, rest) → P entry) {fuel : Nat}
    {file : List UInt8} {table : List IndexEntry} (h : parseLoop fuel file = some table) :
    ∀ entry ∈ table, P entry := by
  induction fuel generalizing file table with
  | zero =>
    cases file with
    | nil => obtain rfl := Option.some.inj h; simp
    | cons b bs => exact absurd h (by simp [parseLoop])
  | succ fuel ih =>
    cases file with
    | nil => obtain rfl := Option.some.inj h; simp
    | cons b bs =>
      simp only [parseLoop, Option.bind_eq_bind, Option.bind_eq_some_iff, Prod.exists,
        Option.some.injEq] at h
      obtain ⟨entry, file', hentry, entries, hrest, rfl⟩ := h
      intro entry' hentry'
      rcases List.mem_cons.1 hentry' with rfl | hentry'
      · exact hP _ _ _ hentry
      · exact ih hrest entry' hentry'

theorem parseLoop_bounded {fuel : Nat} {file : List UInt8} {table : List IndexEntry}
    (h : parseLoop fuel file = some table) : ∀ entry ∈ table, entry.Bounded :=
  parseLoop_forall (fun _ _ _ hentry => parseEntry_bounded hentry) h

/-- A row within the bounds of the format comes from a registration within them. -/
theorem Registration.wellFormed_of_bounded {r : Registration} (h : r.row.Bounded) :
    r.WellFormed := by
  refine ⟨h.formatString, by simpa [Registration.row] using h.args, ?_⟩
  intro arg harg hconst
  have hdata := h.argData arg.indexArg (List.mem_map_of_mem harg)
  rw [Arg.indexArg, if_pos hconst] at hdata
  exact arg.value.fits_iff.2 hdata

/-! ## The registrations of a run -/

/-- The `log_index` calls of a run. -/
def registrations : List Op → List Registration
  | [] => []
  | .logIndex formatString args :: ops => ⟨formatString, args⟩ :: registrations ops
  | .log _ _ :: ops => registrations ops
  | .flush :: ops => registrations ops

/-- A row for each registration, nothing else. -/
theorem Streams.index_runOps (s : Streams) (ops : List Op) :
    (s.runOps ops).index = s.index ++ (registrations ops).flatMap Registration.rowBytes := by
  induction ops generalizing s with
  | nil => simp [registrations]
  | cons op ops ih =>
    rw [runOps_cons, ih]
    cases op with
    | logIndex formatString args => simp [step, appendIndex, registrations]
    | log pos args => rfl
    | flush => rfl

@[simp] theorem registrations_append (ops ops' : List Op) :
    registrations (ops ++ ops') = registrations ops ++ registrations ops' := by
  induction ops with
  | nil => rfl
  | cons op ops ih => cases op <;> simp [registrations, ih]

/-- `log_index` as a member call. -/
def Registration.op (r : Registration) : Op := .logIndex r.formatString r.args

@[simp] theorem registrations_map_op (regs : List Registration) :
    registrations (regs.map Registration.op) = regs := by
  induction regs with
  | nil => rfl
  | cons r regs ih => simp [Registration.op, registrations, ih]

/-! ## Round trip -/

namespace Packer

variable {n m r : Nat}

theorem foldlM_bufferOrWriteIndexFile_isSome (hm : 2 ≤ m) (p : Packer n m r)
    (ws : List (List UInt8)) :
    ∃ p', ws.foldlM BinaryLog.bufferOrWriteIndexFile p = .ok p' ∧ p'.run = p.run := by
  induction ws generalizing p with
  | nil => exact ⟨p, rfl, rfl⟩
  | cons w ws ih =>
    obtain ⟨b, hb⟩ := SpillBuffer.write_isSome (m - 1) (by omega) (by omega) p.indexFile w
    obtain ⟨p', hp', hrun⟩ := ih { p with indexFile := b }
    have hwrite : BinaryLog.bufferOrWriteIndexFile p w = .ok { p with indexFile := b } := by
      show Packer.bufferOrWriteIndexFile p w = _
      rw [Packer.bufferOrWriteIndexFile, hb]
      rfl
    exact ⟨p', by rw [List.foldlM_cons, hwrite, ok_bind, hp'], hrun⟩

/-- Registrations alone need no more than two bytes of index buffer. -/
theorem run_registrations_isSome (hm : 2 ≤ m) (lg : Logger (Packer n m r))
    (regs : List Registration) :
    ∃ lg', lg.run (regs.map Registration.op) = .ok lg' ∧ lg'.packer.run = lg.packer.run := by
  induction regs generalizing lg with
  | nil => exact ⟨lg, rfl, rfl⟩
  | cons reg regs ih =>
    obtain ⟨p, hp, hrun⟩ := foldlM_bufferOrWriteIndexFile_isSome hm lg.packer reg.rowWrites
    obtain ⟨lg', hlg', hrun'⟩ := ih ⟨p, lg.formatStringIndex + 1⟩
    have hstep : lg.step reg.op = .ok ⟨p, lg.formatStringIndex + 1⟩ := by
      rw [Registration.op, Logger.step, Logger.logIndex_eq, hp, ok_bind]
      rfl
    exact ⟨lg', by rw [Logger.run, List.map_cons, List.foldlM_cons, hstep, ok_bind, ← Logger.run,
      hlg'], hrun'.trans hrun⟩

end Packer

/-- Registering rows and flushing leaves an index file that parses to exactly these rows, whatever
    the size of the index buffer. -/
theorem index_roundTrip {n m r : Nat} (hm : 2 ≤ m) (regs : List Registration)
    (h : ∀ reg ∈ regs, reg.WellFormed) :
    ∃ lg : Logger (Packer n m r),
      Logger.run .fresh (regs.map Registration.op ++ [.flush]) = .ok lg ∧
      parse lg.packer.indexFile.spilled = some (regs.map Registration.row) := by
  obtain ⟨lg, hlg, hrun⟩ := Packer.run_registrations_isSome hm
    (.fresh : Logger (Packer n m r)) regs
  -- no call was logged, so the flush finds no open run
  have hidle : ¬ 1 < lg.packer.run.currentRunlength := by
    rw [hrun]
    exact Nat.not_lt_of_le (Nat.zero_le 1)
  obtain ⟨lg', hlg'⟩ : ∃ lg', Logger.run (.fresh : Logger (Packer n m r))
      (regs.map Registration.op ++ [.flush]) = .ok lg' := by
    obtain ⟨p, hp⟩ : ∃ p, PackerClass.flush lg.packer = .ok p := ⟨_, Packer.flush_of_idle hidle⟩
    refine ⟨{ lg with packer := p }, ?_⟩
    rw [Logger.run, List.foldlM_append, ← Logger.run, hlg, ok_bind, List.foldlM_cons,
      Logger.step, Logger.flush, hp]
    rfl
  have hindex := (Packer.refinement.run hlg').index
  rw [← (Packer.spilled_eq_contents hlg').2.1, Streams.index_runOps, registrations_append,
    registrations_map_op] at hindex
  refine ⟨lg', hlg', ?_⟩
  rw [hindex]
  simpa [Streams.initial, registrations] using parse_rowBytes regs h

/-- A variable and a constant argument through a two-byte buffer. -/
theorem index_roundTrip_smallest :
    ∃ lg : Logger (Packer 1 2 1),
      Logger.run .fresh [.logIndex (.literal [72, 105])
        [.dynamic (.string [1, 0]), .constant (.string [7, 8, 9])], .flush] = .ok lg ∧
      parse lg.packer.indexFile.spilled
        = some [⟨[72, 105],
            [⟨some .typeString, false, []⟩, ⟨some .typeString, true, [7, 8, 9]⟩]⟩] :=
  index_roundTrip (by decide)
    [⟨.literal [72, 105], [.dynamic (.string [1, 0]), .constant (.string [7, 8, 9])]⟩]
    (by
      intro reg hreg
      obtain rfl := List.mem_singleton.1 hreg
      exact ⟨by decide, by decide, by
        intro arg harg hconst
        rcases List.mem_cons.1 harg with rfl | harg
        · exact absurd hconst (by decide)
        · obtain rfl := List.mem_singleton.1 harg
          exact Nat.le_of_ble_eq_true rfl⟩)

end BinaryLog
