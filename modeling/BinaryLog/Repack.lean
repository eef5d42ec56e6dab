import BinaryLog.Bounds
import BinaryLog.RoundTrip

set_option autoImplicit false

/-! # Packing again what was unpacked

The unpacker takes the three files as they are, whoever has written them. From any files it accepts
it gets a table of rows and prints entries; `repacked_iff` says which of these tables and entries a
program could have had: exactly those a program can log once more, so that the unpacker prints the
same entries again.

What the unpacker accepts beyond that are rows no C++ argument has (a type byte that names no type
or a 128-bit integer, a `bool` other than 0 and 1, a NUL in a format string) and orders of calls
that the run lengths cannot tell apart. -/

namespace BinaryLog

open Bytes Simulation Runs Firsts

/-! ## Values -/

/-- The types a C++ argument can have. -/
def FmtArgType.Writable (type : FmtArgType) : Prop := type ≠ .typeUint128 ∧ type ≠ .typeInt128

/-- The bytes can be an object of the type, as far as they have its size. -/
def ProperBytes (type : FmtArgType) (bytes : List UInt8) : Prop :=
  type = .typeBool → bytes = [0] ∨ bytes = [1]

instance (type : FmtArgType) : Decidable type.Writable := by
  unfold FmtArgType.Writable; infer_instance

instance (type : FmtArgType) (bytes : List UInt8) : Decidable (ProperBytes type bytes) := by
  unfold ProperBytes; infer_instance

/-- The numeric type with this enumerator. -/
def FmtArgType.scalarType : FmtArgType → Option ScalarType
  | .typeBool => some .bool
  | .typeChar => some .char
  | .typeUint8 => some .uint8
  | .typeUint16 => some .uint16
  | .typeUint32 => some .uint32
  | .typeUint64 => some .uint64
  | .typeInt8 => some .int8
  | .typeInt16 => some .int16
  | .typeInt32 => some .int32
  | .typeInt64 => some .int64
  | .typeFloat => some .float
  | .typeDouble => some .double
  | .typeUint128 | .typeInt128 | .typeString => none

theorem getArgType_of_scalarType {type : FmtArgType} {scalar : ScalarType}
    (h : type.scalarType = some scalar) : scalar.getArgType = type := by
  cases type <;> cases h <;> rfl

theorem exists_scalarType {type : FmtArgType} (h : type.Writable) (hstring : type ≠ .typeString) :
    ∃ scalar, type.scalarType = some scalar := by
  cases type with
  | typeUint128 => exact absurd rfl h.1
  | typeInt128 => exact absurd rfl h.2
  | typeString => exact absurd rfl hstring
  | _ => exact ⟨_, rfl⟩

theorem ScalarType.writable (type : ScalarType) : type.getArgType.Writable := by
  cases type <;> decide

theorem ArgValue.writable (value : ArgValue) : value.getArgType.Writable := by
  have hstring : FmtArgType.Writable .typeString := by decide
  cases value with
  | scalar type bytes => exact type.writable
  | cstr input => exact hstring
  | string input => exact hstring

/-- A value of the type with these bytes. -/
theorem exists_argValue {type : FmtArgType} (h : type.Writable) {bytes : List UInt8}
    (hfits : FitsType (some type) bytes) :
    ∃ value : ArgValue, value.getArgType = type ∧ value.bytes = bytes ∧ value.Fits := by
  unfold FitsType at hfits
  by_cases hstring : type = .typeString
  · subst hstring
    rw [if_pos rfl] at hfits
    exact ⟨.string bytes, rfl, rfl, Nat.le_of_lt_succ hfits⟩
  · obtain ⟨scalar, hscalar⟩ := exists_scalarType h hstring
    have htype := getArgType_of_scalarType hscalar
    rw [if_neg (by simpa using hstring), ← htype, sizeofArgType_getArgType] at hfits
    exact ⟨.scalar scalar ⟨bytes, hfits⟩, htype, rfl, trivial⟩

/-! ## Rows -/

/-- What `parse` makes of an argument: a constant has the size of its type, any other argument has
    no data. -/
def IndexArg.Parsed (info : IndexArg) : Prop :=
  if info.isConstant then FitsType info.type info.argData else info.argData = []

/-- A C++ argument can have this type, and this value if it is a constant. -/
def IndexArg.Writable (info : IndexArg) : Prop :=
  ∃ type, info.type = some type ∧ type.Writable ∧
    (info.isConstant = true → ProperBytes type info.argData)

/-- A C++ statement can have this row. -/
structure IndexEntry.Writable (entry : IndexEntry) : Prop where
  formatString : ∀ b ∈ entry.formatString, b ≠ 0
  args : ∀ info ∈ entry.args, info.Writable

theorem RowArgs.parsed {types : List (Option FmtArgType)} {args : List IndexArg}
    {bytes : List UInt8} (h : RowArgs types args bytes) : ∀ info ∈ args, info.Parsed := by
  induction h with
  | nil => exact fun _ h => absurd h List.not_mem_nil
  | dynamic tail ih =>
    intro info hinfo
    rcases List.mem_cons.1 hinfo with rfl | hinfo
    · exact rfl
    · exact ih info hinfo
  | constant hflag hfits tail ih =>
    intro info hinfo
    rcases List.mem_cons.1 hinfo with rfl | hinfo
    · exact hfits
    · exact ih info hinfo

theorem parsed_of_parse {file : List UInt8} {table : List IndexEntry}
    (h : parse file = some table) : ∀ entry ∈ table, ∀ info ∈ entry.args, info.Parsed := by
  refine parseLoop_forall (P := fun entry => ∀ info ∈ entry.args, info.Parsed) ?_ h
  intro file entry rest hentry
  obtain ⟨row, hrow, -⟩ := wholeRow_of_parseEntry hentry
  obtain ⟨types, -, -, hargs⟩ := hrow
  exact hargs.parsed

/-- An object that the program can hold. -/
def Arg.Proper (arg : Arg) : Prop := ProperBytes arg.value.getArgType arg.value.bytes

/-- An argument with this row entry and this value. -/
theorem exists_arg {info : IndexArg} (hparsed : info.Parsed) {type : FmtArgType}
    (htype : info.type = some type) (hwritable : type.Writable) {bytes : List UInt8}
    (hfits : FitsType info.type bytes) (hconstant : info.isConstant = true → bytes = info.argData) :
    ∃ arg : Arg, arg.indexArg = info ∧ arg.typedValue = (type, bytes) ∧ arg.value.Fits := by
  rw [htype] at hfits
  obtain ⟨value, hvalue, hbytes, hvalueFits⟩ := exists_argValue hwritable hfits
  obtain ⟨infoType, isConstant, argData⟩ := info
  obtain rfl : infoType = some type := htype
  cases isConstant with
  | true =>
    obtain rfl : bytes = argData := hconstant rfl
    exact ⟨.constant value, by simp [Arg.indexArg, Arg.isConstant, Arg.value, hvalue, hbytes],
      by rw [Arg.typedValue, Arg.value, hvalue, hbytes], hvalueFits⟩
  | false =>
    obtain rfl : argData = [] := hparsed
    exact ⟨.dynamic value, by simp [Arg.indexArg, Arg.isConstant, Arg.value, hvalue],
      by rw [Arg.typedValue, Arg.value, hvalue, hbytes], hvalueFits⟩

theorem exists_map_eq {α β : Type} {f : α → β} {P : α → Prop} {l : List β}
    (h : ∀ b ∈ l, ∃ a, f a = b ∧ P a) : ∃ as : List α, as.map f = l ∧ ∀ a ∈ as, P a := by
  induction l with
  | nil => exact ⟨[], rfl, fun _ h => absurd h List.not_mem_nil⟩
  | cons b l ih =>
    obtain ⟨a, rfl, ha⟩ := h b List.mem_cons_self
    obtain ⟨as, rfl, has⟩ := ih (fun b' hb' => h b' (List.mem_cons_of_mem _ hb'))
    refine ⟨a :: as, rfl, ?_⟩
    intro a' ha'
    rcases List.mem_cons.1 ha' with rfl | ha'
    · exact ha
    · exact has a' ha'

/-- Zero, or the empty string. -/
theorem exists_zero (type : FmtArgType) :
    ∃ bytes, FitsType (some type) bytes ∧ ProperBytes type bytes := by
  by_cases hstring : type = .typeString
  · subst hstring
    exact ⟨[], Nat.two_pow_pos 16, fun h => absurd h (by decide)⟩
  · refine ⟨List.replicate (sizeofArgType (some type)) 0, ?_, ?_⟩
    · unfold FitsType
      rw [if_neg (by simpa using hstring), List.length_replicate]
    · rintro rfl
      exact .inl rfl

/-- A statement with this row: an argument that is no constant can have any value. -/
theorem exists_registration {entry : IndexEntry} (hbounded : entry.Bounded)
    (hparsed : ∀ info ∈ entry.args, info.Parsed) (h : entry.Writable) :
    ∃ reg : Registration, reg.row = entry ∧ reg.WellFormed ∧ ∀ arg ∈ reg.args, arg.Proper := by
  have hargs : ∀ info ∈ entry.args, ∃ arg : Arg, arg.indexArg = info ∧ arg.Proper := by
    intro info hinfo
    obtain ⟨type, htype, hwritable, hproper⟩ := h.args info hinfo
    have hinfoParsed := hparsed info hinfo
    cases hconstant : info.isConstant with
    | true =>
      have hfits : FitsType info.type info.argData := by
        unfold IndexArg.Parsed at hinfoParsed
        rwa [if_pos hconstant] at hinfoParsed
      obtain ⟨arg, hindex, hvalue, -⟩ :=
        exists_arg hinfoParsed htype hwritable hfits (fun _ => rfl)
      obtain ⟨hargType, hargBytes⟩ := Prod.mk.inj hvalue
      exact ⟨arg, hindex, by rw [Arg.Proper, hargType, hargBytes]; exact hproper hconstant⟩
    | false =>
      obtain ⟨bytes, hfits, hzero⟩ := exists_zero type
      obtain ⟨arg, hindex, hvalue, -⟩ := exists_arg hinfoParsed htype hwritable (htype ▸ hfits)
        (fun htrue => absurd (hconstant.symm.trans htrue) (by decide))
      obtain ⟨hargType, hargBytes⟩ := Prod.mk.inj hvalue
      exact ⟨arg, hindex, by rw [Arg.Proper, hargType, hargBytes]; exact hzero⟩
  obtain ⟨args, hrow, hproper⟩ := exists_map_eq hargs
  have hentry : Registration.row ⟨⟨entry.formatString, h.formatString⟩, args⟩ = entry := by
    rw [Registration.row, hrow]
  rw [← hentry] at hbounded
  exact ⟨_, hentry, Registration.wellFormed_of_bounded hbounded, hproper⟩

/-! ## Entries -/

/-- The values that were read with a row are values of its arguments. -/
theorem exists_args {infos : List IndexArg} (hparsed : ∀ info ∈ infos, info.Parsed)
    (hwritable : ∀ info ∈ infos, info.Writable) {store values : List (FmtArgType × List UInt8)}
    {file rest : List UInt8} (h : parseLogArgs store infos file = some (store ++ values, rest)) :
    ∃ args : List Arg, args.map Arg.indexArg = infos ∧ args.map Arg.typedValue = values ∧
      ∀ arg ∈ args, arg.value.Fits := by
  induction infos generalizing store values file with
  | nil =>
    simp only [parseLogArgs, Option.some.injEq, Prod.mk.injEq] at h
    obtain rfl := List.self_eq_append_right.1 h.1
    exact ⟨[], rfl, rfl, fun _ h => absurd h List.not_mem_nil⟩
  | cons info infos ih =>
    simp only [parseLogArgs, Option.bind_eq_bind, Option.bind_eq_some_iff, Prod.exists] at h
    obtain ⟨value, file₁, hhead, htail⟩ := h
    obtain ⟨type, htype, htypeWritable, -⟩ := hwritable info List.mem_cons_self
    have hinfo := hparsed info List.mem_cons_self
    rw [htype, updateStore] at htail
    -- the value just read is the first of the new ones
    obtain ⟨values, rfl⟩ : ∃ values', values = (type, value) :: values' := by
      have hprefix := prefix_of_parseLogArgs htail
      rw [List.prefix_append_right_inj] at hprefix
      obtain ⟨values', hvalues⟩ := hprefix
      exact ⟨values', hvalues.symm⟩
    have hfits : FitsType info.type value := by
      refine fitsType_of_parseLogArg (fun hconstant => ?_) hhead
      unfold IndexArg.Parsed at hinfo
      rwa [if_pos hconstant] at hinfo
    have hconstant (hconstant : info.isConstant = true) : value = info.argData := by
      rw [parseLogArg, if_pos hconstant, Option.some.injEq, Prod.mk.injEq] at hhead
      exact hhead.1.symm
    obtain ⟨arg, hindex, hvalue, hargFits⟩ :=
      exists_arg hinfo htype htypeWritable hfits hconstant
    have hsplit : store ++ (type, value) :: values = store ++ [(type, value)] ++ values := by
      rw [List.append_assoc, List.singleton_append]
    rw [hsplit] at htail
    obtain ⟨args, rfl, rfl, hargsFit⟩ := ih (fun i hi => hparsed i (List.mem_cons_of_mem _ hi))
      (fun i hi => hwritable i (List.mem_cons_of_mem _ hi)) htail
    refine ⟨arg :: args, by rw [List.map_cons, hindex], by rw [List.map_cons, hvalue], ?_⟩
    intro arg' harg'
    rcases List.mem_cons.1 harg' with rfl | harg'
    · exact hargFits
    · exact hargsFit arg' harg'

/-- What holds of the entries of each step holds of all that is printed. -/
theorem parseAndPrintLoop_forall {table : List IndexEntry} {P : LogEntry → Prop}
    (hP : ∀ logfile runlengthfile es rest runlengthfile',
      parseAndPrintLogEntry table logfile runlengthfile = some (es, rest, runlengthfile') →
      ∀ e ∈ es, P e) {fuel : Nat} {file runlengthfile rest : List UInt8} {es : List LogEntry}
    (h : parseAndPrintLoop table fuel file runlengthfile = some (es, rest)) : ∀ e ∈ es, P e := by
  induction fuel generalizing file runlengthfile rest es with
  | zero =>
    cases file with
    | nil =>
      obtain ⟨rfl, -⟩ := Prod.mk.inj (Option.some.inj h)
      exact fun _ h => absurd h List.not_mem_nil
    | cons b bs => exact absurd h (by simp [parseAndPrintLoop])
  | succ fuel ih =>
    cases file with
    | nil =>
      obtain ⟨rfl, -⟩ := Prod.mk.inj (Option.some.inj h)
      exact fun _ h => absurd h List.not_mem_nil
    | cons b bs =>
      simp only [parseAndPrintLoop, Option.bind_eq_bind, Option.bind_eq_some_iff, Prod.exists,
        Option.some.injEq, Prod.mk.injEq] at h
      obtain ⟨es₁, file₁, rest₁, hentry, es₂, rest₂, hloop, rfl, -⟩ := h
      intro e he
      rcases List.mem_append.1 he with he | he
      · exact hP _ _ _ _ _ hentry e he
      · exact ih hloop e he

theorem index_of_parseCalls {index n : Nat} {entry : IndexEntry} {file file' : List UInt8}
    {es : List LogEntry} (h : parseCalls index entry n file = some (es, file')) :
    ∀ e ∈ es, e.index = index := by
  induction n generalizing file file' es with
  | zero =>
    obtain ⟨rfl, -⟩ := Prod.mk.inj (Option.some.inj h)
    exact fun _ h => absurd h List.not_mem_nil
  | succ n ih =>
    simp only [parseCalls, Option.bind_eq_bind, Option.bind_eq_some_iff, Prod.exists,
      Option.some.injEq, Prod.mk.injEq] at h
    obtain ⟨args, file₁, -, es', file₂, hrest, rfl, -⟩ := h
    intro e he
    rcases List.mem_cons.1 he with rfl | he
    · rfl
    · exact ih hrest e he

/-- An id is read from two bytes. -/
theorem index_lt_of_parseAndPrint {table : List IndexEntry}
    {logfile runlengthfile rest : List UInt8} {es : List LogEntry}
    (h : parseAndPrint table logfile runlengthfile = some (es, rest)) :
    ∀ e ∈ es, e.index < 2 ^ 16 := by
  refine parseAndPrintLoop_forall ?_ h
  intro logfile runlengthfile es rest runlengthfile' hentry e he
  obtain ⟨index, entry, count, body, -, hindex, -, hcalls, -⟩ := parseAndPrintLogEntry_cases hentry
  rw [index_of_parseCalls hcalls e he]
  exact hindex

/-- A call with the id and the values of an entry. -/
theorem exists_call {table : List IndexEntry} (hwritable : ∀ entry ∈ table, entry.Writable)
    (hparsed : ∀ entry ∈ table, ∀ info ∈ entry.args, info.Parsed) {e : LogEntry}
    (h : e.ReadWith table) (hproper : ∀ x ∈ e.args, ProperBytes x.1 x.2) :
    ∃ c : Call, c.printed table = e ∧ c.Described table ∧ ∀ arg ∈ c.args, arg.Proper := by
  obtain ⟨entry, file, file', hentry, hformat, hargs⟩ := h
  have hmem := List.mem_of_getElem? hentry
  obtain ⟨args, hindex, hvalues, hfits⟩ :=
    exists_args (hparsed entry hmem) (hwritable entry hmem).args hargs
  change args.map Arg.typedValue = e.args at hvalues
  refine ⟨⟨e.index, args⟩, ?_, ⟨entry, hentry, hindex.symm, hfits⟩, ?_⟩
  · simp only [Call.printed, hentry, Option.map_some, Option.getD_some, hvalues, ← hformat]
  · intro arg harg
    have hvalue : arg.typedValue ∈ e.args := by
      rw [← hvalues]
      exact List.mem_map_of_mem harg
    exact hproper arg.typedValue hvalue

/-! ## Packing again -/

/-- The program: all statements registered, then the calls. -/
def repackOps (regs : List Registration) (cs : List Call) : List Op :=
  regs.map Registration.op ++ cs.map (fun c => .log c.index c.args)

@[simp] theorem registrations_repackOps (regs : List Registration) (cs : List Call) :
    registrations (repackOps regs cs) = regs := by
  have hlogs : registrations (cs.map (fun c => .log c.index c.args)) = [] := by
    induction cs with
    | nil => rfl
    | cons c cs ih => exact ih
  rw [repackOps, registrations_append, registrations_map_op, hlogs, List.append_nil]

theorem calls_repackOps (regs : List Registration) {cs : List Call}
    (h : ∀ c ∈ cs, c.index < 2 ^ 16) : calls (repackOps regs cs) = cs := by
  have hregs : calls (regs.map Registration.op) = [] := by
    induction regs with
    | nil => rfl
    | cons reg regs ih => exact ih
  rw [repackOps, calls_append, hregs, List.nil_append]
  induction cs with
  | nil => rfl
  | cons c cs ih =>
    have hrest := ih (fun c' hc' => h c' (List.mem_cons_of_mem _ hc'))
    rw [calls] at hrest
    rw [calls, List.map_cons, callEvents, items, hrest,
      Nat.mod_eq_of_lt (h c List.mem_cons_self)]

theorem flush_notMem_repackOps (regs : List Registration) (cs : List Call) :
    Op.flush ∉ repackOps regs cs := by
  simp [repackOps, Registration.op]

/-- A program without flushes, as its C++ types make it: calls have the arguments of their rows, and
    every value is an object. -/
structure Packs (ops : List Op) : Prop where
  wellTyped : WellTyped ops
  noFlush : Op.flush ∉ ops
  rowsProper : ∀ reg ∈ registrations ops, ∀ arg ∈ reg.args, arg.Proper
  callsProper : ∀ c ∈ calls ops, ∀ arg ∈ c.args, arg.Proper

theorem recover_iff_of_noFlush {ops : List Op} (h : WellTyped ops) (hflush : Op.flush ∉ ops) :
    (finalFiles ops).Recover ops ↔ RunsRecorded ((calls ops).map Call.index) := by
  have hruns := map_pieces_of_noFlush hflush
  have hlengths : (∀ p ∈ pieces (callEvents ops), p.length < 2 ^ 64) ↔
      ∀ run ∈ ((calls ops).map Call.index).splitBy (· == ·), run.length < 2 ^ 64 := by
    rw [← hruns, List.forall_mem_map]
    simp only [List.length_map]
  rw [recover_finalFiles_iff h, legible_iff, hruns, hlengths,
    and_iff_right (cutsOnlyZero_of_noFlush hflush), and_comm, RunsRecorded]

theorem Packs.writable {ops : List Op} (h : Packs ops) :
    ∀ entry ∈ rowTable ops, entry.Writable := by
  intro entry hentry
  obtain ⟨reg, hreg, rfl⟩ := List.mem_map.1 hentry
  refine ⟨reg.formatString.noNul, ?_⟩
  intro info hinfo
  obtain ⟨arg, harg, rfl⟩ := List.mem_map.1 hinfo
  refine ⟨_, rfl, arg.value.writable, fun hconstant => ?_⟩
  have hconstant : arg.isConstant = true := hconstant
  rw [Arg.indexArg, if_pos hconstant]
  exact h.rowsProper reg hreg arg harg

theorem Packs.proper {ops : List Op} (h : Packs ops) {table : List IndexEntry} :
    ∀ e ∈ (calls ops).map (Call.printed table), ∀ x ∈ e.args, ProperBytes x.1 x.2 := by
  intro e he x hx
  obtain ⟨c, hc, rfl⟩ := List.mem_map.1 he
  obtain ⟨arg, harg, rfl⟩ := List.mem_map.1 hx
  exact h.callsProper c hc arg harg

/-- Any table and any entries that C++ values can make are those of a program. -/
theorem exists_packs {f : Files} {table : List IndexEntry} {entries : List LogEntry}
    {rest : List UInt8} (hparse : parse f.index = some table)
    (hunpack : f.unpack = some (entries, rest)) (hwritable : ∀ entry ∈ table, entry.Writable)
    (hproper : ∀ e ∈ entries, ∀ x ∈ e.args, ProperBytes x.1 x.2) :
    ∃ ops, Packs ops ∧ rowTable ops = table ∧ (calls ops).map (Call.printed table) = entries := by
  have hbounded := parseLoop_bounded hparse
  have hparsed := parsed_of_parse hparse
  rw [Files.unpack_of_parse hparse] at hunpack
  have hread := readWith_of_parseAndPrintLoop hunpack
  have hindex := index_lt_of_parseAndPrint hunpack
  obtain ⟨regs, hregs, hregsFit⟩ := exists_map_eq (fun entry hentry =>
    exists_registration (hbounded entry hentry) (hparsed entry hentry) (hwritable entry hentry))
  obtain ⟨cs, hcs, hcsFit⟩ := exists_map_eq (fun e he =>
    exists_call hwritable hparsed (hread e he) (hproper e he))
  have hcsIndex : ∀ c ∈ cs, c.index < 2 ^ 16 := by
    intro c hc
    exact hindex _ (hcs ▸ List.mem_map_of_mem hc)
  have hcalls := calls_repackOps regs hcsIndex
  refine ⟨repackOps regs cs, ⟨⟨?_, ?_⟩, flush_notMem_repackOps regs cs, ?_, ?_⟩, ?_, ?_⟩
  · rw [registrations_repackOps]
    exact fun reg hreg => (hregsFit reg hreg).1
  · rw [registrations_repackOps, hcalls]
    intro c hc
    obtain ⟨⟨entry, hentry, hmatches⟩, -⟩ := hcsFit c hc
    rw [← hregs, List.getElem?_map, Option.map_eq_some_iff] at hentry
    obtain ⟨reg, hreg, rfl⟩ := hentry
    exact ⟨reg, hreg, hmatches.args.symm, hmatches.fits⟩
  · rw [registrations_repackOps]
    exact fun reg hreg => (hregsFit reg hreg).2
  · rw [hcalls]
    exact fun c hc => (hcsFit c hc).2
  · rw [rowTable, registrations_repackOps, hregs]
  · rw [hcalls, hcs]

/-- Whatever three files the unpacker accepts: a program without flushes that has this table and logs
    these entries, and whose files print them again, exists exactly if the rows are rows of C++
    statements, the values are values of their types, and the run lengths can tell the calls
    apart. -/
theorem repacked_iff {n m r : Nat} (hn : 1 ≤ n) (hm : 2 ≤ m) (hr : 10 ≤ r) {f : Files}
    {table : List IndexEntry} {entries : List LogEntry} {rest : List UInt8}
    (hparse : parse f.index = some table) (hunpack : f.unpack = some (entries, rest)) :
    (∃ ops, Packs ops ∧ rowTable ops = table ∧ (calls ops).map (Call.printed table) = entries ∧
      ∃ lg : Logger (Packer n m r), Logger.run .fresh (ops ++ [.flush]) = .ok lg ∧
        parse lg.packer.files.index = some table ∧
        ∃ rest', lg.packer.files.unpack = some (entries, rest')) ↔
      (∀ entry ∈ table, entry.Writable) ∧
        (∀ e ∈ entries, ∀ x ∈ e.args, ProperBytes x.1 x.2) ∧
        RunsRecorded (entries.map LogEntry.index) := by
  have hruns (ops : List Op) (h : (calls ops).map (Call.printed table) = entries) :
      (calls ops).map Call.index = entries.map LogEntry.index := by
    rw [← h, List.map_map]
    rfl
  constructor
  · rintro ⟨ops, hpacks, rfl, rfl, lg, hlg, hagain⟩
    refine ⟨hpacks.writable, hpacks.proper, ?_⟩
    rw [Packer.files_of_run_flush hr hlg] at hagain
    rw [← hruns ops rfl]
    exact (recover_iff_of_noFlush hpacks.wellTyped hpacks.noFlush).1 hagain
  · rintro ⟨hwritable, hproper, hrecorded⟩
    obtain ⟨ops, hpacks, rfl, hprinted⟩ := exists_packs hparse hunpack hwritable hproper
    have hpos : 1 ≤ r := by omega
    obtain ⟨lg, hlg⟩ := Packer.run_isSome hn hm hpos .fresh (ops ++ [.flush])
    refine ⟨ops, hpacks, rfl, hprinted, lg, hlg, ?_⟩
    rw [Packer.files_of_run_flush hr hlg, ← hprinted]
    rw [← hruns ops hprinted] at hrecorded
    exact (recover_iff_of_noFlush hpacks.wellTyped hpacks.noFlush).2 hrecorded

/-- Two entries of one id without a record, as no packer writes them, for a row with a byte. -/
def twoHeaders : Files := ⟨[1, 0, 65, 1, 2, 0], [0, 0, 7, 0, 0, 8], []⟩

/-- They are packed again as one run. -/
theorem repacked_twoHeaders :
    ∃ ops, Packs ops ∧ rowTable ops = [⟨[65], [⟨some .typeUint8, false, []⟩]⟩] ∧
      (calls ops).map (Call.printed [⟨[65], [⟨some .typeUint8, false, []⟩]⟩])
        = [⟨0, [65], [(.typeUint8, [7])]⟩, ⟨0, [65], [(.typeUint8, [8])]⟩] ∧
      ∃ lg : Logger (Packer 1 2 10), Logger.run .fresh (ops ++ [.flush]) = .ok lg ∧
        parse lg.packer.files.index = some [⟨[65], [⟨some .typeUint8, false, []⟩]⟩] ∧
        ∃ rest', lg.packer.files.unpack
          = some ([⟨0, [65], [(.typeUint8, [7])]⟩, ⟨0, [65], [(.typeUint8, [8])]⟩], rest') := by
  have hparse : parse twoHeaders.index = some [⟨[65], [⟨some .typeUint8, false, []⟩]⟩] := by decide
  have hunpack : twoHeaders.unpack
      = some ([⟨0, [65], [(.typeUint8, [7])]⟩, ⟨0, [65], [(.typeUint8, [8])]⟩], []) := by decide
  have hwritable : ∀ entry ∈ [(⟨[65], [⟨some .typeUint8, false, []⟩]⟩ : IndexEntry)],
      entry.Writable := by
    intro entry hentry
    obtain rfl := List.mem_singleton.1 hentry
    refine ⟨by simp, fun info hinfo => ?_⟩
    obtain rfl := List.mem_singleton.1 hinfo
    exact ⟨.typeUint8, rfl, by decide, fun h => absurd h (by decide)⟩
  exact (repacked_iff (n := 1) (m := 2) (r := 10) le_rfl le_rfl le_rfl hparse hunpack).2
    ⟨hwritable, by decide, by decide⟩

end BinaryLog
