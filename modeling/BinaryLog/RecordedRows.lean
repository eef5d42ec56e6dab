import BinaryLog.IndexFormat

set_option autoImplicit false

/-! # What a row records of its registration

A string stands behind its length modulo 2^16, the arguments of a row behind their number modulo
256, and the index parser reads as much as these fields say. `Registration.recordedRow` is what they
say. An index file of such rows is parsed to the recorded rows, one for each registration, exactly
if all of them are in step (`parse_recordedRow_iff`): the count byte announces all arguments or
none, and no `std::string` constant is longer than its length field can say. All other writers of
strings stop where the length field does, so that a long string is recorded as a prefix of
itself. -/

namespace BinaryLog

open Bytes

/-! ## Strings -/

/-- As many bytes as the 16-bit length says. -/
def recordedPrefix (bs : List UInt8) : List UInt8 := bs.take (bs.length % 2 ^ 16)

theorem length_recordedPrefix (bs : List UInt8) :
    (recordedPrefix bs).length = bs.length % 2 ^ 16 := by
  rw [recordedPrefix, List.length_take, Nat.min_eq_left (Nat.mod_le _ _)]

theorem length_recordedPrefix_lt (bs : List UInt8) : (recordedPrefix bs).length < 2 ^ 16 := by
  rw [length_recordedPrefix]
  exact Nat.mod_lt _ (by decide)

theorem recordedPrefix_of_lt {bs : List UInt8} (h : bs.length < 2 ^ 16) :
    recordedPrefix bs = bs := by
  rw [recordedPrefix, Nat.mod_eq_of_lt h, List.take_length]

theorem recordedPrefix_recordedPrefix (bs : List UInt8) :
    recordedPrefix (recordedPrefix bs) = recordedPrefix bs :=
  recordedPrefix_of_lt (length_recordedPrefix_lt bs)

theorem length_recordedPrefix_mod (bs : List UInt8) :
    (recordedPrefix bs).length % 2 ^ 16 = bs.length % 2 ^ 16 := by
  rw [length_recordedPrefix, Nat.mod_mod]

theorem recordedPrefix_ne_zero {s : CString} : ∀ b ∈ recordedPrefix s.bytes, b ≠ 0 :=
  fun b hb => s.noNul b (List.mem_of_mem_take hb)

/-- A C string of the recorded bytes. -/
def CString.recorded (s : CString) : CString := ⟨recordedPrefix s.bytes, recordedPrefix_ne_zero⟩

theorem CString.formatStringWrites_recorded (s : CString) :
    s.recorded.formatStringWrites = s.formatStringWrites := by
  show [toLittleEndian 2 ((recordedPrefix s.bytes).length % 2 ^ 16),
    recordedPrefix (recordedPrefix s.bytes)] = _
  rw [length_recordedPrefix_mod, recordedPrefix_recordedPrefix]
  rfl

/-! ## Arguments -/

def ArgValue.recorded : ArgValue → ArgValue
  | .scalar type bytes => .scalar type bytes
  | .cstr input => .cstr input.recorded
  | .string input => .string (recordedPrefix input)

def Arg.recorded : Arg → Arg
  | .dynamic value => .dynamic value.recorded
  | .constant value => .constant value.recorded

theorem ArgValue.fits_recorded (value : ArgValue) : value.recorded.Fits := by
  cases value with
  | scalar type bytes => exact trivial
  | cstr input => exact Nat.le_of_lt_succ (length_recordedPrefix_lt input.bytes)
  | string input => exact Nat.le_of_lt_succ (length_recordedPrefix_lt input)

theorem ArgValue.recorded_of_fits {value : ArgValue} (h : value.Fits) :
    value.recorded.bytes = value.bytes := by
  cases value with
  | scalar type bytes => rfl
  | cstr input => exact recordedPrefix_of_lt (Nat.lt_succ_of_le h)
  | string input => exact recordedPrefix_of_lt (Nat.lt_succ_of_le h)

theorem Arg.getArgType_recorded (arg : Arg) :
    arg.recorded.value.getArgType = arg.value.getArgType := by
  cases arg with
  | dynamic value => cases value <;> rfl
  | constant value => cases value <;> rfl

theorem Arg.indexArg_recorded {arg : Arg} (h : arg.isConstant = true → arg.value.Fits) :
    arg.recorded.indexArg = arg.indexArg := by
  have htype := arg.getArgType_recorded
  cases arg with
  | dynamic value =>
    rw [indexArg, indexArg, htype]
    rfl
  | constant value =>
    have hbytes : (Arg.constant value).recorded.value.bytes = (Arg.constant value).value.bytes :=
      ArgValue.recorded_of_fits (h rfl)
    rw [indexArg, indexArg, htype, hbytes]
    rfl

/-- The bytes of a constant that its length field does not announce. -/
def Arg.excess : Arg → Nat
  | .constant (.string input) => input.length - input.length % 2 ^ 16
  | _ => 0

theorem recordedPrefix_of_excess {bs : List UInt8} (h : bs.length - bs.length % 2 ^ 16 = 0) :
    recordedPrefix bs = bs := by
  refine recordedPrefix_of_lt ?_
  have hlt := Nat.mod_lt bs.length (Nat.two_pow_pos 16)
  omega

theorem Arg.constnessWrites_recorded {arg : Arg} (h : arg.excess = 0) :
    arg.recorded.constnessWrites = arg.constnessWrites := by
  cases arg with
  | dynamic value => rfl
  | constant value =>
    cases value with
    | scalar type bytes => rfl
    | cstr input => exact congrArg ([1] :: ·) input.formatStringWrites_recorded
    | string input =>
      show (Arg.constant (.string (recordedPrefix input))).constnessWrites = _
      rw [recordedPrefix_of_excess h]

theorem Arg.length_constnessWrites (arg : Arg) :
    arg.constnessWrites.flatten.length
      = arg.recorded.constnessWrites.flatten.length + arg.excess := by
  cases arg with
  | dynamic value => rfl
  | constant value =>
    cases value with
    | scalar type bytes => rfl
    | cstr input => rw [Arg.constnessWrites_recorded rfl]; rfl
    | string input =>
      have hle := Nat.mod_le input.length (2 ^ 16)
      simp only [Arg.recorded, ArgValue.recorded, Arg.constnessWrites, ArgValue.indexWrites,
        Arg.excess, List.flatten_cons, List.flatten_nil, List.length_append, List.length_nil,
        length_toLittleEndian, length_recordedPrefix]
      omega

theorem Arg.excess_eq_zero_iff (arg : Arg) :
    arg.excess = 0 ↔ ∀ input, arg = .constant (.string input) → input.length ≤ 65535 := by
  constructor
  · rintro h input rfl
    have hexcess : input.length - input.length % 2 ^ 16 = 0 := h
    have hlt := Nat.mod_lt input.length (Nat.two_pow_pos 16)
    omega
  · intro h
    cases arg with
    | dynamic value => rfl
    | constant value =>
      cases value with
      | scalar type bytes => rfl
      | cstr input => rfl
      | string input =>
        have hle := h input rfl
        show input.length - input.length % 2 ^ 16 = 0
        rw [Nat.mod_eq_of_lt (by omega), Nat.sub_self]

/-! ## Rows -/

def Registration.recorded (r : Registration) : Registration :=
  ⟨r.formatString.recorded, r.args.map Arg.recorded⟩

/-- A row whose constants are written has no string constant beyond the length field. -/
def Registration.ShortConstants (r : Registration) : Prop :=
  0 < UInt8.ofNat r.args.length →
    ∀ input, Arg.constant (.string input) ∈ r.args → input.length ≤ 65535

/-- The bytes of a row that its length fields do not announce. -/
def Registration.excess (r : Registration) : Nat :=
  if 0 < UInt8.ofNat r.args.length then (r.args.map Arg.excess).sum else 0

theorem Registration.excess_eq_zero_iff (r : Registration) :
    r.excess = 0 ↔ r.ShortConstants := by
  rw [Registration.excess, Registration.ShortConstants]
  by_cases hwritten : 0 < UInt8.ofNat r.args.length
  · rw [if_pos hwritten, List.sum_eq_zero_iff_forall_eq_nat, List.forall_mem_map]
    simp only [hwritten, true_implies, Arg.excess_eq_zero_iff]
    exact ⟨fun h input hinput => h _ hinput input rfl,
      fun h arg harg input hinput => h input (hinput ▸ harg)⟩
  · simp [hwritten]

/-- Of a row only the constants can change. -/
theorem Registration.rowWrites_recorded (r : Registration) :
    r.recorded.rowWrites
      = r.formatString.formatStringWrites ++ [[UInt8.ofNat r.args.length]] ++
        if 0 < UInt8.ofNat r.args.length then
          r.args.map (fun arg => [arg.value.getArgType.toByte])
            ++ r.args.flatMap (fun arg => arg.recorded.constnessWrites)
        else [] := by
  simp only [Registration.rowWrites, Registration.recorded, CString.formatStringWrites_recorded,
    List.length_map, List.map_map, List.flatMap_map, Function.comp_def, Arg.getArgType_recorded]

theorem Registration.rowBytes_recorded {r : Registration} (h : r.excess = 0) :
    r.recorded.rowBytes = r.rowBytes := by
  rw [Registration.rowBytes, Registration.rowBytes, Registration.rowWrites_recorded,
    Registration.rowWrites]
  rw [Registration.excess] at h
  split
  · next hwritten =>
    rw [if_pos hwritten, List.sum_eq_zero_iff_forall_eq_nat, List.forall_mem_map] at h
    have hconstants : r.args.flatMap (fun arg => arg.recorded.constnessWrites)
        = r.args.flatMap Arg.constnessWrites :=
      List.flatMap_congr (fun arg harg => Arg.constnessWrites_recorded (h arg harg))
    rw [hconstants]
  · rfl

theorem Registration.length_rowBytes (r : Registration) :
    r.rowBytes.length = r.recorded.rowBytes.length + r.excess := by
  have hargs : ∀ args : List Arg, (args.flatMap Arg.constnessWrites).flatten.length
      = (args.flatMap (fun arg => arg.recorded.constnessWrites)).flatten.length
        + (args.map Arg.excess).sum := by
    intro args
    induction args with
    | nil => rfl
    | cons arg args ih =>
      simp only [List.flatMap_cons, List.flatten_append, List.length_append, List.map_cons,
        List.sum_cons, ih, arg.length_constnessWrites]
      omega
  rw [Registration.rowBytes, Registration.rowBytes, Registration.rowWrites_recorded,
    Registration.rowWrites, Registration.excess]
  split
  · simp only [List.flatten_append, List.length_append, hargs]
    omega
  · rfl

/-! ## What the parser should find -/

/-- The arguments the count byte announces. -/
def Registration.announced (r : Registration) : List Arg := r.args.take (r.args.length % 2 ^ 8)

/-- The row as its count byte and its length fields record it. -/
def Registration.recordedRow (r : Registration) : IndexEntry :=
  ⟨recordedPrefix r.formatString.bytes, r.announced.map (fun arg => arg.recorded.indexArg)⟩

/-- The count byte and the length fields say where the row ends: there are at most 255 arguments, or
    so many that the count byte is 0, and no written string constant is too long. -/
structure Registration.InStep (r : Registration) : Prop where
  count : r.args.length ≤ 255 ∨ 256 ∣ r.args.length
  constants : r.ShortConstants

theorem Registration.WellFormed.inStep {r : Registration} (h : r.WellFormed) : r.InStep :=
  ⟨.inl h.args, fun _ _ hinput => h.constants _ hinput rfl⟩

theorem Registration.announced_of_le {r : Registration} (h : r.args.length ≤ 255) :
    r.announced = r.args := by
  rw [announced, Nat.mod_eq_of_lt (show r.args.length < 2 ^ 8 by omega), List.take_length]

theorem Registration.row_recorded {r : Registration} (h : r.args.length ≤ 255) :
    r.recorded.row = r.recordedRow := by
  rw [recordedRow, announced_of_le h, row, recorded, List.map_map]
  rfl

/-- A row that fits its fields is recorded as it is. -/
theorem Registration.recordedRow_of_wellFormed {r : Registration} (h : r.WellFormed) :
    r.recordedRow = r.row := by
  have hformat : recordedPrefix r.formatString.bytes = r.formatString.bytes :=
    recordedPrefix_of_lt (Nat.lt_succ_of_le h.formatString)
  rw [recordedRow, row, announced_of_le h.args, hformat]
  exact congrArg (IndexEntry.mk _)
    (List.map_congr_left (fun arg harg => Arg.indexArg_recorded (h.constants arg harg)))

theorem Registration.wellFormed_recorded {r : Registration} (h : r.args.length ≤ 255) :
    r.recorded.WellFormed := by
  refine ⟨Nat.le_of_lt_succ (length_recordedPrefix_lt _), ?_, ?_⟩
  · rwa [recorded, List.length_map]
  · intro arg harg _
    obtain ⟨arg', -, rfl⟩ := List.mem_map.1 harg
    cases arg' <;> exact ArgValue.fits_recorded _

/-- The parser takes a row in step off the front of the file, and finds what is recorded of it. -/
theorem Registration.InStep.parseEntry {r : Registration} (h : r.InStep) (rest : List UInt8) :
    parseEntry (r.rowBytes ++ rest) = some (r.recordedRow, rest) := by
  rcases h.count with hfew | hmany
  · rw [← rowBytes_recorded (r.excess_eq_zero_iff.2 h.constants), ← row_recorded hfew]
    exact parseEntry_append (wellFormed_recorded hfew) rest
  · -- the count byte is 0, and the row ends behind it
    have hcount : UInt8.ofNat r.args.length = 0 := by
      rw [← UInt8.toNat_inj, UInt8.toNat_ofNat']
      exact Nat.mod_eq_zero_of_dvd hmany
    have hbytes : r.rowBytes = (Registration.mk r.formatString.recorded []).rowBytes := by
      simp [rowBytes, rowWrites, hcount, CString.formatStringWrites_recorded]
    have hrow : r.recordedRow = (Registration.mk r.formatString.recorded []).row := by
      rw [recordedRow, announced, Nat.mod_eq_zero_of_dvd (show 2 ^ 8 ∣ r.args.length from hmany)]
      rfl
    have hlength : (recordedPrefix r.formatString.bytes).length ≤ 65535 :=
      Nat.le_of_lt_succ (length_recordedPrefix_lt _)
    rw [hbytes, hrow]
    exact parseEntry_append ⟨hlength, Nat.zero_le _, fun _ harg => absurd harg List.not_mem_nil⟩ rest

theorem parse_recordedRow (regs : List Registration) (h : ∀ r ∈ regs, r.InStep) :
    parse (regs.flatMap Registration.rowBytes) = some (regs.map Registration.recordedRow) :=
  parseLoop_of_parseEntry regs (fun r hr => (h r hr).parseEntry) le_rfl

/-! ## How much the parser reads -/

/-- The bytes of an argument: its type, its constness, and its value with the length in front. -/
def IndexArg.size (info : IndexArg) : Nat :=
  2 + if info.isConstant then
    (if info.type = some .typeString then 2 else 0) + info.argData.length else 0

/-- The bytes of a row. -/
def IndexEntry.size (entry : IndexEntry) : Nat :=
  3 + entry.formatString.length + (entry.args.map IndexArg.size).sum

theorem length_of_readLittleEndian {w n : Nat} {file rest : List UInt8}
    (h : readLittleEndian w file = some (n, rest)) : file.length = w + rest.length := by
  rw [readLittleEndian_eq_some h, List.length_append, length_toLittleEndian]

theorem length_of_readBytes {n : Nat} {file bs rest : List UInt8}
    (h : readBytes n file = some (bs, rest)) : file.length = bs.length + rest.length := by
  rw [(readBytes_eq_some.1 h).1, List.length_append]

theorem length_of_readSize {type : Option FmtArgType} {file rest : List UInt8} {size : Nat}
    (h : readSize type file = some (size, rest)) :
    file.length = (if type = some .typeString then 2 else 0) + rest.length := by
  unfold readSize at h
  split at h
  · next hstring => rw [if_pos hstring, length_of_readLittleEndian h]
  · next hstring =>
    obtain ⟨-, rfl⟩ := Prod.mk.inj (Option.some.inj h)
    rw [if_neg hstring, Nat.zero_add]

theorem length_of_parseArgs {types : List (Option FmtArgType)} {file rest : List UInt8}
    {args : List IndexArg} (h : parseArgs types file = some (args, rest)) :
    types.length + file.length = (args.map IndexArg.size).sum + rest.length := by
  induction types generalizing file args with
  | nil =>
    obtain ⟨rfl, rfl⟩ := Prod.mk.inj (Option.some.inj h)
    rfl
  | cons type types ih =>
    simp only [parseArgs, Option.bind_eq_bind, Option.bind_eq_some_iff, Prod.exists] at h
    obtain ⟨flag, file₁, hflag, h⟩ := h
    rw [length_of_readLittleEndian hflag, List.length_cons]
    split at h
    · simp only [Option.bind_eq_some_iff, Prod.exists, Option.some.injEq, Prod.mk.injEq] at h
      obtain ⟨size, file₂, hsize, argData, file₃, hdata, args', file₄, hargs, rfl, rfl⟩ := h
      have hrest := ih hargs
      have hinfo : IndexArg.size ⟨type, true, argData⟩
          = 2 + ((if type = some .typeString then 2 else 0) + argData.length) := rfl
      rw [length_of_readSize hsize, length_of_readBytes hdata, List.map_cons, List.sum_cons, hinfo]
      omega
    · simp only [Option.bind_eq_some_iff, Prod.exists, Option.some.injEq, Prod.mk.injEq] at h
      obtain ⟨args', file₂, hargs, rfl, rfl⟩ := h
      have hrest := ih hargs
      have hinfo : IndexArg.size ⟨type, false, []⟩ = 2 := rfl
      rw [List.map_cons, List.sum_cons, hinfo]
      omega

theorem length_of_parseEntry {file rest : List UInt8} {entry : IndexEntry}
    (h : parseEntry file = some (entry, rest)) : file.length = entry.size + rest.length := by
  simp only [parseEntry, Option.bind_eq_bind, Option.bind_eq_some_iff, Prod.exists] at h
  obtain ⟨size, file₁, hsize, formatString, file₂, hformat, numArgs, file₃, hnum, h⟩ := h
  rw [length_of_readLittleEndian hsize, length_of_readBytes hformat,
    length_of_readLittleEndian hnum]
  split at h
  · simp only [Option.bind_eq_some_iff, Prod.exists, Option.some.injEq, Prod.mk.injEq] at h
    obtain ⟨types, file₄, htypes, args, file₅, hargs, rfl, rfl⟩ := h
    have hlength := length_of_parseArgs hargs
    rw [List.length_map] at hlength
    simp only [length_of_readBytes htypes, IndexEntry.size]
    omega
  · obtain ⟨rfl, rfl⟩ := Prod.mk.inj (Option.some.inj h)
    simp only [IndexEntry.size, List.map_nil, List.sum_nil]
    omega

/-- The parser reads the whole file, each byte for one of the rows. -/
theorem length_of_parseLoop {fuel : Nat} {file : List UInt8} {table : List IndexEntry}
    (h : parseLoop fuel file = some table) : file.length = (table.map IndexEntry.size).sum := by
  induction fuel generalizing file table with
  | zero =>
    cases file with
    | nil => obtain rfl := Option.some.inj h; rfl
    | cons b bs => exact absurd h (by simp [parseLoop])
  | succ fuel ih =>
    cases file with
    | nil => obtain rfl := Option.some.inj h; rfl
    | cons b bs =>
      simp only [parseLoop, Option.bind_eq_bind, Option.bind_eq_some_iff, Prod.exists,
        Option.some.injEq] at h
      obtain ⟨entry, file', hentry, entries, hrest, rfl⟩ := h
      rw [length_of_parseEntry hentry, ih hrest, List.map_cons, List.sum_cons]

/-! ## Rows out of step -/

theorem count_pos_iff (n : Nat) : 0 < UInt8.ofNat n ↔ n % 2 ^ 8 ≠ 0 := by
  rw [UInt8.lt_iff_toNat_lt, UInt8.toNat_ofNat']
  exact Nat.pos_iff_ne_zero

/-- The bytes of the arguments that the count byte does not announce, in a row that has them. -/
def Registration.unannounced (r : Registration) : Nat :=
  if 0 < UInt8.ofNat r.args.length then
    ((r.args.drop (r.args.length % 2 ^ 8)).map (fun arg => arg.recorded.indexArg.size)).sum
  else 0

theorem ArgValue.length_framed (value : ArgValue) : value.framed.length
    = (if some value.getArgType = some .typeString then 2 else 0) + value.bytes.length := by
  cases value with
  | scalar type input =>
    have hne : some type.getArgType ≠ some .typeString :=
      fun heq => type.getArgType_ne_typeString (Option.some.inj heq)
    exact (Nat.zero_add _).symm.trans (congrArg (· + input.val.length) (if_neg hne).symm)
  | cstr input => exact (List.length_append).trans (by rw [length_toLittleEndian]; rfl)
  | string input => exact (List.length_append).trans (by rw [length_toLittleEndian]; rfl)

theorem Arg.size_indexArg {arg : Arg} (h : arg.value.Fits) :
    arg.indexArg.size = 1 + arg.constnessWrites.flatten.length := by
  cases arg with
  | dynamic value => rfl
  | constant value =>
    have hwrites : (Arg.constant value).constnessWrites.flatten = 1 :: value.framed :=
      congrArg (1 :: ·) (ArgValue.flatten_indexWrites h)
    rw [hwrites, List.length_cons, value.length_framed]
    show 2 + ((if some value.getArgType = some .typeString then 2 else 0) + value.bytes.length) = _
    omega

theorem sum_size_recorded (args : List Arg) :
    (args.map (fun arg => arg.recorded.indexArg.size)).sum
      = args.length + (args.flatMap (fun arg => arg.recorded.constnessWrites)).flatten.length := by
  induction args with
  | nil => rfl
  | cons arg args ih =>
    have hfits : arg.recorded.value.Fits := by cases arg <;> exact ArgValue.fits_recorded _
    simp only [List.map_cons, List.sum_cons, ih, Arg.size_indexArg hfits, List.length_cons,
      List.flatMap_cons, List.flatten_append, List.length_append]
    omega

/-- Without what its length fields do not announce, a row has the bytes of the recorded row and
    those of the arguments that the count byte does not announce. -/
theorem Registration.length_rowBytes_recorded (r : Registration) :
    r.recorded.rowBytes.length = r.recordedRow.size + r.unannounced := by
  have hsplit := congrArg List.sum (congrArg (List.map (fun arg => arg.recorded.indexArg.size))
    (List.take_append_drop (r.args.length % 2 ^ 8) r.args))
  rw [List.map_append, List.sum_append, sum_size_recorded r.args] at hsplit
  have hformat : r.formatString.formatStringWrites.flatten.length
      = 2 + (recordedPrefix r.formatString.bytes).length := by
    simp [CString.formatStringWrites, recordedPrefix]
  rw [rowBytes, rowWrites_recorded, unannounced, IndexEntry.size, recordedRow, announced,
    List.map_map]
  by_cases hwritten : 0 < UInt8.ofNat r.args.length
  · rw [if_pos hwritten, if_pos hwritten]
    have htypes : (r.args.map (fun arg => [arg.value.getArgType.toByte])).flatten.length
        = r.args.length := by
      rw [← List.flatMap_def, ← List.map_eq_flatMap, List.length_map]
    simp only [List.flatten_append, List.length_append, hformat, htypes, List.flatten_singleton,
      List.length_singleton]
    simp only [Function.comp_def] at *
    omega
  · -- a count byte of 0 announces none of the arguments
    have hcount : r.args.length % 2 ^ 8 = 0 := by rwa [count_pos_iff, not_not] at hwritten
    rw [if_neg hwritten, if_neg hwritten, hcount]
    simp only [List.flatten_append, List.length_append, hformat, List.flatten_singleton,
      List.length_singleton, List.take_zero, List.map_nil, List.sum_nil, List.flatten_nil,
      List.length_nil]
    omega

theorem Registration.unannounced_eq_zero_iff (r : Registration) :
    r.unannounced = 0 ↔ r.args.length ≤ 255 ∨ 256 ∣ r.args.length := by
  rw [unannounced]
  by_cases hwritten : 0 < UInt8.ofNat r.args.length
  · rw [if_pos hwritten, List.sum_eq_zero_iff_forall_eq_nat, List.forall_mem_map]
    rw [count_pos_iff] at hwritten
    constructor
    · intro h
      -- every argument has bytes of its own
      have hnone : r.args.drop (r.args.length % 2 ^ 8) = [] := by
        refine List.eq_nil_iff_forall_not_mem.2 (fun arg harg => ?_)
        have hzero := h arg harg
        rw [IndexArg.size] at hzero
        omega
      rw [List.drop_eq_nil_iff] at hnone
      exact .inl (by omega)
    · intro h
      have hall : r.args.length ≤ r.args.length % 2 ^ 8 := by omega
      rw [List.drop_eq_nil_of_le hall]
      exact fun arg harg => absurd harg List.not_mem_nil
  · rw [if_neg hwritten]
    rw [count_pos_iff, not_not] at hwritten
    exact ⟨fun _ => .inr (Nat.dvd_of_mod_eq_zero hwritten), fun _ => rfl⟩

/-- A row is in step exactly if all of its bytes are announced. -/
theorem Registration.inStep_iff (r : Registration) :
    r.InStep ↔ r.unannounced + r.excess = 0 := by
  rw [Nat.add_eq_zero_iff, r.excess_eq_zero_iff, r.unannounced_eq_zero_iff]
  exact ⟨fun h => ⟨h.count, h.constants⟩, fun h => ⟨h.1, h.2⟩⟩

/-- The parser finds the recorded rows, one for each registration, exactly if all of them are in
    step. -/
theorem parse_recordedRow_iff (regs : List Registration) :
    parse (regs.flatMap Registration.rowBytes) = some (regs.map Registration.recordedRow) ↔
      ∀ r ∈ regs, r.InStep := by
  refine ⟨fun h => ?_, parse_recordedRow regs⟩
  have hlength : ∀ regs : List Registration, (regs.flatMap Registration.rowBytes).length
      = ((regs.map Registration.recordedRow).map IndexEntry.size).sum
        + (regs.map (fun r => r.unannounced + r.excess)).sum := by
    intro regs
    induction regs with
    | nil => rfl
    | cons r regs ih =>
      simp only [List.flatMap_cons, List.length_append, List.map_cons, List.sum_cons, ih,
        r.length_rowBytes, r.length_rowBytes_recorded]
      omega
  have hread := length_of_parseLoop h
  rw [hlength regs] at hread
  have hzero : (regs.map (fun r => r.unannounced + r.excess)).sum = 0 := by omega
  rw [List.sum_eq_zero_iff_forall_eq_nat, List.forall_mem_map] at hzero
  exact fun r hr => r.inStep_iff.2 (hzero r hr)

end BinaryLog
