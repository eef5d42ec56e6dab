import BinaryLog.Lib.Delimited
import BinaryLog.Recovery

set_option autoImplicit false

/-! # Damaged files

Both parsers test the size of their file at the start of an entry only; the reads inside the entry
are driven by lengths, counts, type bytes, ids and run lengths out of the files themselves. So they
stay in bounds exactly on the files that consist of whole entries, and this module says what these
are: `WholeRow` for the index file, `WholeEntry` for the log file beside a runlength file.

A packer hands its rows to the index file in pieces, so a crash can leave the file cut inside a row,
and then the unpacker reads past its end (`Packer.parse_cut_iff`). -/

namespace BinaryLog

open Bytes Delimited

/-! ## Values -/

/-- The values of the type whose length the format can tell: a string has it in 16 bits, any other
    type has it in the table. -/
def FitsType (type : Option FmtArgType) (value : List UInt8) : Prop :=
  if type = some .typeString then value.length < 2 ^ 16 else value.length = sizeofArgType type

/-- The value as it stands in a file, a string behind its length. -/
def valueBytes (type : Option FmtArgType) (value : List UInt8) : List UInt8 :=
  if type = some .typeString then toLittleEndian 2 value.length ++ value else value

theorem readSize_valueBytes {type : Option FmtArgType} {value : List UInt8}
    (h : FitsType type value) (rest : List UInt8) :
    readSize type (valueBytes type value ++ rest) = some (value.length, value ++ rest) := by
  unfold FitsType at h
  unfold readSize valueBytes
  by_cases hstring : type = some .typeString
  · rw [if_pos hstring] at h
    rw [if_pos hstring, if_pos hstring, List.append_assoc]
    exact readLittleEndian_append h _
  · rw [if_neg hstring] at h
    rw [if_neg hstring, if_neg hstring, h]

/-- Size and data are read in bounds exactly if a whole value is in front. -/
theorem valueBytes_of_readSize {type : Option FmtArgType} {file file₁ rest value : List UInt8}
    {size : Nat} (hsize : readSize type file = some (size, file₁))
    (hread : readBytes size file₁ = some (value, rest)) :
    FitsType type value ∧ file = valueBytes type value ++ rest := by
  obtain ⟨rfl, rfl⟩ := readBytes_eq_some.1 hread
  unfold readSize at hsize
  unfold FitsType valueBytes
  by_cases hstring : type = some .typeString
  · rw [if_pos hstring] at hsize
    rw [if_pos hstring, if_pos hstring, List.append_assoc]
    exact ⟨readLittleEndian_lt hsize, readLittleEndian_eq_some hsize⟩
  · rw [if_neg hstring, Option.some.injEq, Prod.mk.injEq] at hsize
    rw [if_neg hstring, if_neg hstring]
    exact ⟨hsize.1.symm, hsize.2⟩

/-! ## Index files -/

/-- The bytes behind the type bytes of a row, and the arguments they stand for. -/
inductive RowArgs : List (Option FmtArgType) → List IndexArg → List UInt8 → Prop
  | nil : RowArgs [] [] []
  | dynamic {type : Option FmtArgType} {types : List (Option FmtArgType)} {args : List IndexArg}
      {bytes : List UInt8} (tail : RowArgs types args bytes) :
      RowArgs (type :: types) (⟨type, false, []⟩ :: args) (0 :: bytes)
  | constant {type : Option FmtArgType} {types : List (Option FmtArgType)} {args : List IndexArg}
      {bytes : List UInt8} {flag : UInt8} {value : List UInt8} (hflag : flag ≠ 0)
      (hfits : FitsType type value) (tail : RowArgs types args bytes) :
      RowArgs (type :: types) (⟨type, true, value⟩ :: args)
        (flag :: (valueBytes type value ++ bytes))

/-- A whole row of the index file, and the entry it stands for. -/
inductive WholeRow : IndexEntry → List UInt8 → Prop
  | intro (types : List UInt8) {formatString : List UInt8} {args : List IndexArg}
      {bytes : List UInt8} (hlength : formatString.length < 2 ^ 16)
      (hcount : types.length < 256) (hargs : RowArgs (types.map FmtArgType.ofByte) args bytes) :
      WholeRow ⟨formatString, args⟩
        (toLittleEndian 2 formatString.length ++ formatString ++ [UInt8.ofNat types.length]
          ++ types ++ bytes)

theorem readLittleEndian_one (b : UInt8) (bs : List UInt8) :
    readLittleEndian 1 (b :: bs) = some (b.toNat, bs) := by
  simp [readLittleEndian, readBytes, ofLittleEndian]

theorem readLittleEndian_one_eq_some {file rest : List UInt8} {n : Nat}
    (h : readLittleEndian 1 file = some (n, rest)) :
    ∃ b : UInt8, n = b.toNat ∧ file = b :: rest := by
  cases file with
  | nil => exact absurd h (by simp [readLittleEndian, readBytes])
  | cons b bs =>
    rw [readLittleEndian_one, Option.some.injEq, Prod.mk.injEq] at h
    exact ⟨b, h.1.symm, by rw [h.2]⟩

theorem RowArgs.parse {types : List (Option FmtArgType)} {args : List IndexArg}
    {bytes : List UInt8} (h : RowArgs types args bytes) (rest : List UInt8) :
    parseArgs types (bytes ++ rest) = some (args, rest) := by
  induction h with
  | nil => rfl
  | dynamic tail ih =>
    rw [List.cons_append, parseArgs, readLittleEndian_one]
    simp only [Option.bind_eq_bind, Option.bind_some, UInt8.toNat_zero, ne_eq, not_true_eq_false,
      if_false, ih]
  | constant hflag hfits tail ih =>
    rename_i flag value
    have hne : flag.toNat ≠ 0 := by
      intro hzero
      exact hflag (UInt8.toNat_inj.1 hzero)
    rw [List.cons_append, List.append_assoc, parseArgs, readLittleEndian_one]
    simp only [Option.bind_eq_bind, Option.bind_some, if_pos hne, readSize_valueBytes hfits,
      readBytes_append, ih]

theorem rowArgs_of_parseArgs {types : List (Option FmtArgType)} {args : List IndexArg}
    {file rest : List UInt8} (h : parseArgs types file = some (args, rest)) :
    ∃ bytes, RowArgs types args bytes ∧ file = bytes ++ rest := by
  induction types generalizing file args with
  | nil =>
    simp only [parseArgs, Option.some.injEq, Prod.mk.injEq] at h
    obtain ⟨rfl, rfl⟩ := h
    exact ⟨[], .nil, rfl⟩
  | cons type types ih =>
    simp only [parseArgs, Option.bind_eq_bind, Option.bind_eq_some_iff, Prod.exists] at h
    obtain ⟨flag, file₁, hflag, h⟩ := h
    obtain ⟨b, rfl, rfl⟩ := readLittleEndian_one_eq_some hflag
    split at h
    · next hne =>
      simp only [Option.bind_eq_some_iff, Prod.exists, Option.some.injEq, Prod.mk.injEq] at h
      obtain ⟨size, file₂, hsize, value, file₃, hread, args', file₄, hargs, rfl, rfl⟩ := h
      obtain ⟨hfits, rfl⟩ := valueBytes_of_readSize hsize hread
      obtain ⟨bytes, htail, rfl⟩ := ih hargs
      have hb : b ≠ 0 := by
        rintro rfl
        exact hne rfl
      exact ⟨_, .constant hb hfits htail, by rw [List.cons_append, List.append_assoc]⟩
    · next hzero =>
      simp only [Option.bind_eq_some_iff, Prod.exists, Option.some.injEq, Prod.mk.injEq] at h
      obtain ⟨args', file₂, hargs, rfl, rfl⟩ := h
      obtain ⟨bytes, htail, rfl⟩ := ih hargs
      obtain rfl : b = 0 := UInt8.toNat_inj.1 (not_not.1 hzero)
      exact ⟨_, .dynamic htail, rfl⟩

theorem WholeRow.parse {entry : IndexEntry} {row : List UInt8} (h : WholeRow entry row)
    (rest : List UInt8) : parseEntry (row ++ rest) = some (entry, rest) := by
  obtain ⟨types, hlength, hcount, hargs⟩ := h
  have hlength' : _ < 256 ^ 2 := hlength
  have hnum : (UInt8.ofNat types.length).toNat = types.length := UInt8.toNat_ofNat_of_lt' hcount
  simp only [List.append_assoc, parseEntry, readLittleEndian_append hlength', Option.bind_eq_bind,
    Option.bind_some, readBytes_append, List.cons_append, List.nil_append, readLittleEndian_one,
    hnum, hargs.parse]
  by_cases hpos : 0 < types.length
  · rw [if_pos hpos]
  · -- no type bytes, and so no arguments
    obtain rfl := List.eq_nil_of_length_eq_zero (Nat.eq_zero_of_not_pos hpos)
    cases hargs
    rw [if_neg hpos]
    rfl

theorem wholeRow_of_parseEntry {entry : IndexEntry} {file rest : List UInt8}
    (h : parseEntry file = some (entry, rest)) :
    ∃ row, WholeRow entry row ∧ file = row ++ rest := by
  simp only [parseEntry, Option.bind_eq_bind, Option.bind_eq_some_iff, Prod.exists] at h
  obtain ⟨size, file₁, hsize, formatString, file₂, hformat, num, file₃, hnum, h⟩ := h
  have hlength := readLittleEndian_lt hsize
  obtain rfl := readLittleEndian_eq_some hsize
  obtain ⟨rfl, rfl⟩ := readBytes_eq_some.1 hformat
  obtain ⟨b, rfl, rfl⟩ := readLittleEndian_one_eq_some hnum
  split at h
  · simp only [Option.bind_eq_some_iff, Prod.exists, Option.some.injEq, Prod.mk.injEq] at h
    obtain ⟨types, file₄, htypes, args, file₅, hargs, rfl, rfl⟩ := h
    obtain ⟨rfl, hcount⟩ := readBytes_eq_some.1 htypes
    obtain ⟨bytes, hrow, rfl⟩ := rowArgs_of_parseArgs hargs
    have hlt : types.length < 256 := by
      rw [hcount]
      exact b.toNat_lt
    refine ⟨_, .intro types hlength hlt hrow, ?_⟩
    rw [hcount, UInt8.ofNat_toNat]
    simp only [List.append_assoc, List.cons_append, List.nil_append]
  · next hzero =>
    simp only [Option.some.injEq, Prod.mk.injEq] at h
    obtain ⟨rfl, rfl⟩ := h
    obtain rfl : b = 0 := UInt8.toNat_inj.1 (Nat.eq_zero_of_not_pos hzero)
    refine ⟨_, .intro [] hlength (by decide) .nil, ?_⟩
    simp

theorem three_le_length_of_wholeRow {entry : IndexEntry} {row : List UInt8}
    (h : WholeRow entry row) : 3 ≤ row.length := by
  obtain ⟨_, _, _, _⟩ := h
  simp only [List.length_append, length_toLittleEndian, List.length_singleton]
  omega

/-- The byte strings that are a row of some entry. -/
def IsRow (row : List UInt8) : Prop := ∃ entry, WholeRow entry row

theorem parseLoop_of_rows {rows : List (List UInt8)} (h : ∀ row ∈ rows, IsRow row) {fuel : Nat}
    (hfuel : rows.flatten.length ≤ fuel) : ∃ table, parseLoop fuel rows.flatten = some table := by
  induction rows generalizing fuel with
  | nil => cases fuel <;> exact ⟨[], rfl⟩
  | cons row rows ih =>
    obtain ⟨entry, hrow⟩ := h row List.mem_cons_self
    have hlength := three_le_length_of_wholeRow hrow
    rw [List.flatten_cons, List.length_append] at hfuel
    obtain ⟨fuel, rfl⟩ : ∃ f, fuel = f + 1 := ⟨fuel - 1, by omega⟩
    obtain ⟨b, bs, rfl⟩ := List.exists_cons_of_length_pos (l := row) (by omega)
    have hentry := hrow.parse rows.flatten
    rw [List.cons_append] at hentry
    have hfuel' : rows.flatten.length ≤ fuel := by omega
    obtain ⟨table, htable⟩ := ih (fun row' hrow' => h row' (List.mem_cons_of_mem _ hrow')) hfuel'
    refine ⟨entry :: table, ?_⟩
    rw [List.flatten_cons, List.cons_append, parseLoop, hentry]
    simp only [Option.bind_eq_bind, Option.bind_some, htable]

theorem rows_of_parseLoop {fuel : Nat} {file : List UInt8} {table : List IndexEntry}
    (h : parseLoop fuel file = some table) :
    ∃ rows : List (List UInt8), (∀ row ∈ rows, IsRow row) ∧ file = rows.flatten := by
  induction fuel generalizing file table with
  | zero =>
    cases file with
    | nil => exact ⟨[], by simp, rfl⟩
    | cons b bs => exact absurd h (by simp [parseLoop])
  | succ fuel ih =>
    cases file with
    | nil => exact ⟨[], by simp, rfl⟩
    | cons b bs =>
      simp only [parseLoop, Option.bind_eq_bind, Option.bind_eq_some_iff, Prod.exists] at h
      obtain ⟨entry, file', hentry, entries, hrest, -⟩ := h
      obtain ⟨row, hrow, hfile⟩ := wholeRow_of_parseEntry hentry
      obtain ⟨rows, hrows, rfl⟩ := ih hrest
      refine ⟨row :: rows, ?_, by rw [hfile, List.flatten_cons]⟩
      intro row' hrow'
      rcases List.mem_cons.1 hrow' with rfl | hrow'
      · exact ⟨entry, hrow⟩
      · exact hrows row' hrow'

/-- `parse` gets through exactly the index files of whole rows. -/
theorem parse_isSome_iff {file : List UInt8} :
    (parse file).isSome ↔
      ∃ rows : List (List UInt8), (∀ row ∈ rows, IsRow row) ∧ file = rows.flatten := by
  rw [Option.isSome_iff_exists]
  constructor
  · rintro ⟨table, htable⟩
    exact rows_of_parseLoop htable
  · rintro ⟨rows, hrows, rfl⟩
    exact parseLoop_of_rows hrows le_rfl

/-! ## Log files -/

/-- The bytes a call of a row has in the log: the values that the row does not hold. -/
inductive CallValues : List IndexArg → List UInt8 → Prop
  | nil : CallValues [] []
  | constant {info : IndexArg} {infos : List IndexArg} {bytes : List UInt8}
      (hinfo : info.isConstant = true) (tail : CallValues infos bytes) :
      CallValues (info :: infos) bytes
  | dynamic {info : IndexArg} {infos : List IndexArg} {bytes value : List UInt8}
      (hinfo : info.isConstant = false) (hfits : FitsType info.type value)
      (tail : CallValues infos bytes) :
      CallValues (info :: infos) (valueBytes info.type value ++ bytes)

/-- A whole entry of the log file: an id with a row in the table, and the values of its calls. The
    unread rest of the runlength file (before the entry, and behind it) decides how many calls
    these are. -/
inductive WholeEntry (table : List IndexEntry) : List UInt8 → List UInt8 → List UInt8 → Prop
  | last {index : Nat} {entry : IndexEntry} {values : List UInt8} (hindex : index < 2 ^ 16)
      (htable : table[index]? = some entry) (hvalues : CallValues entry.args values) :
      WholeEntry table [] (headerBytes index ++ values) []
  | single {index next : Nat} {entry : IndexEntry} {values rest : List UInt8}
      (hindex : index < 2 ^ 16) (htable : table[index]? = some entry)
      (hvalues : CallValues entry.args values) (hnext : next < 2 ^ 16) (hne : next ≠ index) :
      WholeEntry table (headerBytes next ++ rest) (headerBytes index ++ values)
        (headerBytes next ++ rest)
  | run {index count : Nat} {entry : IndexEntry} {calls : List (List UInt8)} {rest : List UInt8}
      (hindex : index < 2 ^ 16) (htable : table[index]? = some entry)
      (hcount : calls.length = count) (hlong : count < 2 ^ 64)
      (hvalues : ∀ values ∈ calls, CallValues entry.args values) :
      WholeEntry table (recordBytes (index, count) ++ rest) (headerBytes index ++ calls.flatten)
        rest

theorem CallValues.parse {infos : List IndexArg} {bytes : List UInt8} (h : CallValues infos bytes)
    (store : List (FmtArgType × List UInt8)) (rest : List UInt8) :
    ∃ args, parseLogArgs store infos (bytes ++ rest) = some (args, rest) := by
  induction h generalizing store with
  | nil => exact ⟨store, rfl⟩
  | constant hinfo tail ih =>
    rename_i info infos bytes
    obtain ⟨args, hargs⟩ := ih (updateStore store info.type info.argData)
    refine ⟨args, ?_⟩
    rw [parseLogArgs, parseLogArg, if_pos hinfo]
    simp only [Option.bind_eq_bind, Option.bind_some, hargs]
  | dynamic hinfo hfits tail ih =>
    rename_i info infos bytes value
    obtain ⟨args, hargs⟩ := ih (updateStore store info.type value)
    have hdynamic : ¬ info.isConstant = true := by simp [hinfo]
    refine ⟨args, ?_⟩
    rw [List.append_assoc, parseLogArgs, parseLogArg, if_neg hdynamic]
    simp only [Option.bind_eq_bind, readSize_valueBytes hfits, Option.bind_some, readBytes_append,
      hargs]

theorem callValues_of_parseLogArgs {infos : List IndexArg}
    {store args : List (FmtArgType × List UInt8)} {file rest : List UInt8}
    (h : parseLogArgs store infos file = some (args, rest)) :
    ∃ bytes, CallValues infos bytes ∧ file = bytes ++ rest := by
  induction infos generalizing store file with
  | nil =>
    simp only [parseLogArgs, Option.some.injEq, Prod.mk.injEq] at h
    obtain ⟨-, rfl⟩ := h
    exact ⟨[], .nil, rfl⟩
  | cons info infos ih =>
    simp only [parseLogArgs, Option.bind_eq_bind, Option.bind_eq_some_iff, Prod.exists] at h
    obtain ⟨value, file₁, hhead, hrest⟩ := h
    obtain ⟨bytes, htail, rfl⟩ := ih hrest
    unfold parseLogArg at hhead
    split at hhead
    · next hconstant =>
      simp only [Option.some.injEq, Prod.mk.injEq] at hhead
      obtain ⟨-, rfl⟩ := hhead
      exact ⟨bytes, .constant hconstant htail, rfl⟩
    · next hdynamic =>
      simp only [Option.bind_eq_bind, Option.bind_eq_some_iff, Prod.exists] at hhead
      obtain ⟨size, file₂, hsize, hread⟩ := hhead
      obtain ⟨hfits, rfl⟩ := valueBytes_of_readSize hsize hread
      exact ⟨_, .dynamic (Bool.eq_false_iff.2 hdynamic) hfits htail, by rw [List.append_assoc]⟩

theorem parseCalls_of_callValues {entry : IndexEntry} {calls : List (List UInt8)}
    (h : ∀ values ∈ calls, CallValues entry.args values) (index : Nat) (rest : List UInt8) :
    ∃ es, parseCalls index entry calls.length (calls.flatten ++ rest) = some (es, rest) := by
  induction calls with
  | nil => exact ⟨[], rfl⟩
  | cons values calls ih =>
    obtain ⟨args, hargs⟩ := (h values List.mem_cons_self).parse [] (calls.flatten ++ rest)
    obtain ⟨es, hes⟩ := ih (fun v hv => h v (List.mem_cons_of_mem _ hv))
    refine ⟨⟨index, entry.formatString, args⟩ :: es, ?_⟩
    rw [List.flatten_cons, List.append_assoc, List.length_cons, parseCalls]
    simp only [Option.bind_eq_bind, hargs, Option.bind_some, hes]

theorem parseCalls_one {entry : IndexEntry} {values : List UInt8}
    (h : CallValues entry.args values) (index : Nat) (rest : List UInt8) :
    ∃ es, parseCalls index entry 1 (values ++ rest) = some (es, rest) := by
  have hcalls : ∀ v ∈ [values], CallValues entry.args v := by
    intro v hv
    rwa [List.mem_singleton.1 hv]
  obtain ⟨es, hes⟩ := parseCalls_of_callValues hcalls index rest
  rw [List.flatten_singleton] at hes
  exact ⟨es, hes⟩

theorem callValues_of_parseCalls {entry : IndexEntry} {index n : Nat} {es : List LogEntry}
    {file rest : List UInt8} (h : parseCalls index entry n file = some (es, rest)) :
    ∃ calls : List (List UInt8), calls.length = n ∧
      (∀ values ∈ calls, CallValues entry.args values) ∧ file = calls.flatten ++ rest := by
  induction n generalizing file es with
  | zero =>
    simp only [parseCalls, Option.some.injEq, Prod.mk.injEq] at h
    obtain ⟨-, rfl⟩ := h
    exact ⟨[], rfl, by simp, rfl⟩
  | succ n ih =>
    simp only [parseCalls, Option.bind_eq_bind, Option.bind_eq_some_iff, Prod.exists,
      Option.some.injEq, Prod.mk.injEq] at h
    obtain ⟨args, file₁, hargs, es', file₂, hrest, -, rfl⟩ := h
    obtain ⟨values, hvalues, rfl⟩ := callValues_of_parseLogArgs hargs
    obtain ⟨calls, rfl, hcalls, rfl⟩ := ih hrest
    refine ⟨values :: calls, rfl, ?_, by simp⟩
    intro v hv
    rcases List.mem_cons.1 hv with rfl | hv
    · exact hvalues
    · exact hcalls v hv

theorem WholeEntry.parse {table : List IndexEntry} {entry runlengthfile runlengthfile' : List UInt8}
    (h : WholeEntry table runlengthfile entry runlengthfile') (rest : List UInt8) :
    ∃ es, parseAndPrintLogEntry table (entry ++ rest) runlengthfile
      = some (es, rest, runlengthfile') := by
  cases h with
  | last hindex htable hvalues =>
    rename_i index row values
    have hheader := readLittleEndian_headerBytes hindex (values ++ rest)
    obtain ⟨es, hes⟩ := parseCalls_one hvalues index rest
    refine ⟨es, ?_⟩
    simp only [parseAndPrintLogEntry, List.append_assoc, hheader, if_true, Option.bind_eq_bind,
      Option.bind_some, htable, hes]
  | single hindex htable hvalues hnext hne =>
    rename_i index next row values rl
    have hheader := readLittleEndian_headerBytes hindex (values ++ rest)
    have hhead := readLittleEndian_headerBytes hnext rl
    have hfile : headerBytes next ++ rl ≠ [] := by
      intro hnil
      exact absurd (congrArg List.length hnil) (by simp)
    obtain ⟨es, hes⟩ := parseCalls_one hvalues index rest
    refine ⟨es, ?_⟩
    simp only [parseAndPrintLogEntry, List.append_assoc, hheader, hhead, if_neg hfile, if_neg hne,
      Option.bind_eq_bind, Option.bind_some, htable, hes]
  | run hindex htable hcount hlong hvalues =>
    rename_i index count row calls
    have hheader := readLittleEndian_headerBytes hindex (calls.flatten ++ rest)
    have hhead := readLittleEndian_headerBytes hindex (toLittleEndian 8 count ++ runlengthfile')
    have hlength : readLittleEndian 8 (toLittleEndian 8 count ++ runlengthfile')
        = some (count, runlengthfile') := readLittleEndian_append hlong _
    have hfile : headerBytes index ++ (toLittleEndian 8 count ++ runlengthfile') ≠ [] := by
      intro hnil
      exact absurd (congrArg List.length hnil) (by simp)
    obtain ⟨es, hes⟩ := parseCalls_of_callValues hvalues index rest
    rw [hcount] at hes
    refine ⟨es, ?_⟩
    rw [show recordBytes (index, count) = headerBytes index ++ toLittleEndian 8 count from rfl]
    simp only [parseAndPrintLogEntry, List.append_assoc, hheader, hhead, hlength, if_neg hfile,
      if_true, Option.bind_eq_bind, Option.bind_some, htable, hes]

theorem wholeEntry_of_parse {table : List IndexEntry}
    {logfile rest runlengthfile runlengthfile' : List UInt8} {es : List LogEntry}
    (h : parseAndPrintLogEntry table logfile runlengthfile = some (es, rest, runlengthfile')) :
    ∃ entry, WholeEntry table runlengthfile entry runlengthfile' ∧ logfile = entry ++ rest := by
  obtain ⟨index, row, count, body, rfl, hindex, htable, hcalls, hcases⟩ :=
    parseAndPrintLogEntry_cases h
  obtain ⟨calls, hlength, hvalues, rfl⟩ := callValues_of_parseCalls hcalls
  refine ⟨headerBytes index ++ calls.flatten, ?_, by rw [List.append_assoc]⟩
  have hone : count = 1 → CallValues row.args calls.flatten := by
    intro hcount
    obtain ⟨values, rfl⟩ := List.length_eq_one_iff.1 (hlength.trans hcount)
    rw [List.flatten_singleton]
    exact hvalues values List.mem_cons_self
  rcases hcases with ⟨hcount, rfl, rfl⟩ | ⟨hcount, rfl, next, rlRest, hnext, hne, rfl⟩
    | ⟨hlong, rfl⟩
  · exact .last hindex htable (hone hcount)
  · exact .single hindex htable (hone hcount) hnext hne
  · exact .run hindex htable hlength hlong hvalues

/-! ## The loop of `parse_and_print` -/

theorem two_le_length_of_wholeEntry {table : List IndexEntry}
    {entry runlengthfile runlengthfile' : List UInt8}
    (h : WholeEntry table runlengthfile entry runlengthfile') : 2 ≤ entry.length := by
  cases h <;> simp

theorem parseAndPrintLoop_wholeEntries {table : List IndexEntry} {entries : List (List UInt8)}
    {runlengthfile : List UInt8} (h : Items (WholeEntry table) runlengthfile entries) {fuel : Nat}
    (hfuel : entries.flatten.length ≤ fuel) :
    ∃ res, parseAndPrintLoop table fuel entries.flatten runlengthfile = some res := by
  induction h generalizing fuel with
  | nil rl => cases fuel <;> exact ⟨([], rl), rfl⟩
  | cons head tail ih =>
    rename_i rl rl' entry entries
    have hlength := two_le_length_of_wholeEntry head
    rw [List.flatten_cons, List.length_append] at hfuel
    obtain ⟨fuel, rfl⟩ : ∃ f, fuel = f + 1 := ⟨fuel - 1, by omega⟩
    obtain ⟨b, bs, rfl⟩ := List.exists_cons_of_length_pos (l := entry) (by omega)
    obtain ⟨es, hes⟩ := head.parse entries.flatten
    rw [List.cons_append] at hes
    have hfuel' : entries.flatten.length ≤ fuel := by omega
    obtain ⟨res, hres⟩ := ih hfuel'
    refine ⟨(es ++ res.1, res.2), ?_⟩
    rw [List.flatten_cons, List.cons_append, parseAndPrintLoop, hes]
    simp only [Option.bind_eq_bind, Option.bind_some, hres]

theorem wholeEntries_of_parseAndPrintLoop {table : List IndexEntry} {fuel : Nat}
    {logfile runlengthfile : List UInt8} {res : List LogEntry × List UInt8}
    (h : parseAndPrintLoop table fuel logfile runlengthfile = some res) :
    ∃ entries, Items (WholeEntry table) runlengthfile entries ∧ logfile = entries.flatten := by
  induction fuel generalizing logfile runlengthfile res with
  | zero =>
    cases logfile with
    | nil => exact ⟨[], .nil _, rfl⟩
    | cons b bs => exact absurd h (by simp [parseAndPrintLoop])
  | succ fuel ih =>
    cases logfile with
    | nil => exact ⟨[], .nil _, rfl⟩
    | cons b bs =>
      simp only [parseAndPrintLoop, Option.bind_eq_bind, Option.bind_eq_some_iff,
        Prod.exists] at h
      obtain ⟨es, logfile', rl', hentry, es', rl'', hrest, -⟩ := h
      obtain ⟨entry, hhead, hlogfile⟩ := wholeEntry_of_parse hentry
      obtain ⟨entries, htail, rfl⟩ := ih hrest
      exact ⟨entry :: entries, .cons hhead htail, by rw [hlogfile, List.flatten_cons]⟩

/-- `parse_and_print` gets through exactly the log files of whole entries. -/
theorem parseAndPrint_isSome_iff {table : List IndexEntry} {logfile runlengthfile : List UInt8} :
    (parseAndPrint table logfile runlengthfile).isSome ↔
      ∃ entries, Items (WholeEntry table) runlengthfile entries ∧ logfile = entries.flatten := by
  rw [Option.isSome_iff_exists]
  constructor
  · rintro ⟨res, hres⟩
    exact wholeEntries_of_parseAndPrintLoop hres
  · rintro ⟨entries, hentries, rfl⟩
    exact parseAndPrintLoop_wholeEntries hentries le_rfl

/-! ## Sizes

`update_store` reads a value through a pointer of the value's type. It stays within the view, since
the parsers give every value the size of its type. -/

/-- The constants of the row have the size of their types. -/
def IndexEntry.Sized (entry : IndexEntry) : Prop :=
  ∀ info ∈ entry.args, info.isConstant = true → FitsType info.type info.argData

/-- The printed values have the size of their types. -/
def LogEntry.Sized (e : LogEntry) : Prop := ∀ x ∈ e.args, FitsType (some x.1) x.2

theorem RowArgs.fits {types : List (Option FmtArgType)} {args : List IndexArg}
    {bytes : List UInt8} (h : RowArgs types args bytes) :
    ∀ arg ∈ args, arg.isConstant = true → FitsType arg.type arg.argData := by
  induction h with
  | nil => simp
  | dynamic tail ih =>
    intro arg harg hconstant
    rcases List.mem_cons.1 harg with rfl | harg
    · exact absurd hconstant (by simp)
    · exact ih arg harg hconstant
  | constant hflag hfits tail ih =>
    intro arg harg hconstant
    rcases List.mem_cons.1 harg with rfl | harg
    · exact hfits
    · exact ih arg harg hconstant

theorem WholeRow.sized {entry : IndexEntry} {row : List UInt8} (h : WholeRow entry row) :
    entry.Sized := by
  obtain ⟨types, -, -, hargs⟩ := h
  exact hargs.fits

theorem fitsType_of_parseLogArg {info : IndexArg} {file rest value : List UInt8}
    (hinfo : info.isConstant = true → FitsType info.type info.argData)
    (h : parseLogArg info file = some (value, rest)) : FitsType info.type value := by
  unfold parseLogArg at h
  split at h
  · next hconstant =>
    simp only [Option.some.injEq, Prod.mk.injEq] at h
    obtain ⟨rfl, -⟩ := h
    exact hinfo hconstant
  · simp only [Option.bind_eq_bind, Option.bind_eq_some_iff, Prod.exists] at h
    obtain ⟨size, file₁, hsize, hread⟩ := h
    exact (valueBytes_of_readSize hsize hread).1

theorem fitsType_of_parseLogArgs {infos : List IndexArg}
    (hinfos : ∀ info ∈ infos, info.isConstant = true → FitsType info.type info.argData)
    {store args : List (FmtArgType × List UInt8)}
    (hstore : ∀ x ∈ store, FitsType (some x.1) x.2) {file rest : List UInt8}
    (h : parseLogArgs store infos file = some (args, rest)) :
    ∀ x ∈ args, FitsType (some x.1) x.2 := by
  induction infos generalizing store file with
  | nil =>
    simp only [parseLogArgs, Option.some.injEq, Prod.mk.injEq] at h
    obtain ⟨rfl, -⟩ := h
    exact hstore
  | cons info infos ih =>
    simp only [parseLogArgs, Option.bind_eq_bind, Option.bind_eq_some_iff, Prod.exists] at h
    obtain ⟨value, file₁, hhead, hrest⟩ := h
    have hvalue := fitsType_of_parseLogArg (hinfos info List.mem_cons_self) hhead
    refine ih (fun i hi => hinfos i (List.mem_cons_of_mem _ hi)) ?_ hrest
    intro x hx
    unfold updateStore at hx
    split at hx
    · next type htype =>
      rcases List.mem_append.1 hx with hx | hx
      · exact hstore x hx
      · obtain rfl := List.mem_singleton.1 hx
        rwa [htype] at hvalue
    · exact hstore x hx

/-- Whatever the three files contain, the values that are printed have the size of their types. -/
theorem sized_of_unpack {indexfile logfile runlengthfile rest : List UInt8} {es : List LogEntry}
    (h : unpack indexfile logfile runlengthfile = some (es, rest)) : ∀ e ∈ es, e.Sized := by
  simp only [unpack, Option.bind_eq_bind, Option.bind_eq_some_iff] at h
  obtain ⟨table, htable, hprint⟩ := h
  have hsized : ∀ entry ∈ table, entry.Sized := by
    refine parseLoop_forall ?_ htable
    intro file entry rest hentry
    obtain ⟨row, hrow, -⟩ := wholeRow_of_parseEntry hentry
    exact hrow.sized
  intro e he
  obtain ⟨entry, file, file', hrow, -, hargs⟩ := readWith_of_parseAndPrintLoop hprint e he
  exact fitsType_of_parseLogArgs (hsized entry (List.mem_of_getElem? hrow)) (by simp) hargs

/-! ## Cut files -/

theorem isRow_selfDelimiting : SelfDelimiting (fun (_ : Unit) row (_ : Unit) => IsRow row) := by
  apply selfDelimiting_of_reader (fun _ file =>
    (parseEntry file).map (fun res => (res.1, res.2, ())))
  rintro - row - rest ⟨entry, hentry⟩
  exact ⟨entry, by rw [hentry.parse]; rfl⟩

theorem wholeEntry_selfDelimiting (table : List IndexEntry) :
    SelfDelimiting (WholeEntry table) := by
  apply selfDelimiting_of_reader (fun runlengthfile logfile =>
    parseAndPrintLogEntry table logfile runlengthfile)
  intro runlengthfile entry runlengthfile' rest hentry
  exact hentry.parse rest

/-- A cut of an index file of whole rows is read in bounds exactly if it ends where a row ends. -/
theorem parse_cut_iff {rows : List (List UInt8)} (h : ∀ row ∈ rows, IsRow row) {cut : List UInt8}
    (hcut : cut <+: rows.flatten) :
    (parse cut).isSome ↔ ∃ k, cut = (rows.take k).flatten := by
  have hne : ∀ (s : Unit) row (s' : Unit), IsRow row → row ≠ [] := by
    rintro - row - ⟨entry, hentry⟩ rfl
    exact absurd (three_le_length_of_wholeRow hentry) (by simp)
  rw [parse_isSome_iff, ← (items_of_forall h).cut_iff isRow_selfDelimiting hne hcut]
  constructor
  · rintro ⟨rows', hrows', heq⟩
    exact ⟨rows', items_of_forall hrows', heq⟩
  · rintro ⟨rows', hrows', heq⟩
    exact ⟨rows', hrows'.forall_mem, heq⟩

/-- A cut of a log file of whole entries is read in bounds, beside the same runlength file, exactly
    if it ends where an entry ends. -/
theorem parseAndPrint_cut_iff {table : List IndexEntry} {entries : List (List UInt8)}
    {runlengthfile : List UInt8} (h : Items (WholeEntry table) runlengthfile entries)
    {cut : List UInt8} (hcut : cut <+: entries.flatten) :
    (parseAndPrint table cut runlengthfile).isSome ↔ ∃ k, cut = (entries.take k).flatten := by
  have hne : ∀ rl entry rl', WholeEntry table rl entry rl' → entry ≠ [] := by
    rintro rl entry rl' hentry rfl
    exact absurd (two_le_length_of_wholeEntry hentry) (by simp)
  rw [parseAndPrint_isSome_iff, h.cut_iff (wholeEntry_selfDelimiting table) hne hcut]

theorem isRow_rowBytes {r : Registration} (h : r.WellFormed) : IsRow r.rowBytes := by
  obtain ⟨row, hrow, heq⟩ := wholeRow_of_parseEntry (parseEntry_append h [])
  rw [List.append_nil, List.append_nil] at heq
  rw [heq]
  exact ⟨r.row, hrow⟩

/-- What `packer` has handed to the index file is a cut of the rows registered so far. -/
theorem Packer.index_isPrefix {n m r : Nat} {ops : List Op} {lg : Logger (Packer n m r)}
    (h : Logger.run .fresh ops = .ok lg) :
    lg.packer.files.index <+: (registrations ops).flatMap Registration.rowBytes := by
  have hindex := (Packer.refinement.run h).index
  rw [Streams.index_runOps] at hindex
  rw [SpillBuffer.contents] at hindex
  refine ⟨lg.packer.indexFile.held, ?_⟩
  rw [Packer.files, hindex]
  exact List.nil_append _

/-- A cut of what `packer` has handed to the index file is read in bounds exactly if it ends where a
    row ends. -/
theorem Packer.parse_cut_iff {n m r : Nat} {ops : List Op} {lg : Logger (Packer n m r)}
    (h : Logger.run .fresh ops = .ok lg) (hrows : ∀ reg ∈ registrations ops, reg.WellFormed)
    {cut : List UInt8} (hcut : cut <+: lg.packer.files.index) :
    (parse cut).isSome ↔
      ∃ k, cut = ((registrations ops).take k).flatMap Registration.rowBytes := by
  have hrow : ∀ row ∈ (registrations ops).map Registration.rowBytes, IsRow row := by
    intro row hrow
    obtain ⟨reg, hreg, rfl⟩ := List.mem_map.1 hrow
    exact isRow_rowBytes (hrows reg hreg)
  have hprefix := hcut.trans (Packer.index_isPrefix h)
  rw [List.flatMap_def] at hprefix
  rw [BinaryLog.parse_cut_iff hrow hprefix]
  simp only [List.map_take, List.flatMap_def]

/-! ## The unpacker -/

/-- The index file consists of whole rows. -/
def Files.WholeIndex (f : Files) : Prop :=
  ∃ rows : List (List UInt8), (∀ row ∈ rows, IsRow row) ∧ f.index = rows.flatten

/-- The log file consists of whole entries, read by the table beside the runlength file. -/
def Files.WholeLog (f : Files) (table : List IndexEntry) : Prop :=
  ∃ entries : List (List UInt8), Items (WholeEntry table) f.runlength entries ∧
    f.log = entries.flatten

/-- Whatever the files contain, the parsers stay in bounds exactly if the files consist of whole
    rows and whole entries. For files that were cut off this says where the cut has to be. -/
theorem unpacker_inBounds_iff :
    (∀ f : Files, (parse f.index).isSome ↔ f.WholeIndex) ∧
    (∀ (f : Files) (table : List IndexEntry), parse f.index = some table →
      ((parseAndPrint table f.log f.runlength).isSome ↔ f.WholeLog table)) ∧
    (∀ (f : Files) (es : List LogEntry) (rest : List UInt8), f.unpack = some (es, rest) →
      ∀ e ∈ es, e.Sized) ∧
    (∀ (n m r : Nat) (ops : List Op) (lg : Logger (Packer n m r)),
      Logger.run .fresh ops = .ok lg → (∀ reg ∈ registrations ops, reg.WellFormed) →
      ∀ cut, cut <+: lg.packer.files.index → ((parse cut).isSome ↔
        ∃ k, cut = ((registrations ops).take k).flatMap Registration.rowBytes)) ∧
    (∀ (table : List IndexEntry) (entries : List (List UInt8)) (runlengthfile : List UInt8),
      Items (WholeEntry table) runlengthfile entries →
      ∀ cut, cut <+: entries.flatten → ((parseAndPrint table cut runlengthfile).isSome ↔
        ∃ k, cut = (entries.take k).flatten)) := by
  refine ⟨?_, ?_, ?_, ?_, ?_⟩
  · intro f
    exact parse_isSome_iff
  · intro f table _
    exact parseAndPrint_isSome_iff
  · intro f es rest h
    exact sized_of_unpack h
  · intro n m r ops lg hrun hrows cut hcut
    exact Packer.parse_cut_iff hrun hrows hcut
  · intro table entries runlengthfile hentries cut hcut
    exact parseAndPrint_cut_iff hentries hcut

/-- Two rows and a call of the second one: the files are whole, and the index file may be cut behind
    either row, the log file in front of the entry or behind it. -/
theorem unpacker_inBounds_two_rows :
    ∃ lg : Logger (Packer 1048576 32 32),
      Logger.run .fresh [.logIndex (.literal [65]) [], .logIndex (.literal [66]) [], .log 1 [],
        .flush] = .ok lg ∧
      lg.packer.files.WholeIndex ∧ lg.packer.files.WholeLog [⟨[65], []⟩, ⟨[66], []⟩] ∧
      (∀ cut, cut <+: lg.packer.files.index → ((parse cut).isSome ↔
        ∃ k, cut = ([⟨.literal [65], []⟩, ⟨.literal [66], []⟩].take k).flatMap
          Registration.rowBytes)) ∧
      (∀ cut, cut <+: [[1, 0]].flatten → ((parseAndPrint [⟨[65], []⟩, ⟨[66], []⟩] cut []).isSome ↔
        ∃ k, cut = ([[1, 0]].take k).flatten)) := by
  obtain ⟨hindex, hlog, -, hcutIndex, hcutLog⟩ := unpacker_inBounds_iff
  have hrows : ∀ reg ∈ registrations [.logIndex (.literal [65]) [], .logIndex (.literal [66]) [],
      .log 1 [], .flush], reg.WellFormed := by decide
  have hentries : Items (WholeEntry [⟨[65], []⟩, ⟨[66], []⟩]) [] [[1, 0]] :=
    .cons (@WholeEntry.last _ 1 ⟨[66], []⟩ [] (by decide) rfl .nil) (.nil [])
  exact ⟨_, rfl, (hindex _).1 rfl, (hlog _ _ rfl).1 rfl, hcutIndex _ _ _ _ _ rfl hrows,
    hcutLog _ _ _ hentries⟩

/-- In the same run: an index file cut inside a row is read past its end, cut behind the first row
    it leaves a table that the log file subscripts past its end, and a log file cut inside an entry
    is read past its end. -/
theorem unpacker_out_of_bounds :
    ∃ lg : Logger (Packer 1048576 32 32),
      Logger.run .fresh [.logIndex (.literal [65]) [], .logIndex (.literal [66]) [], .log 1 [],
        .flush] = .ok lg ∧
      parse (lg.packer.files.index.take 3) = none ∧
      parse (lg.packer.files.index.take 4) = some [⟨[65], []⟩] ∧
      parseAndPrint [⟨[65], []⟩] lg.packer.files.log lg.packer.files.runlength = none ∧
      parse lg.packer.files.index = some [⟨[65], []⟩, ⟨[66], []⟩] ∧
      parseAndPrint [⟨[65], []⟩, ⟨[66], []⟩] (lg.packer.files.log.take 1)
        lg.packer.files.runlength = none :=
  ⟨_, rfl, rfl, rfl, rfl, rfl, rfl⟩

end BinaryLog
