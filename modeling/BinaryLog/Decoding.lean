import BinaryLog.IndexFormat
import BinaryLog.RunFormat

set_option autoImplicit false

/-! # Reading the log back

The log parser re-joins three files: the row of an entry gives the layout of its arguments, and the
head of the runlength file alone decides how many calls are behind an id. Each function of the
parser has two lemmas, one that says it reads back what the writer wrote (`…_append`), and one that
says which bytes it must have read when it returned what was written (`…_eq_some`).

`decode_iff` puts them together: for calls and flushes in any order, the decoder recovers the calls
exactly if the encoder was legible and its pieces are unambiguous. -/

namespace BinaryLog

open Bytes Runs

/-! ## Arguments -/

/-- The bytes an argument that fits takes in the log. -/
def Arg.logBytes : Arg → List UInt8
  | .constant _ => []
  | .dynamic value => value.framed

theorem readSize_eq_some {value : ArgValue} {file file₁ file' : List UInt8} {size : Nat}
    (hsize : readSize (some value.getArgType) file = some (size, file₁))
    (hread : readBytes size file₁ = some (value.bytes, file')) : file = value.framed ++ file' := by
  obtain ⟨rfl, hlength⟩ := readBytes_eq_some.1 hread
  cases value with
  | scalar type input =>
    have hne : some (ArgValue.scalar type input).getArgType ≠ some .typeString :=
      fun heq => type.getArgType_ne_typeString (Option.some.inj heq)
    rw [readSize, if_neg hne, Option.some.injEq, Prod.mk.injEq] at hsize
    exact hsize.2
  | cstr input =>
    simp only [readSize, ArgValue.getArgType, ArgValue.cppType, CppType.getArgType,
      if_true] at hsize
    rw [readLittleEndian_eq_some hsize, ← hlength]
    simp [ArgValue.framed, ArgValue.bytes]
  | string input =>
    simp only [readSize, ArgValue.getArgType, ArgValue.cppType, CppType.getArgType,
      if_true] at hsize
    rw [readLittleEndian_eq_some hsize, ← hlength]
    simp [ArgValue.framed, ArgValue.bytes]

theorem parseLogArg_append {arg : Arg} (h : arg.value.Fits) (rest : List UInt8) :
    parseLogArg arg.indexArg (arg.logBytes ++ rest) = some (arg.value.bytes, rest) := by
  cases arg with
  | constant value => rfl
  | dynamic value =>
    have hsize : readSize (some value.getArgType) (value.framed ++ rest) = _ :=
      readSize_framed h rest
    simp only [parseLogArg, Arg.indexArg, Arg.isConstant, Bool.false_eq_true, if_false, Arg.value,
      Arg.logBytes, hsize, Option.bind_eq_bind, Option.bind_some, readBytes_append]

theorem parseLogArg_eq_some {arg : Arg} {file file' : List UInt8}
    (h : parseLogArg arg.indexArg file = some (arg.value.bytes, file')) :
    file = arg.logBytes ++ file' := by
  cases arg with
  | constant value =>
    simp only [parseLogArg, Arg.indexArg, Arg.isConstant, if_true, Option.some.injEq,
      Prod.mk.injEq] at h
    exact h.2
  | dynamic value =>
    simp only [parseLogArg, Arg.indexArg, Arg.isConstant, Bool.false_eq_true, if_false,
      Option.bind_eq_bind, Option.bind_eq_some_iff, Prod.exists] at h
    obtain ⟨size, file₁, hsize, hread⟩ := h
    exact readSize_eq_some hsize hread

theorem prefix_of_parseLogArgs {infos : List IndexArg} {store args : List (FmtArgType × List UInt8)}
    {file file' : List UInt8} (h : parseLogArgs store infos file = some (args, file')) :
    store <+: args := by
  induction infos generalizing store file with
  | nil =>
    simp only [parseLogArgs, Option.some.injEq, Prod.mk.injEq] at h
    exact h.1 ▸ List.prefix_rfl
  | cons info infos ih =>
    simp only [parseLogArgs, Option.bind_eq_bind, Option.bind_eq_some_iff, Prod.exists] at h
    obtain ⟨value, file₁, -, hrest⟩ := h
    refine List.IsPrefix.trans ?_ (ih hrest)
    cases info.type with
    | none => exact List.prefix_rfl
    | some type => exact List.prefix_append _ _

theorem parseLogArgs_append (args : List Arg) (h : ∀ arg ∈ args, arg.value.Fits)
    (store : List (FmtArgType × List UInt8)) (rest : List UInt8) :
    parseLogArgs store (args.map Arg.indexArg) (args.flatMap Arg.logBytes ++ rest)
      = some (store ++ args.map Arg.typedValue, rest) := by
  induction args generalizing store with
  | nil => simp [parseLogArgs]
  | cons arg args ih =>
    have hhead := parseLogArg_append (h arg List.mem_cons_self)
      (args.flatMap Arg.logBytes ++ rest)
    have htail := ih (fun arg' harg' => h arg' (List.mem_cons_of_mem _ harg'))
    simp only [List.map_cons, List.flatMap_cons, List.append_assoc, parseLogArgs, hhead,
      Option.bind_eq_bind, Option.bind_some, htail]
    simp [Arg.indexArg, updateStore, Arg.typedValue]

theorem parseLogArgs_eq_some {args : List Arg} {store : List (FmtArgType × List UInt8)}
    {file file' : List UInt8}
    (h : parseLogArgs store (args.map Arg.indexArg) file
      = some (store ++ args.map Arg.typedValue, file')) :
    file = args.flatMap Arg.logBytes ++ file' := by
  induction args generalizing store file with
  | nil =>
    simp only [List.map_nil, parseLogArgs, Option.some.injEq, Prod.mk.injEq] at h
    exact h.2
  | cons arg args ih =>
    simp only [List.map_cons, parseLogArgs, Option.bind_eq_bind, Option.bind_eq_some_iff,
      Prod.exists] at h
    obtain ⟨value, file₁, hhead, htail⟩ := h
    have hstored : updateStore store arg.indexArg.type value
        = store ++ [(arg.value.getArgType, value)] := rfl
    rw [hstored] at htail
    -- the store only grows, so the value is the one that was written
    have hvalue : value = arg.value.bytes := by
      have hprefix := prefix_of_parseLogArgs htail
      rw [List.prefix_append_right_inj, List.cons_prefix_cons] at hprefix
      exact congrArg Prod.snd hprefix.1
    subst hvalue
    have htyped : store ++ arg.typedValue :: args.map Arg.typedValue
        = store ++ [(arg.value.getArgType, arg.value.bytes)] ++ args.map Arg.typedValue := by
      simp [Arg.typedValue]
    rw [htyped] at htail
    rw [parseLogArg_eq_some hhead, ih htail, List.flatMap_cons, List.append_assoc]

/-! ## Calls -/

/-- The call's arguments are those of the row, and its strings fit. -/
structure Call.Matches (c : Call) (entry : IndexEntry) : Prop where
  args : entry.args = c.args.map Arg.indexArg
  fits : ∀ arg ∈ c.args, arg.value.Fits

/-- The row of the call is in the table. -/
def Call.Described (table : List IndexEntry) (c : Call) : Prop :=
  ∃ entry, table[c.index]? = some entry ∧ c.Matches entry

/-- What the decoder should print for a call. -/
def Call.printed (table : List IndexEntry) (c : Call) : LogEntry :=
  ⟨c.index, (table[c.index]?.map IndexEntry.formatString).getD [], c.args.map Arg.typedValue⟩

theorem Call.argBytes_eq {c : Call} (h : ∀ arg ∈ c.args, arg.value.Fits) :
    c.argBytes = c.args.flatMap Arg.logBytes := by
  obtain ⟨index, args⟩ := c
  rw [Call.argBytes]
  induction args with
  | nil => rfl
  | cons arg args ih =>
    have hhead : arg.logWrites.flatten = arg.logBytes := by
      cases arg with
      | constant value => rfl
      | dynamic value => exact ArgValue.flatten_logWrites (h (.dynamic value) List.mem_cons_self)
    simp only [List.flatMap_cons, List.flatten_append, hhead,
      ih (fun arg' harg' => h arg' (List.mem_cons_of_mem _ harg'))]

section Table

variable {table : List IndexEntry} {index : Nat} {entry : IndexEntry}

theorem parseCalls_append (htable : table[index]? = some entry) (cs : List Call)
    (h : ∀ c ∈ cs, c.index = index ∧ c.Described table) (rest : List UInt8) :
    parseCalls index entry cs.length (cs.flatMap Call.argBytes ++ rest)
      = some (cs.map (Call.printed table), rest) := by
  induction cs with
  | nil => rfl
  | cons c cs ih =>
    obtain ⟨rfl, entry', hentry, hmatches⟩ := h c List.mem_cons_self
    obtain rfl : entry = entry' := Option.some.inj (htable.symm.trans hentry)
    have hargs := parseLogArgs_append c.args hmatches.fits [] (cs.flatMap Call.argBytes ++ rest)
    rw [← hmatches.args, ← Call.argBytes_eq hmatches.fits] at hargs
    have hrest := ih (fun c' hc' => h c' (List.mem_cons_of_mem _ hc'))
    simp only [List.length_cons, List.flatMap_cons, List.append_assoc, parseCalls, hargs,
      Option.bind_eq_bind, Option.bind_some, hrest, List.map_cons]
    simp [Call.printed, htable]

theorem parseCalls_eq_some (htable : table[index]? = some entry) {n : Nat} {cs : List Call}
    (h : ∀ c ∈ cs, c.Described table) {file file' : List UInt8}
    (hparse : parseCalls index entry n file = some (cs.map (Call.printed table), file')) :
    cs.length = n ∧ (∀ c ∈ cs, c.index = index) ∧ file = cs.flatMap Call.argBytes ++ file' := by
  induction n generalizing cs file with
  | zero =>
    simp only [parseCalls, Option.some.injEq, Prod.mk.injEq] at hparse
    obtain rfl : cs = [] := List.map_eq_nil_iff.1 hparse.1.symm
    exact ⟨rfl, by simp, hparse.2⟩
  | succ n ih =>
    simp only [parseCalls, Option.bind_eq_bind, Option.bind_eq_some_iff, Prod.exists,
      Option.some.injEq, Prod.mk.injEq] at hparse
    obtain ⟨args, file₁, hargs, outs, file₂, hrest, hcons, rfl⟩ := hparse
    cases cs with
    | nil => exact absurd hcons (by simp)
    | cons c cs =>
      rw [List.map_cons, List.cons_eq_cons] at hcons
      obtain ⟨hhead, rfl⟩ := hcons
      simp only [Call.printed, LogEntry.mk.injEq] at hhead
      obtain ⟨rfl, -, rfl⟩ := hhead
      obtain ⟨hlength, hindex, rfl⟩ := ih (fun c' hc' => h c' (List.mem_cons_of_mem _ hc')) hrest
      obtain ⟨entry', hentry, hmatches⟩ := h c List.mem_cons_self
      obtain rfl : entry = entry' := Option.some.inj (htable.symm.trans hentry)
      rw [hmatches.args] at hargs
      refine ⟨by simp [hlength], ?_, ?_⟩
      · intro c' hc'
        rcases List.mem_cons.1 hc' with rfl | hc'
        · rfl
        · exact hindex c' hc'
      · have hbytes := parseLogArgs_eq_some hargs
        rw [hbytes, ← Call.argBytes_eq hmatches.fits,
          List.flatMap_cons, List.append_assoc]

end Table

/-! ## Entries -/

/-- How many calls are behind an id, from the head of the runlength file. -/
def nextRun (index : Nat) : List (Nat × Nat) → Nat × List (Nat × Nat)
  | [] => (1, [])
  | r :: rs => if r.1 = index then (r.2, rs) else (1, r :: rs)

theorem nextRun_subset (index : Nat) (rs : List (Nat × Nat)) : (nextRun index rs).2 ⊆ rs := by
  cases rs with
  | nil => exact List.Subset.refl []
  | cons r rs =>
    rw [nextRun]
    split
    · exact List.subset_cons_self r rs
    · exact List.Subset.refl _

theorem readLittleEndian_headerBytes {index : Nat} (h : index < 2 ^ 16) (rest : List UInt8) :
    readLittleEndian 2 (headerBytes index ++ rest) = some (index, rest) :=
  readLittleEndian_append (by simpa using h) rest

theorem parseAndPrintLogEntry_eq (table : List IndexEntry) {index : Nat} (hindex : index < 2 ^ 16)
    {rs : List (Nat × Nat)} (hrs : ∀ r ∈ rs, ValidRecord r) (file : List UInt8) :
    parseAndPrintLogEntry table (headerBytes index ++ file) (rs.flatMap recordBytes)
      = (table[index]?).bind (fun entry =>
          (parseCalls index entry (nextRun index rs).1 file).bind (fun res =>
            some (res.1, res.2, (nextRun index rs).2.flatMap recordBytes))) := by
  have hheader := readLittleEndian_headerBytes hindex file
  cases rs with
  | nil =>
    simp only [parseAndPrintLogEntry, List.flatMap_nil, if_true, hheader, Option.bind_eq_bind,
      Option.bind_some, nextRun]
  | cons r rs =>
    have hvalid := hrs r List.mem_cons_self
    have hid (bs : List UInt8) : readLittleEndian 2 (toLittleEndian 2 r.1 ++ bs) = some (r.1, bs) :=
      readLittleEndian_append (by simpa using hvalid.1) bs
    have hlength (bs : List UInt8) :
        readLittleEndian 8 (toLittleEndian 8 r.2 ++ bs) = some (r.2, bs) :=
      readLittleEndian_append (by simpa using hvalid.2.2) bs
    have hne : recordBytes r ++ rs.flatMap recordBytes ≠ [] := by
      intro hnil
      have hten := congrArg List.length hnil
      simp at hten
    -- both ids are peeked at before either cursor moves
    simp only [parseAndPrintLogEntry, List.flatMap_cons, if_neg hne]
    simp only [recordBytes, List.append_assoc, hheader, hid, hlength, Option.bind_eq_bind,
      Option.bind_some, nextRun]
    by_cases heq : r.1 = index
    · subst heq
      simp only [if_true]
    · simp only [if_neg heq, List.flatMap_cons, recordBytes, List.append_assoc]

/-- All that can have happened in an entry that was read in bounds. -/
theorem parseAndPrintLogEntry_cases {table : List IndexEntry}
    {logfile rest runlengthfile runlengthfile' : List UInt8} {es : List LogEntry}
    (h : parseAndPrintLogEntry table logfile runlengthfile = some (es, rest, runlengthfile')) :
    ∃ index entry count body, logfile = headerBytes index ++ body ∧ index < 2 ^ 16 ∧
      table[index]? = some entry ∧ parseCalls index entry count body = some (es, rest) ∧
      ((count = 1 ∧ runlengthfile = [] ∧ runlengthfile' = []) ∨
        (count = 1 ∧ runlengthfile' = runlengthfile ∧ ∃ next rlRest, next < 2 ^ 16 ∧
          next ≠ index ∧ runlengthfile = headerBytes next ++ rlRest) ∨
        (count < 2 ^ 64 ∧ runlengthfile = recordBytes (index, count) ++ runlengthfile')) := by
  obtain ⟨⟨index, body⟩, hpeek⟩ : ∃ res, readLittleEndian 2 logfile = some res := by
    rw [parseAndPrintLogEntry] at h
    obtain ⟨res, hres, -⟩ := Option.bind_eq_some_iff.1 h
    exact ⟨res, hres⟩
  have hindex : index < 2 ^ 16 := readLittleEndian_lt hpeek
  have hlogfile : logfile = headerBytes index ++ body := readLittleEndian_eq_some hpeek
  by_cases hnil : runlengthfile = []
  · subst hnil
    simp only [parseAndPrintLogEntry, hpeek, if_true, Option.bind_eq_bind, Option.bind_some,
      Option.bind_eq_some_iff, Prod.exists, Option.some.injEq, Prod.mk.injEq] at h
    obtain ⟨entry, htable, es', rest', hcalls, rfl, rfl, rfl⟩ := h
    exact ⟨index, entry, 1, body, hlogfile, hindex, htable, hcalls, .inl ⟨rfl, rfl, rfl⟩⟩
  · obtain ⟨⟨next, rlBody⟩, hnext⟩ : ∃ res, readLittleEndian 2 runlengthfile = some res := by
      simp only [parseAndPrintLogEntry, hpeek, if_neg hnil, Option.bind_eq_bind,
        Option.bind_some] at h
      obtain ⟨res, hres, -⟩ := Option.bind_eq_some_iff.1 h
      exact ⟨res, hres⟩
    have hrunlengthfile : runlengthfile = headerBytes next ++ rlBody :=
      readLittleEndian_eq_some hnext
    by_cases heq : next = index
    · subst heq
      simp only [parseAndPrintLogEntry, hpeek, hnext, if_neg hnil, if_true, Option.bind_eq_bind,
        Option.bind_some, Option.bind_eq_some_iff, Prod.exists, Option.some.injEq,
        Prod.mk.injEq] at h
      obtain ⟨count, rlRest, hcount, entry, htable, es', rest', hcalls, rfl, rfl, rfl⟩ := h
      have hrecord : runlengthfile = recordBytes (next, count) ++ rlRest := by
        rw [hrunlengthfile, readLittleEndian_eq_some hcount, recordBytes, List.append_assoc]
        rfl
      exact ⟨next, entry, count, body, hlogfile, hindex, htable, hcalls,
        .inr (.inr ⟨readLittleEndian_lt hcount, hrecord⟩)⟩
    · simp only [parseAndPrintLogEntry, hpeek, hnext, if_neg hnil, if_neg heq, Option.bind_eq_bind,
        Option.bind_some, Option.bind_eq_some_iff, Prod.exists, Option.some.injEq,
        Prod.mk.injEq] at h
      obtain ⟨entry, htable, es', rest', hcalls, rfl, rfl, rfl⟩ := h
      exact ⟨index, entry, 1, body, hlogfile, hindex, htable, hcalls,
        .inr (.inl ⟨rfl, rfl, next, rlBody, readLittleEndian_lt hnext, heq, hrunlengthfile⟩)⟩

theorem parseAndPrintLogEntry_eq_some {table : List IndexEntry} {rs : List (Nat × Nat)}
    (hrs : ∀ r ∈ rs, ValidRecord r) {file file' rest : List UInt8} {outs : List LogEntry}
    (h : parseAndPrintLogEntry table file (rs.flatMap recordBytes) = some (outs, file', rest)) :
    ∃ index entry body, file = headerBytes index ++ body ∧ table[index]? = some entry ∧
      parseCalls index entry (nextRun index rs).1 body = some (outs, file') ∧
      rest = (nextRun index rs).2.flatMap recordBytes := by
  obtain ⟨⟨index, body⟩, hread⟩ : ∃ res, readLittleEndian 2 file = some res := by
    rw [parseAndPrintLogEntry] at h
    obtain ⟨res, hres, -⟩ := Option.bind_eq_some_iff.1 h
    exact ⟨res, hres⟩
  obtain rfl := readLittleEndian_eq_some hread
  have hindex : index < 2 ^ 16 := by simpa using readLittleEndian_lt hread
  change parseAndPrintLogEntry table (headerBytes index ++ body) _ = _ at h
  rw [parseAndPrintLogEntry_eq table hindex hrs] at h
  obtain ⟨entry, hentry, h⟩ := Option.bind_eq_some_iff.1 h
  obtain ⟨⟨outs', file''⟩, hcalls, h⟩ := Option.bind_eq_some_iff.1 h
  simp only [Option.some.injEq, Prod.mk.injEq] at h
  obtain ⟨rfl, rfl, rfl⟩ := h
  exact ⟨index, entry, body, rfl, hentry, hcalls, rfl⟩

/-! ## Pieces -/

/-- The calls of a piece can be read back: one id, at most as many as a record counts. -/
structure Readable (table : List IndexEntry) (p : List Call) : Prop where
  ne_nil : p ≠ []
  homogeneous : Homogeneous Call.index p
  described : ∀ c ∈ p, c.Described table
  index : ∀ c ∈ p, c.index < 2 ^ 16

theorem two_le_length_pieceBytes {p : List Call} (h : p ≠ []) : 2 ≤ (pieceBytes p).length := by
  cases p with
  | nil => exact absurd rfl h
  | cons c cs => simp

/-- One round of the loop. -/
theorem parseAndPrintLoop_succ {table : List IndexEntry} {fuel : Nat} {file rest : List UInt8}
    (h : file ≠ []) :
    parseAndPrintLoop table (fuel + 1) file rest
      = (parseAndPrintLogEntry table file rest).bind (fun res =>
          (parseAndPrintLoop table fuel res.2.1 res.2.2).bind (fun res' =>
            some (res.1 ++ res'.1, res'.2))) := by
  cases file with
  | nil => exact absurd rfl h
  | cons b bs => rfl

@[simp] theorem parseAndPrintLoop_nil (table : List IndexEntry) (fuel : Nat) (rest : List UInt8) :
    parseAndPrintLoop table fuel [] rest = some ([], rest) := by
  cases fuel <;> rfl

section Pieces

variable {table : List IndexEntry}

/-- The decoder reads a piece whose number of calls it knows. -/
theorem parseAndPrintLogEntry_append {p : List Call} (h : Readable table p)
    {rs rs' : List (Nat × Nat)} (hrs : ∀ r ∈ rs, ValidRecord r)
    (hnext : ∀ c ∈ p.head?, nextRun c.index rs = (p.length, rs')) (rest : List UInt8) :
    parseAndPrintLogEntry table (pieceBytes p ++ rest) (rs.flatMap recordBytes)
      = some (p.map (Call.printed table), rest, rs'.flatMap recordBytes) := by
  cases p with
  | nil => exact absurd rfl h.ne_nil
  | cons c cs =>
    obtain ⟨entry, hentry, -⟩ := h.described c List.mem_cons_self
    have hcalls := parseCalls_append hentry (c :: cs) (fun c' hc' =>
      ⟨h.homogeneous c' hc' c List.mem_cons_self, h.described c' hc'⟩) rest
    rw [pieceBytes_cons, List.append_assoc,
      parseAndPrintLogEntry_eq table (h.index c List.mem_cons_self) hrs, hentry, Option.bind_some,
      hnext c (by simp), hcalls, Option.bind_some]

/-- One round of the loop on a piece. -/
theorem parseAndPrintLoop_piece {p : List Call} (h : Readable table p)
    {rs rs' : List (Nat × Nat)} (hrs : ∀ r ∈ rs, ValidRecord r)
    (hnext : ∀ c ∈ p.head?, nextRun c.index rs = (p.length, rs')) (rest : List UInt8) (fuel : Nat) :
    parseAndPrintLoop table (fuel + 1) (pieceBytes p ++ rest) (rs.flatMap recordBytes)
      = (parseAndPrintLoop table fuel rest (rs'.flatMap recordBytes)).bind (fun res =>
          some (p.map (Call.printed table) ++ res.1, res.2)) := by
  have hne : pieceBytes p ++ rest ≠ [] := by
    intro hnil
    have hlength := two_le_length_pieceBytes h.ne_nil
    rw [(List.append_eq_nil_iff.1 hnil).1] at hlength
    exact absurd hlength (by simp)
  rw [parseAndPrintLoop_succ hne, parseAndPrintLogEntry_append h hrs hnext, Option.bind_some]

theorem nextRun_of_single {a : Call} {rs : List (Nat × Nat)}
    (h : ∀ r ∈ rs.head?, r.1 ≠ a.index) :
    ∀ c ∈ [a].head?, nextRun c.index rs = ([a].length, rs) := by
  intro c hc
  obtain rfl : a = c := by simpa using hc
  cases rs with
  | nil => rfl
  | cons r rs => rw [nextRun, if_neg (h r (by simp))]; rfl

theorem nextRun_of_long {a b : Call} (p : List Call) (rs : List (Nat × Nat)) :
    ∀ c ∈ (a :: b :: p).head?,
      nextRun c.index ((a.index, p.length + 2) :: rs) = ((a :: b :: p).length, rs) := by
  intro c hc
  obtain rfl : a = c := by simpa using hc
  rw [nextRun, if_pos rfl]
  rfl

/-- If the records can be followed through the pieces, the decoder returns their calls. -/
theorem parseAndPrintLoop_append {ps : List (List Call)} {rs left : List (Nat × Nat)}
    (hfollows : Follows Call.index ps rs left) (hrs : ∀ r ∈ rs, ValidRecord r)
    (h : ∀ p ∈ ps, Readable table p) {fuel : Nat}
    (hfuel : (ps.flatMap pieceBytes).length ≤ fuel) :
    parseAndPrintLoop table fuel (ps.flatMap pieceBytes) (rs.flatMap recordBytes)
      = some (ps.flatten.map (Call.printed table), left.flatMap recordBytes) := by
  induction hfollows generalizing fuel with
  | nil rs => simp
  | single a ps rs left hhead hfollows ih =>
    have hread := h [a] List.mem_cons_self
    have hpiece := two_le_length_pieceBytes hread.ne_nil
    rw [List.flatMap_cons, List.length_append] at hfuel
    obtain ⟨fuel, rfl⟩ : ∃ f, fuel = f + 1 := ⟨fuel - 1, by omega⟩
    have hfuel' : (ps.flatMap pieceBytes).length ≤ fuel := by omega
    have hnext := nextRun_of_single hhead
    have hrest := ih hrs (fun p hp => h p (List.mem_cons_of_mem _ hp)) hfuel'
    rw [List.flatMap_cons, parseAndPrintLoop_piece hread hrs hnext, hrest, Option.bind_some,
      List.flatten_cons, List.map_append]
  | run a b p ps rs left hfollows ih =>
    have hread := h (a :: b :: p) List.mem_cons_self
    have hpiece := two_le_length_pieceBytes hread.ne_nil
    rw [List.flatMap_cons, List.length_append] at hfuel
    obtain ⟨fuel, rfl⟩ : ∃ f, fuel = f + 1 := ⟨fuel - 1, by omega⟩
    have hfuel' : (ps.flatMap pieceBytes).length ≤ fuel := by omega
    have hnext := nextRun_of_long (a := a) (b := b) p rs
    have hrest := ih (fun r hr => hrs r (List.mem_cons_of_mem _ hr))
      (fun p hp => h p (List.mem_cons_of_mem _ hp)) hfuel'
    rw [List.flatMap_cons, parseAndPrintLoop_piece hread hrs hnext, hrest, Option.bind_some,
      List.flatten_cons, List.map_append]

/-! ## What a successful decoding says about the log -/

/-- The calls behind one id form a group of their own, and it takes its record if it needs one. -/
theorem follows_nextRun {index : Nat} {rs : List (Nat × Nat)} (hrs : ∀ r ∈ rs, ValidRecord r)
    {cs : List Call} (hlength : cs.length = (nextRun index rs).1)
    (hindex : ∀ c ∈ cs, c.index = index) {groups : List (List Call)} {left : List (Nat × Nat)}
    (hgroups : Follows Call.index groups (nextRun index rs).2 left) :
    cs ≠ [] ∧ Follows Call.index (cs :: groups) rs left := by
  have hsingle (hone : cs.length = 1) (hhead : ∀ r ∈ rs.head?, r.1 ≠ index)
      (hgroups : Follows Call.index groups rs left) :
      cs ≠ [] ∧ Follows Call.index (cs :: groups) rs left := by
    obtain ⟨c, rfl⟩ := List.length_eq_one_iff.1 hone
    refine ⟨by simp, .single c groups rs left ?_ hgroups⟩
    rwa [hindex c List.mem_cons_self]
  cases rs with
  | nil => exact hsingle hlength (by simp) hgroups
  | cons r rs =>
    by_cases heq : r.1 = index
    · rw [nextRun, if_pos heq] at hlength hgroups
      -- a record counts two calls or more
      have hlong : 1 < r.2 := (hrs r List.mem_cons_self).2.1
      rcases cs with _ | ⟨a, _ | ⟨b, cs⟩⟩
      · simp only [List.length_nil] at hlength
        omega
      · simp only [List.length_cons, List.length_nil] at hlength
        omega
      · have hrecord : r = (a.index, cs.length + 2) := by
          rw [hindex a List.mem_cons_self]
          exact Prod.ext heq hlength.symm
        rw [hrecord]
        exact ⟨by simp, .run a b cs groups rs left hgroups⟩
    · rw [nextRun, if_neg heq] at hlength hgroups
      exact hsingle hlength (by simpa using heq) hgroups

/-- A decoder that returned the calls `cs` has read them in groups of one id each, one record for
    every group of two or more. -/
theorem parseAndPrintLoop_eq_some {cs : List Call} (hdesc : ∀ c ∈ cs, c.Described table)
    {rs : List (Nat × Nat)} (hrs : ∀ r ∈ rs, ValidRecord r) {fuel : Nat} {file rest : List UInt8}
    (h : parseAndPrintLoop table fuel file (rs.flatMap recordBytes)
      = some (cs.map (Call.printed table), rest)) :
    ∃ groups left, groups.flatten = cs ∧ file = groups.flatMap pieceBytes ∧
      (∀ g ∈ groups, g ≠ [] ∧ Homogeneous Call.index g) ∧ Follows Call.index groups rs left := by
  induction fuel generalizing cs rs file with
  | zero =>
    cases file with
    | nil =>
      simp only [parseAndPrintLoop_nil, Option.some.injEq, Prod.mk.injEq] at h
      obtain rfl : cs = [] := List.map_eq_nil_iff.1 h.1.symm
      exact ⟨[], rs, rfl, rfl, by simp, .nil rs⟩
    | cons b bs => exact absurd h (by simp [parseAndPrintLoop])
  | succ fuel ih =>
    rcases eq_or_ne file [] with rfl | hne
    · simp only [parseAndPrintLoop_nil, Option.some.injEq, Prod.mk.injEq] at h
      obtain rfl : cs = [] := List.map_eq_nil_iff.1 h.1.symm
      exact ⟨[], rs, rfl, rfl, by simp, .nil rs⟩
    · rw [parseAndPrintLoop_succ hne] at h
      simp only [Option.bind_eq_some_iff, Prod.exists, Option.some.injEq, Prod.mk.injEq] at h
      obtain ⟨outs, file₁, rest₁, hentry, outs', rest', hloop, happend, rfl⟩ := h
      obtain ⟨index, entry, body, rfl, htable, hcalls, rfl⟩ :=
        parseAndPrintLogEntry_eq_some hrs hentry
      obtain ⟨cs₁, cs₂, rfl, rfl, rfl⟩ := List.map_eq_append_iff.1 happend.symm
      obtain ⟨hlength, hindex, rfl⟩ := parseCalls_eq_some htable
        (fun c hc => hdesc c (List.mem_append_left _ hc)) hcalls
      -- the records left for the rest are among those there were
      have hrs' : ∀ r ∈ (nextRun index rs).2, ValidRecord r :=
        fun r hr => hrs r (nextRun_subset index rs hr)
      obtain ⟨groups, left, rfl, rfl, hgroups, htail⟩ := ih
        (fun c hc => hdesc c (List.mem_append_right _ hc)) hrs' hloop
      obtain ⟨hcs₁, hcons⟩ := follows_nextRun hrs hlength hindex htail
      refine ⟨cs₁ :: groups, left, rfl, ?_, ?_, hcons⟩
      · obtain ⟨c, cs₁, rfl⟩ := List.exists_cons_of_ne_nil hcs₁
        show _ = pieceBytes (c :: cs₁) ++ groups.flatMap pieceBytes
        rw [pieceBytes_cons, hindex c List.mem_cons_self, List.append_assoc]
      · intro g hg
        rcases List.mem_cons.1 hg with rfl | hg
        · exact ⟨hcs₁, fun a ha b hb => (hindex a ha).trans (hindex b hb).symm⟩
        · exact hgroups g hg

/-- Beyond the one call behind each id there are as many calls as the taken records stand for. -/
theorem length_of_follows {groups : List (List Call)} {rs left : List (Nat × Nat)}
    (h : Follows Call.index groups rs left) :
    groups.flatten.length + surplus left = groups.length + surplus rs := by
  induction h with
  | nil rs => rfl
  | single a ps rs left _ _ ih =>
    simp only [List.flatten_cons, List.length_append, List.length_cons, List.length_nil]
    omega
  | run a b p ps rs left _ ih =>
    simp only [List.flatten_cons, List.length_append, List.length_cons, surplus, List.map_cons,
      List.sum_cons] at ih ⊢
    omega

theorem length_flatMap_pieceBytes {groups : List (List Call)} (h : ∀ g ∈ groups, g ≠ []) :
    (groups.flatMap pieceBytes).length
      = 2 * groups.length + (groups.flatten.flatMap Call.argBytes).length := by
  induction groups with
  | nil => rfl
  | cons g groups ih =>
    obtain ⟨c, cs, rfl⟩ := List.exists_cons_of_ne_nil (h g List.mem_cons_self)
    have hrest := ih (fun g' hg' => h g' (List.mem_cons_of_mem _ hg'))
    simp only [List.flatMap_cons, pieceBytes_cons, List.length_append, length_headerBytes, hrest,
      List.length_cons, List.flatten_cons, List.flatMap_append]
    omega

theorem validRecord_of_mem_records {ps : List (List Call)} (h : ∀ p ∈ ps, Readable table p)
    (hshort : ∀ p ∈ ps, p.length < 2 ^ 64) : ∀ r ∈ records Call.index ps, ValidRecord r := by
  induction ps with
  | nil => simp [records]
  | cons p ps ih =>
    have hrest := ih (fun p hp => h p (List.mem_cons_of_mem _ hp))
      (fun p hp => hshort p (List.mem_cons_of_mem _ hp))
    have hhead := h p List.mem_cons_self
    have hlength := hshort p List.mem_cons_self
    rcases p with _ | ⟨a, _ | ⟨b, p⟩⟩
    · exact hrest
    · exact hrest
    · intro r hr
      rcases List.mem_cons.1 hr with rfl | hr
      · exact ⟨hhead.index a List.mem_cons_self, by simp, by simpa using hlength⟩
      · exact hrest r hr

/-- Once the head piece has been read as it was written, the rest has been, too. -/
theorem parseAndPrintLoop_piece_eq_some {p : List Call} (h : Readable table p)
    {rs rs' : List (Nat × Nat)} (hrs : ∀ r ∈ rs, ValidRecord r)
    (hnext : ∀ c ∈ p.head?, nextRun c.index rs = (p.length, rs')) {file rest : List UInt8}
    {cs : List Call} {fuel : Nat}
    (hloop : parseAndPrintLoop table (fuel + 1) (pieceBytes p ++ file) (rs.flatMap recordBytes)
      = some ((p ++ cs).map (Call.printed table), rest)) :
    parseAndPrintLoop table fuel file (rs'.flatMap recordBytes)
      = some (cs.map (Call.printed table), rest) := by
  rw [parseAndPrintLoop_piece h hrs hnext] at hloop
  simp only [Option.bind_eq_some_iff, Prod.exists, Option.some.injEq, Prod.mk.injEq] at hloop
  obtain ⟨outs, rest', hrest, happend, rfl⟩ := hloop
  rw [List.map_append, List.append_cancel_left_eq] at happend
  rw [hrest, happend]

/-- If a record of two or more calls is taken for the first call, the second one has its id. -/
theorem parseAndPrintLoop_second {a : Call} {cs : List Call}
    (hdesc : ∀ c ∈ a :: cs, c.Described table) (hindex : a.index < 2 ^ 16)
    {n : Nat} {rs : List (Nat × Nat)} (hrs : ∀ r ∈ (a.index, n) :: rs, ValidRecord r)
    {body rest : List UInt8} {fuel : Nat}
    (hloop : parseAndPrintLoop table (fuel + 1) (headerBytes a.index ++ body)
        (((a.index, n) :: rs).flatMap recordBytes)
      = some ((a :: cs).map (Call.printed table), rest)) :
    ∃ b ∈ cs.head?, b.index = a.index := by
  have hne : headerBytes a.index ++ body ≠ [] := by
    intro hnil
    exact absurd (congrArg List.length hnil) (by simp)
  rw [parseAndPrintLoop_succ hne, parseAndPrintLogEntry_eq table hindex hrs, nextRun,
    if_pos rfl] at hloop
  simp only [Option.bind_eq_some_iff, Prod.exists, Option.some.injEq, Prod.mk.injEq] at hloop
  obtain ⟨outs, file₁, rest₁, ⟨entry, htable, outs₁, file₂, hcalls, rfl, rfl, rfl⟩, outs', rest',
    -, happend, rfl⟩ := hloop
  obtain ⟨cs₁, cs₂, hsplit, rfl, rfl⟩ := List.map_eq_append_iff.1 happend.symm
  have hdesc₁ : ∀ c ∈ cs₁, c.Described table := by
    intro c hc
    exact hdesc c (by rw [hsplit]; exact List.mem_append_left _ hc)
  obtain ⟨hlength, hsame, -⟩ := parseCalls_eq_some htable hdesc₁ hcalls
  have hlong : 1 < n := (hrs _ List.mem_cons_self).2.1
  rcases cs₁ with _ | ⟨a', _ | ⟨b, cs₁⟩⟩
  · simp only [List.length_nil] at hlength
    omega
  · simp only [List.length_cons, List.length_nil] at hlength
    omega
  · obtain ⟨-, rfl⟩ := List.cons_eq_cons.1 hsplit
    exact ⟨b, by simp, hsame b (by simp)⟩

/-- If the decoder gets its calls back, the next record is not of the id of a single call: taken for
    it, it would claim the call behind, which has another id. -/
theorem index_ne_of_head_record {a : Call} {ps : List (List Call)}
    (h : ∀ p ∈ [a] :: ps, Readable table p)
    (hneighbour : ∀ q ∈ ps.head?, keyOf Call.index [a] ≠ keyOf Call.index q)
    (hrs : ∀ r ∈ records Call.index ps, ValidRecord r) {fuel : Nat} {body rest : List UInt8}
    (hloop : parseAndPrintLoop table (fuel + 1) (headerBytes a.index ++ body)
        ((records Call.index ps).flatMap recordBytes)
      = some ((a :: ps.flatten).map (Call.printed table), rest)) :
    ∀ r ∈ (records Call.index ps).head?, r.1 ≠ a.index := by
  rintro ⟨i, n⟩ hr rfl
  obtain ⟨rs, hcons⟩ : ∃ rs, records Call.index ps = (a.index, n) :: rs :=
    List.head?_eq_some_iff.1 hr
  rw [hcons] at hrs hloop
  have hdesc : ∀ c ∈ a :: ps.flatten, c.Described table := by
    intro c hc
    obtain ⟨q, hq, hcq⟩ : ∃ q ∈ [a] :: ps, c ∈ q := by
      rw [← List.mem_flatten]
      exact hc
    exact (h q hq).described c hcq
  have hindex := (h [a] List.mem_cons_self).index a List.mem_cons_self
  obtain ⟨b, hb, hba⟩ := parseAndPrintLoop_second hdesc hindex hrs hloop
  rcases ps with _ | ⟨q, ps⟩
  · exact absurd hb (by simp)
  · rcases q with _ | ⟨b', q⟩
    · exact (h [] (by simp)).ne_nil rfl
    · obtain rfl : b' = b := by simpa using hb
      exact hneighbour (b' :: q) (by simp) (by simp [keyOf, hba])

/-- If the decoder gets its calls back from the pieces, then no single call was mistaken for the
    start of a later run: its neighbour has another id. -/
theorem unambiguous_of_parseAndPrintLoop {ps : List (List Call)} (h : ∀ p ∈ ps, Readable table p)
    (hshort : ∀ p ∈ ps, p.length < 2 ^ 64)
    (hchain : ps.IsChain (fun p q => p.length = 1 → keyOf Call.index p ≠ keyOf Call.index q))
    {fuel : Nat} {rest : List UInt8}
    (hloop : parseAndPrintLoop table fuel (ps.flatMap pieceBytes)
        ((records Call.index ps).flatMap recordBytes)
      = some (ps.flatten.map (Call.printed table), rest)) :
    Unambiguous (ps.map (List.map Call.index)) := by
  induction ps generalizing fuel with
  | nil =>
    intro pre k post hnil
    exact absurd hnil (by simp)
  | cons p ps ih =>
    have hread := h p List.mem_cons_self
    have hps : ∀ q ∈ ps, Readable table q := fun q hq => h q (List.mem_cons_of_mem _ hq)
    have hpsShort : ∀ q ∈ ps, q.length < 2 ^ 64 := fun q hq => hshort q (List.mem_cons_of_mem _ hq)
    obtain ⟨hneighbour, hchain'⟩ := List.isChain_cons.1 hchain
    have hrs := validRecord_of_mem_records hps hpsShort
    obtain ⟨fuel, rfl⟩ : ∃ f, fuel = f + 1 := by
      cases fuel with
      | zero =>
        have hlength := two_le_length_pieceBytes hread.ne_nil
        obtain ⟨b, bs, hcons⟩ := List.exists_cons_of_length_pos (l := pieceBytes p) (by omega)
        rw [List.flatMap_cons, hcons] at hloop
        exact absurd hloop (by simp [parseAndPrintLoop])
      | succ f => exact ⟨f, rfl⟩
    rw [List.flatMap_cons, List.flatten_cons] at hloop
    rw [List.map_cons, unambiguous_cons]
    rcases p with _ | ⟨a, _ | ⟨b, p⟩⟩
    · exact absurd rfl hread.ne_nil
    · -- a single call has no record of its own: the next record belongs to a later piece
      change parseAndPrintLoop table (fuel + 1) _ ((records Call.index ps).flatMap recordBytes) = _
        at hloop
      have hhead : ∀ r ∈ (records Call.index ps).head?, r.1 ≠ a.index := by
        rw [pieceBytes_cons, List.append_assoc, List.singleton_append] at hloop
        exact index_ne_of_head_record h (fun q hq => hneighbour q hq rfl) hrs hloop
      have hnext := nextRun_of_single hhead
      refine ⟨?_, ih hps hpsShort hchain' (parseAndPrintLoop_piece_eq_some hread hrs hnext hloop)⟩
      intro k hk r hr hkr
      obtain rfl : a.index = k := by simpa using hk
      have hfirst := head?_records Call.index ps
      rw [hr, Option.bind_some, hkr, Option.map_eq_some_iff] at hfirst
      obtain ⟨rec, hrec, heq⟩ := hfirst
      exact hhead rec hrec heq
    · -- a longer piece takes its record, which is the first one
      have hrest := parseAndPrintLoop_piece_eq_some hread (validRecord_of_mem_records h hshort)
        (nextRun_of_long p _) hloop
      exact ⟨fun k hk => absurd hk (by simp), ih hps hpsShort hchain' hrest⟩

end Pieces

/-! ## Every printed entry belongs to a row -/

/-- The entry has the text of its row, and its arguments were read as the row says. -/
def LogEntry.ReadWith (table : List IndexEntry) (e : LogEntry) : Prop :=
  ∃ entry file file', table[e.index]? = some entry ∧ e.formatString = entry.formatString ∧
    parseLogArgs [] entry.args file = some (e.args, file')

theorem readWith_of_parseCalls {table : List IndexEntry} {index n : Nat} {entry : IndexEntry}
    (htable : table[index]? = some entry) {file file' : List UInt8} {es : List LogEntry}
    (h : parseCalls index entry n file = some (es, file')) : ∀ e ∈ es, e.ReadWith table := by
  induction n generalizing file file' es with
  | zero =>
    obtain ⟨rfl, -⟩ := Prod.mk.inj (Option.some.inj h)
    simp
  | succ n ih =>
    simp only [parseCalls, Option.bind_eq_bind, Option.bind_eq_some_iff, Prod.exists,
      Option.some.injEq, Prod.mk.injEq] at h
    obtain ⟨args, file₁, hargs, es', file₂, hrest, rfl, -⟩ := h
    intro e he
    rcases List.mem_cons.1 he with rfl | he
    · exact ⟨entry, file, file₁, htable, rfl, hargs⟩
    · exact ih hrest e he

theorem readWith_of_parseAndPrintLoop {table : List IndexEntry} {fuel : Nat}
    {file runlengthfile rest : List UInt8} {es : List LogEntry}
    (h : parseAndPrintLoop table fuel file runlengthfile = some (es, rest)) :
    ∀ e ∈ es, e.ReadWith table := by
  induction fuel generalizing file runlengthfile rest es with
  | zero =>
    cases file with
    | nil =>
      obtain ⟨rfl, -⟩ := Prod.mk.inj (Option.some.inj h)
      simp
    | cons b bs => exact absurd h (by simp [parseAndPrintLoop])
  | succ fuel ih =>
    cases file with
    | nil =>
      obtain ⟨rfl, -⟩ := Prod.mk.inj (Option.some.inj h)
      simp
    | cons b bs =>
      simp only [parseAndPrintLoop, Option.bind_eq_bind, Option.bind_eq_some_iff, Prod.exists,
        Option.some.injEq, Prod.mk.injEq] at h
      obtain ⟨es₁, file₁, rest₁, hentry, es₂, rest₂, hloop, rfl, -⟩ := h
      obtain ⟨index, entry, count, body, -, -, htable, hcalls, -⟩ :=
        parseAndPrintLogEntry_cases hentry
      intro e he
      rcases List.mem_append.1 he with he | he
      · exact readWith_of_parseCalls htable hcalls e he
      · exact ih hloop e he

/-- The entry has the text and the argument types of its row. -/
def LogEntry.OfRow (table : List IndexEntry) (e : LogEntry) : Prop :=
  ∃ entry, table[e.index]? = some entry ∧ e.formatString = entry.formatString ∧
    e.args.map Prod.fst = entry.args.filterMap IndexArg.type

theorem map_fst_updateStore (store : List (FmtArgType × List UInt8)) (type : Option FmtArgType)
    (value : List UInt8) :
    (updateStore store type value).map Prod.fst = store.map Prod.fst ++ type.toList := by
  cases type <;> simp [updateStore]

theorem map_fst_of_parseLogArgs {infos : List IndexArg}
    {store args : List (FmtArgType × List UInt8)} {file file' : List UInt8}
    (h : parseLogArgs store infos file = some (args, file')) :
    args.map Prod.fst = store.map Prod.fst ++ infos.filterMap IndexArg.type := by
  induction infos generalizing store file with
  | nil =>
    obtain ⟨rfl, -⟩ := Prod.mk.inj (Option.some.inj h)
    simp
  | cons info infos ih =>
    simp only [parseLogArgs, Option.bind_eq_bind, Option.bind_eq_some_iff, Prod.exists] at h
    obtain ⟨value, file₁, -, hrest⟩ := h
    rw [ih hrest, map_fst_updateStore, List.append_assoc]
    cases htype : info.type <;> simp [htype]

theorem LogEntry.ReadWith.ofRow {table : List IndexEntry} {e : LogEntry} (h : e.ReadWith table) :
    e.OfRow table := by
  obtain ⟨entry, file, file', htable, hformat, hargs⟩ := h
  exact ⟨entry, htable, hformat, by simpa using map_fst_of_parseLogArgs hargs⟩

/-- A call that is printed with the values it has, by a row with constants in the same places, has
    the constants of the row and strings that fit. -/
theorem indexArg_eq_of_parseLogArgs {args regArgs : List Arg}
    (hconstants : args.map Arg.isConstant = regArgs.map Arg.isConstant)
    (hfits : ∀ arg ∈ regArgs, arg.isConstant = true → arg.value.Fits)
    {store : List (FmtArgType × List UInt8)} {file file' : List UInt8}
    (h : parseLogArgs store (regArgs.map Arg.indexArg) file
      = some (store ++ args.map Arg.typedValue, file')) :
    args.map Arg.indexArg = regArgs.map Arg.indexArg ∧ ∀ arg ∈ args, arg.value.Fits := by
  induction regArgs generalizing args store file with
  | nil =>
    obtain rfl := List.map_eq_nil_iff.1 hconstants
    exact ⟨rfl, by simp⟩
  | cons reg regArgs ih =>
    obtain ⟨arg, args, rfl, hconstant, hconstants'⟩ := List.map_eq_cons_iff.1 hconstants
    simp only [List.map_cons, parseLogArgs, Option.bind_eq_bind, Option.bind_eq_some_iff,
      Prod.exists] at h
    obtain ⟨value, file₁, hhead, htail⟩ := h
    have hstored : updateStore store reg.indexArg.type value
        = store ++ [(reg.value.getArgType, value)] := rfl
    rw [hstored] at htail
    -- the store only grows, so the pair just read is the first of the call's values
    have hvalue : (reg.value.getArgType, value) = arg.typedValue := by
      have hprefix := prefix_of_parseLogArgs htail
      rw [List.prefix_append_right_inj, List.cons_prefix_cons] at hprefix
      exact hprefix.1
    have hsplit : store ++ arg.typedValue :: args.map Arg.typedValue
        = store ++ [(reg.value.getArgType, value)] ++ args.map Arg.typedValue := by
      rw [hvalue, List.append_assoc, List.singleton_append]
    rw [hsplit] at htail
    obtain ⟨hrest, hrestFits⟩ := ih hconstants'
      (fun arg' harg' => hfits arg' (List.mem_cons_of_mem _ harg')) htail
    obtain ⟨htype, rfl⟩ := Prod.mk.inj hvalue
    have hhere : arg.indexArg = reg.indexArg ∧ arg.value.Fits := by
      cases reg with
      | constant regValue =>
        have hbytes : regValue.bytes = arg.value.bytes :=
          congrArg Prod.fst (Option.some.inj hhead)
        have hregFits := (ArgValue.fits_iff _).1 (hfits (.constant regValue) List.mem_cons_self rfl)
        refine ⟨?_, (ArgValue.fits_iff _).2 (hbytes ▸ hregFits)⟩
        rw [Arg.indexArg, Arg.indexArg, hconstant, ← hbytes, htype]
        rfl
      | dynamic regValue =>
        simp only [parseLogArg, Arg.indexArg, Arg.isConstant, Bool.false_eq_true, if_false,
          Option.bind_eq_bind, Option.bind_eq_some_iff, Prod.exists] at hhead
        obtain ⟨size, file₂, hsize, hread⟩ := hhead
        refine ⟨?_, (ArgValue.fits_iff _).2 ((readBytes_eq_some.1 hread).2 ▸ readSize_le hsize)⟩
        rw [Arg.indexArg, Arg.indexArg, hconstant, htype]
        rfl
    rw [List.map_cons, List.map_cons, hhere.1, hrest]
    refine ⟨rfl, fun arg' harg' => ?_⟩
    rcases List.mem_cons.1 harg' with rfl | harg'
    · exact hhere.2
    · exact hrestFits arg' harg'

end BinaryLog
