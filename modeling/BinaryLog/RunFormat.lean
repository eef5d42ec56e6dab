import BinaryLog.Streams

set_option autoImplicit false

/-! # What the run-length encoder writes

The calls of a run, with a mark for every flush between two of them, are cut into pieces: maximal
runs of one id, cut once more by a flush that comes after two or more calls of the run. This module
compares the streams with the pieces. `Legible` says that the encoder treats every piece as a piece
of its own: the id it keeps over a flush does not swallow a header and the run length does not wrap.
Then the log is the pieces one after the other, each behind its id, and the records are those of the
pieces of two or more calls (`flatten_entries`, `emitted_eq_records`).

Headers and recorded lengths add up to the number of calls or fall short of it, and exactly in
legible runs they do not (`headerCount_add_le`, `legible_of_headerCount`). -/

namespace BinaryLog

open Bytes Runs

/-! ## The calls of a run -/

/-- The `log` calls of a run of a logger, with a mark for every flush. -/
def callEvents : List Op → List (Event Call)
  | [] => []
  | .logIndex _ _ :: ops => callEvents ops
  | .log pos args :: ops => .item ⟨pos % 2 ^ 16, args⟩ :: callEvents ops
  | .flush :: ops => .mark :: callEvents ops

/-- The `log` calls of a run of a logger. -/
def calls (ops : List Op) : List Call := items (callEvents ops)

theorem callEvents_append (ops ops' : List Op) :
    callEvents (ops ++ ops') = callEvents ops ++ callEvents ops' := by
  induction ops with
  | nil => rfl
  | cons op ops ih => cases op <;> simp [callEvents, ih]

theorem calls_append (ops ops' : List Op) : calls (ops ++ ops') = calls ops ++ calls ops' := by
  rw [calls, callEvents_append, items_append]
  rfl

theorem index_lt_of_mem_calls {ops : List Op} {c : Call} (h : c ∈ calls ops) :
    c.index < 2 ^ 16 := by
  induction ops with
  | nil => exact absurd h List.not_mem_nil
  | cons op ops ih =>
    cases op with
    | logIndex formatString args => exact ih h
    | log pos args =>
      rcases List.mem_cons.1 h with rfl | h
      · exact Nat.mod_lt _ (by decide)
      · exact ih h
    | flush => exact ih h

/-- Without a flush between the calls there are no marks. -/
theorem callEvents_of_noFlush {ops : List Op} (h : Op.flush ∉ ops) :
    callEvents ops = (calls ops).map .item := by
  induction ops with
  | nil => rfl
  | cons op ops ih =>
    have hrest := ih (fun hmem => h (List.mem_cons_of_mem _ hmem))
    cases op with
    | logIndex formatString args => exact hrest
    | log pos args =>
      rw [callEvents, hrest]
      rfl
    | flush => exact absurd List.mem_cons_self h

/-! ## Entries and records -/

/-- The entries of the log stream, one for each call. -/
def entries : RunState → List (Event Call) → List (List UInt8)
  | _, [] => []
  | run, .item c :: es => run.entryBytes c :: entries (run.next c.index) es
  | run, .mark :: es => entries run.reset es

/-- The records written on the way. -/
def emitted : RunState → List (Event Call) → List (Nat × Nat)
  | _, [] => []
  | run, .item c :: es => run.closing c.index ++ emitted (run.next c.index) es
  | run, .mark :: es => run.pending ++ emitted run.reset es

/-- The encoder's state at the end. -/
def finalRun : RunState → List (Event Call) → RunState
  | run, [] => run
  | run, .item c :: es => finalRun (run.next c.index) es
  | run, .mark :: es => finalRun run.reset es

theorem entries_append (run : RunState) (es es' : List (Event Call)) :
    entries run (es ++ es') = entries run es ++ entries (finalRun run es) es' := by
  induction es generalizing run with
  | nil => rfl
  | cons e es ih => cases e <;> simp [entries, finalRun, ih]

theorem emitted_append (run : RunState) (es es' : List (Event Call)) :
    emitted run (es ++ es') = emitted run es ++ emitted (finalRun run es) es' := by
  induction es generalizing run with
  | nil => rfl
  | cons e es ih => cases e <;> simp [emitted, finalRun, ih]

theorem finalRun_append (run : RunState) (es es' : List (Event Call)) :
    finalRun run (es ++ es') = finalRun (finalRun run es) es' := by
  induction es generalizing run with
  | nil => rfl
  | cons e es ih => cases e <;> simp [finalRun, ih]

theorem Streams.log_runOps (s : Streams) (ops : List Op) :
    (s.runOps ops).log = s.log ++ (entries s.run (callEvents ops)).flatten := by
  induction ops generalizing s with
  | nil => simp [callEvents, entries]
  | cons op ops ih =>
    rw [runOps_cons, ih]
    cases op with
    | logIndex formatString args => rfl
    | log pos args =>
      simp [step, packIndex, appendLog, callEvents, entries, RunState.entryBytes]
    | flush => rfl

theorem Streams.runlength_runOps (s : Streams) (ops : List Op) :
    (s.runOps ops).runlength
      = s.runlength ++ (emitted s.run (callEvents ops)).flatMap recordBytes := by
  induction ops generalizing s with
  | nil => simp [callEvents, emitted]
  | cons op ops ih =>
    rw [runOps_cons, ih]
    cases op with
    | logIndex formatString args => rfl
    | log pos args => simp [step, packIndex, appendLog, callEvents, emitted]
    | flush => simp [step, close, callEvents, emitted]

theorem Streams.run_runOps (s : Streams) (ops : List Op) :
    (s.runOps ops).run = finalRun s.run (callEvents ops) := by
  induction ops generalizing s with
  | nil => rfl
  | cons op ops ih =>
    rw [runOps_cons, ih]
    cases op <;> rfl

/-! ## Legible runs -/

/-- A header is suppressed only inside an open run, and the run length does not wrap. -/
def Legible : RunState → List (Event Call) → Prop
  | _, [] => True
  | run, .item c :: es =>
      (run.Suppresses c.index → 1 ≤ run.currentRunlength ∧ run.currentRunlength + 1 < 2 ^ 64) ∧
        Legible (run.next c.index) es
  | run, .mark :: es => Legible run.reset es

/-- The pieces the log is cut into. -/
def pieces (es : List (Event Call)) : List (List Call) := cut Call.index [] es

theorem flatten_pieces (es : List (Event Call)) : (pieces es).flatten = items es := by
  rw [pieces, flatten_cut, List.nil_append]

theorem nil_notMem_pieces (es : List (Event Call)) : [] ∉ pieces es :=
  nil_notMem_cut Call.index [] es

/-- A piece in the log, call by call: its id in front of the first one, then the arguments. -/
def pieceEntries : List Call → List (List UInt8)
  | [] => []
  | c :: cs => (headerBytes c.index ++ c.argBytes) :: cs.map Call.argBytes

/-- The bytes of a piece in the log. -/
def pieceBytes (p : List Call) : List UInt8 := (pieceEntries p).flatten

@[simp] theorem pieceBytes_cons (c : Call) (cs : List Call) :
    pieceBytes (c :: cs) = headerBytes c.index ++ (c :: cs).flatMap Call.argBytes := by
  simp [pieceBytes, pieceEntries, List.flatMap_def]

@[simp] theorem length_pieceEntries (p : List Call) : (pieceEntries p).length = p.length := by
  cases p <;> simp [pieceEntries]

theorem flatten_flatMap_pieceEntries (ps : List (List Call)) :
    (ps.flatMap pieceEntries).flatten = ps.flatMap pieceBytes := by
  induction ps with
  | nil => rfl
  | cons p ps ih => simp [ih, pieceBytes]

/-- `cs` are the calls of the open run of the encoder. -/
structure IsOpen (cs : List Call) (run : RunState) : Prop where
  length : run.currentRunlength = cs.length
  index : ∀ c ∈ cs.head?, run.runlengthIndex = c.index

theorem IsOpen.initial : IsOpen [] .initial := ⟨rfl, by simp⟩

theorem IsOpen.single (c : Call) : IsOpen [c] ⟨c.index, 1⟩ := ⟨rfl, by simp⟩

/-- A run goes on with its own id and with no other. -/
theorem IsOpen.suppresses_iff {a c : Call} {cs : List Call} {run : RunState}
    (h : IsOpen (a :: cs) run) : run.Suppresses c.index ↔ a.index = c.index := by
  have hindex : run.runlengthIndex = a.index := h.index a (by simp)
  have hlength : run.currentRunlength ≠ 0 := by rw [h.length]; simp
  rw [RunState.Suppresses, hindex]
  split
  · next hzero => exact ⟨fun _ => hzero.1.trans hzero.2.symm, fun _ => hlength⟩
  · exact Iff.rfl

/-- With no run open, a header is swallowed after a flush that closed a run of the same id. -/
theorem IsOpen.suppresses_iff_of_nil {run : RunState} (h : IsOpen [] run) (index : Nat) :
    run.Suppresses index ↔ run.runlengthIndex = index ∧ index ≠ 0 := by
  have hzero : run.currentRunlength = 0 := h.length
  rw [RunState.Suppresses]
  split
  · next hboth => simp [hzero, hboth.2]
  · next hboth => omega

theorem IsOpen.not_suppresses_of_nil {run : RunState} {index : Nat} (h : IsOpen [] run)
    (hlegible : run.Suppresses index → 1 ≤ run.currentRunlength) : ¬ run.Suppresses index := by
  intro hsup
  have hpos := hlegible hsup
  rw [h.length] at hpos
  exact absurd hpos (by simp)

theorem IsOpen.keyOf_eq {cs : List Call} {run : RunState} (h : IsOpen cs run) (hne : cs ≠ []) :
    keyOf Call.index cs = some run.runlengthIndex := by
  cases cs with
  | nil => exact absurd rfl hne
  | cons a cs =>
    rw [h.index a (by simp)]
    rfl

theorem IsOpen.next_of_suppresses {a c : Call} {cs : List Call} {run : RunState}
    (h : IsOpen (a :: cs) run) (hsup : run.Suppresses c.index)
    (hlength : run.currentRunlength + 1 < 2 ^ 64) :
    IsOpen (a :: cs ++ [c]) (run.next c.index) := by
  rw [RunState.next, if_pos hsup]
  refine ⟨?_, ?_⟩
  · rw [RunState.increment, List.length_append, ← h.length]
    exact Nat.mod_eq_of_lt hlength
  · intro b hb
    exact h.index b hb

theorem IsOpen.next_of_not_suppresses {c : Call} {run : RunState}
    (hsup : ¬ run.Suppresses c.index) : IsOpen [c] (run.next c.index) := by
  rw [RunState.next, if_neg hsup]
  exact IsOpen.single c

theorem IsOpen.reset_of_long {cs : List Call} {run : RunState} (h : IsOpen cs run)
    (hlong : 1 < cs.length) : IsOpen [] run.reset := by
  rw [RunState.reset, if_pos (by rw [h.length]; exact hlong)]
  exact ⟨rfl, by simp⟩

theorem IsOpen.reset_of_short {cs : List Call} {run : RunState} (h : IsOpen cs run)
    (hshort : ¬ 1 < cs.length) : run.reset = run := by
  rw [RunState.reset, if_neg (by rw [h.length]; exact hshort)]

/-- The record of the open run is the record of its calls. -/
theorem IsOpen.pending {cs : List Call} {run : RunState} (h : IsOpen cs run) :
    run.pending = records Call.index [cs] := by
  rw [RunState.pending, h.length]
  rcases cs with _ | ⟨a, _ | ⟨b, cs⟩⟩
  · rfl
  · rfl
  · have hindex : run.runlengthIndex = a.index := h.index a (by simp)
    simp [records, hindex]

theorem pieceEntries_concat (a c : Call) (cs : List Call) :
    pieceEntries (a :: cs ++ [c]) = pieceEntries (a :: cs) ++ [c.argBytes] := by
  simp [pieceEntries]

/-- In a legible run the log is the pieces, one after the other. The induction carries the calls of
    the open run, which are already in the log. -/
theorem entries_of_isOpen {cs : List Call} {run : RunState} {es : List (Event Call)}
    (hopen : IsOpen cs run) (h : Legible run es) :
    pieceEntries cs ++ entries run es = (cut Call.index cs es).flatMap pieceEntries := by
  induction es generalizing cs run with
  | nil => cases cs <;> simp [entries, pieceEntries]
  | cons e es ih =>
    cases e with
    | mark =>
      rw [cut_mark, entries]
      split
      · next hlong =>
        rw [List.flatMap_cons, ← ih (hopen.reset_of_long hlong) h]
        rfl
      · next hshort =>
        rw [Legible, hopen.reset_of_short hshort] at h
        rw [hopen.reset_of_short hshort]
        exact ih hopen h
    | item c =>
      obtain ⟨hsuppress, hrest⟩ := h
      cases cs with
      | nil =>
        have hwritten := hopen.not_suppresses_of_nil (fun hsup => (hsuppress hsup).1)
        rw [cut_nil_item, ← ih (IsOpen.next_of_not_suppresses hwritten) hrest, entries,
          RunState.entryBytes, RunState.header, if_neg hwritten]
        simp [pieceEntries]
      | cons a cs =>
        rw [cut_cons_item, entries, RunState.entryBytes, RunState.header]
        by_cases hac : a.index = c.index
        · have hsup := hopen.suppresses_iff.2 hac
          rw [if_pos hac, if_pos hsup,
            ← ih (hopen.next_of_suppresses hsup (hsuppress hsup).2) hrest, pieceEntries_concat]
          simp
        · have hwritten := mt hopen.suppresses_iff.1 hac
          rw [if_neg hac, if_neg hwritten, List.flatMap_cons,
            ← ih (IsOpen.next_of_not_suppresses hwritten) hrest]
          simp [pieceEntries]

/-- In a legible run that ends with a flush the records are those of the pieces. -/
theorem emitted_of_isOpen {cs : List Call} {run : RunState} {es : List (Event Call)}
    (hopen : IsOpen cs run) (h : Legible run es) :
    emitted run (es ++ [.mark]) = records Call.index (cut Call.index cs es) := by
  induction es generalizing cs run with
  | nil =>
    rw [List.nil_append, emitted, emitted, List.append_nil, hopen.pending]
    cases cs <;> rfl
  | cons e es ih =>
    cases e with
    | mark =>
      rw [cut_mark, List.cons_append, emitted, hopen.pending]
      split
      · next hlong =>
        have hcons := records_append Call.index [cs] (cut Call.index [] es)
        rw [List.singleton_append] at hcons
        rw [hcons, ih (hopen.reset_of_long hlong) h]
      · next hshort =>
        rw [Legible, hopen.reset_of_short hshort] at h
        have hnone : records Call.index [cs] = [] := by
          rcases cs with _ | ⟨a, _ | ⟨b, cs⟩⟩
          · rfl
          · rfl
          · exact absurd (by simp : 1 < (a :: b :: cs).length) hshort
        rw [hopen.reset_of_short hshort, ih hopen h, hnone, List.nil_append]
    | item c =>
      obtain ⟨hsuppress, hrest⟩ := h
      cases cs with
      | nil =>
        have hwritten := hopen.not_suppresses_of_nil (fun hsup => (hsuppress hsup).1)
        rw [cut_nil_item, List.cons_append, emitted, RunState.closing, if_neg hwritten,
          hopen.pending, ih (IsOpen.next_of_not_suppresses hwritten) hrest]
        rfl
      | cons a cs =>
        rw [cut_cons_item, List.cons_append, emitted, RunState.closing]
        by_cases hac : a.index = c.index
        · have hsup := hopen.suppresses_iff.2 hac
          rw [if_pos hac, if_pos hsup, List.nil_append,
            ih (hopen.next_of_suppresses hsup (hsuppress hsup).2) hrest]
        · have hwritten := mt hopen.suppresses_iff.1 hac
          rw [if_neg hac, if_neg hwritten, hopen.pending,
            ih (IsOpen.next_of_not_suppresses hwritten) hrest, ← records_append,
            List.singleton_append]

/-- Without marks the encoder ends with the last piece open. -/
theorem isOpen_finalRun {cs : List Call} {run : RunState} {l : List Call} (hopen : IsOpen cs run)
    (h : Legible run (l.map .item)) :
    IsOpen ((cut Call.index cs (l.map .item)).getLastD []) (finalRun run (l.map .item)) := by
  induction l generalizing cs run with
  | nil => cases cs <;> exact hopen
  | cons c l ih =>
    obtain ⟨hsuppress, hrest⟩ := h
    rw [List.map_cons, finalRun]
    cases cs with
    | nil =>
      have hwritten := hopen.not_suppresses_of_nil (fun hsup => (hsuppress hsup).1)
      exact ih (IsOpen.next_of_not_suppresses hwritten) hrest
    | cons a cs =>
      rw [cut_cons_item]
      by_cases hac : a.index = c.index
      · have hsup := hopen.suppresses_iff.2 hac
        rw [if_pos hac]
        exact ih (hopen.next_of_suppresses hsup (hsuppress hsup).2) hrest
      · have hlast := ih (IsOpen.next_of_not_suppresses (mt hopen.suppresses_iff.1 hac)) hrest
        obtain ⟨p, ps, hcut⟩ := exists_cut_cons Call.index c [] (l.map .item)
        rw [hcut, List.getLastD_cons] at hlast
        rwa [if_neg hac, hcut, List.getLastD_cons, List.getLastD_cons]

theorem entries_eq_pieceEntries {es : List (Event Call)} (h : Legible .initial es) :
    entries .initial es = (pieces es).flatMap pieceEntries :=
  entries_of_isOpen IsOpen.initial h

theorem flatten_entries {es : List (Event Call)} (h : Legible .initial es) :
    (entries .initial es).flatten = (pieces es).flatMap pieceBytes := by
  rw [entries_eq_pieceEntries h, flatten_flatMap_pieceEntries]

theorem emitted_eq_records {es : List (Event Call)} (h : Legible .initial es) :
    emitted .initial (es ++ [.mark]) = records Call.index (pieces es) :=
  emitted_of_isOpen IsOpen.initial h

/-! ## Legible runs by their pieces -/

/-- What a flush between calls must not do: cut a run of a non-zero id that goes on afterwards. -/
def CutsOnlyZero (ps : List (List Call)) : Prop :=
  ps.IsChain (fun p q => keyOf Call.index p = keyOf Call.index q → keyOf Call.index p = some 0)

instance (ps : List (List Call)) : Decidable (CutsOnlyZero ps) := by
  unfold CutsOnlyZero; infer_instance

/-- What the pieces have to be like when the calls of the open run start the first of them. With no
    run open, the first piece must not be of an id other than 0 that was kept over a flush. -/
structure LegiblePieces (cs : List Call) (run : RunState) (es : List (Event Call)) : Prop where
  cuts : CutsOnlyZero (cut Call.index cs es)
  short : ∀ p ∈ cut Call.index cs es, p.length < 2 ^ 64
  kept : cs = [] → ∀ p ∈ (cut Call.index cs es).head?,
    keyOf Call.index p = some run.runlengthIndex → run.runlengthIndex = 0

theorem legiblePieces_nil {cs : List Call} (run : RunState) (hshort : cs.length < 2 ^ 64) :
    LegiblePieces cs run [] := by
  cases cs with
  | nil => exact ⟨by simp [CutsOnlyZero], by simp, by simp⟩
  | cons a cs => exact ⟨by simp [CutsOnlyZero], by simpa using hshort, by simp⟩

/-- The mark closes a run of two or more calls, but its id is kept. -/
theorem legiblePieces_mark_of_long {cs : List Call} {run : RunState} {es : List (Event Call)}
    (hopen : IsOpen cs run) (hshort : cs.length < 2 ^ 64) (hlong : 1 < cs.length) :
    LegiblePieces cs run (.mark :: es) ↔ LegiblePieces [] run.reset es := by
  have hindex : run.reset.runlengthIndex = run.runlengthIndex := by
    rw [RunState.reset]
    split <;> rfl
  have hne : cs ≠ [] := by
    rintro rfl
    exact absurd hlong (by simp)
  have hkey := hopen.keyOf_eq hne
  have hcut : cut Call.index cs (.mark :: es) = cs :: cut Call.index [] es := by
    rw [cut_mark, if_pos hlong]
  constructor
  · rintro ⟨hcuts, hlengths, -⟩
    rw [hcut] at hcuts hlengths
    obtain ⟨hhead, htail⟩ := List.isChain_cons.1 hcuts
    refine ⟨htail, fun p hp => hlengths p (List.mem_cons_of_mem _ hp), ?_⟩
    intro _ p hp hpkey
    rw [hindex] at hpkey ⊢
    exact Option.some.inj (hkey.symm.trans (hhead p hp (hkey.trans hpkey.symm)))
  · rintro ⟨hcuts, hlengths, hkept⟩
    refine ⟨?_, ?_, fun hnil => absurd hnil hne⟩
    · rw [hcut]
      refine List.isChain_cons.2 ⟨?_, hcuts⟩
      intro p hp heq
      have hzero := hkept rfl p hp (by rw [hindex, ← heq, hkey])
      rw [hindex] at hzero
      rw [hkey, hzero]
    · rw [hcut]
      intro p hp
      rcases List.mem_cons.1 hp with rfl | hp
      · exact hshort
      · exact hlengths p hp

theorem legiblePieces_mark_of_short {cs : List Call} {run : RunState} {es : List (Event Call)}
    (hlong : ¬ 1 < cs.length) :
    LegiblePieces cs run (.mark :: es) ↔ LegiblePieces cs run es := by
  have hcut : cut Call.index cs (.mark :: es) = cut Call.index cs es := by
    rw [cut_mark, if_neg hlong]
  constructor
  · rintro ⟨hcuts, hlengths, hkept⟩
    rw [hcut] at hcuts hlengths hkept
    exact ⟨hcuts, hlengths, hkept⟩
  · rintro ⟨hcuts, hlengths, hkept⟩
    exact ⟨by rwa [hcut], by rwa [hcut], by rwa [hcut]⟩

/-- The first call after a flush must write its id. -/
theorem legiblePieces_first {run : RunState} {c : Call} {es : List (Event Call)}
    (hopen : IsOpen [] run) :
    LegiblePieces [] run (.item c :: es) ↔
      ¬ run.Suppresses c.index ∧ LegiblePieces [c] (run.next c.index) es := by
  obtain ⟨p, ps, hcut⟩ := exists_cut_cons Call.index c [] es
  have hkey : keyOf Call.index (c :: p) = some c.index := rfl
  have hsup := hopen.suppresses_iff_of_nil c.index
  constructor
  · rintro ⟨hcuts, hlengths, hkept⟩
    rw [cut_nil_item] at hcuts hlengths hkept
    refine ⟨?_, hcuts, hlengths, fun hnil => absurd hnil (by simp)⟩
    intro hswallowed
    obtain ⟨hindex, hne⟩ := hsup.1 hswallowed
    have hzero := hkept rfl (c :: p) (by rw [hcut]; rfl) (by rw [hkey, hindex])
    exact hne (hindex.symm.trans hzero)
  · rintro ⟨hwritten, hcuts, hlengths, -⟩
    refine ⟨by rwa [cut_nil_item], by rwa [cut_nil_item], ?_⟩
    intro _ q hq hqkey
    rw [cut_nil_item, hcut, List.head?_cons, Option.mem_some_iff] at hq
    subst hq
    have hindex : c.index = run.runlengthIndex := Option.some.inj hqkey
    by_contra hne
    exact hwritten (hsup.2 ⟨hindex.symm, by rwa [hindex]⟩)

/-- One more call of the open run: the run length must not wrap. -/
theorem legiblePieces_same {a c : Call} {cs : List Call} {run : RunState} {es : List (Event Call)}
    (hopen : IsOpen (a :: cs) run) (hac : a.index = c.index) :
    LegiblePieces (a :: cs) run (.item c :: es) ↔
      run.currentRunlength + 1 < 2 ^ 64 ∧
        LegiblePieces (a :: cs ++ [c]) (run.next c.index) es := by
  have hcut : cut Call.index (a :: cs) (.item c :: es) = cut Call.index (a :: cs ++ [c]) es := by
    rw [cut_cons_item, if_pos hac]
  constructor
  · rintro ⟨hcuts, hlengths, -⟩
    rw [hcut] at hcuts hlengths
    refine ⟨?_, hcuts, hlengths, fun hnil => absurd hnil (by simp)⟩
    -- the piece is at least as long as the run is by now
    obtain ⟨p, ps, hpiece⟩ := exists_cut_cons Call.index a (cs ++ [c]) es
    have hlong := hlengths _ (by rw [List.cons_append, hpiece]; exact List.mem_cons_self)
    rw [hopen.length]
    simp only [List.length_append, List.length_cons, List.length_nil] at hlong ⊢
    omega
  · rintro ⟨-, hcuts, hlengths, -⟩
    exact ⟨by rwa [hcut], by rwa [hcut], fun hnil => absurd hnil (by simp)⟩

/-- A call of another id starts a new piece. -/
theorem legiblePieces_other {a c : Call} {cs : List Call} {run : RunState} {es : List (Event Call)}
    (hshort : (a :: cs).length < 2 ^ 64) (hac : a.index ≠ c.index) :
    LegiblePieces (a :: cs) run (.item c :: es) ↔ LegiblePieces [c] (run.next c.index) es := by
  obtain ⟨p, ps, hpiece⟩ := exists_cut_cons Call.index c [] es
  have hcut : cut Call.index (a :: cs) (.item c :: es)
      = (a :: cs) :: cut Call.index [c] es := by
    rw [cut_cons_item, if_neg hac]
  have hdiffer : ∀ q ∈ (cut Call.index [c] es).head?,
      keyOf Call.index (a :: cs) ≠ keyOf Call.index q := by
    intro q hq heq
    rw [hpiece, List.head?_cons, Option.mem_some_iff] at hq
    subst hq
    exact hac (Option.some.inj heq)
  constructor
  · rintro ⟨hcuts, hlengths, -⟩
    rw [hcut] at hcuts hlengths
    exact ⟨(List.isChain_cons.1 hcuts).2, fun q hq => hlengths q (List.mem_cons_of_mem _ hq),
      fun hnil => absurd hnil (by simp)⟩
  · rintro ⟨hcuts, hlengths, -⟩
    refine ⟨?_, ?_, fun hnil => absurd hnil (by simp)⟩
    · rw [hcut]
      exact List.isChain_cons.2 ⟨fun q hq heq => absurd heq (hdiffer q hq), hcuts⟩
    · rw [hcut]
      intro q hq
      rcases List.mem_cons.1 hq with rfl | hq
      · exact hshort
      · exact hlengths q hq

theorem legible_iff_of_isOpen {cs : List Call} {run : RunState} {es : List (Event Call)}
    (hopen : IsOpen cs run) (hshort : cs.length < 2 ^ 64) :
    Legible run es ↔ LegiblePieces cs run es := by
  induction es generalizing cs run with
  | nil => exact iff_of_true trivial (legiblePieces_nil run hshort)
  | cons e es ih =>
    cases e with
    | mark =>
      rw [Legible]
      by_cases hlong : 1 < cs.length
      · rw [legiblePieces_mark_of_long hopen hshort hlong]
        exact ih (hopen.reset_of_long hlong) (by simp)
      · rw [legiblePieces_mark_of_short hlong, hopen.reset_of_short hlong]
        exact ih hopen hshort
    | item c =>
      rw [Legible]
      cases cs with
      | nil =>
        have hzero : ¬ 1 ≤ run.currentRunlength := by
          rw [hopen.length]
          simp
        rw [legiblePieces_first hopen]
        by_cases hswallowed : run.Suppresses c.index
        · exact ⟨fun h => absurd (h.1 hswallowed).1 hzero, fun h => absurd hswallowed h.1⟩
        · have hiff := ih (IsOpen.next_of_not_suppresses hswallowed) (by simp)
          exact ⟨fun h => ⟨hswallowed, hiff.1 h.2⟩,
            fun h => ⟨fun hsup => absurd hsup hswallowed, hiff.2 h.2⟩⟩
      | cons a cs =>
        by_cases hac : a.index = c.index
        · have hsup := hopen.suppresses_iff.2 hac
          have hpos : 1 ≤ run.currentRunlength := by
            rw [hopen.length]
            simp
          rw [legiblePieces_same hopen hac]
          by_cases hwrap : run.currentRunlength + 1 < 2 ^ 64
          · have hlength : (a :: cs ++ [c]).length < 2 ^ 64 := by
              rwa [List.length_append, ← hopen.length]
            have hiff := ih (hopen.next_of_suppresses hsup hwrap) hlength
            exact ⟨fun h => ⟨hwrap, hiff.1 h.2⟩, fun h => ⟨fun _ => ⟨hpos, hwrap⟩, hiff.2 h.2⟩⟩
          · exact ⟨fun h => absurd (h.1 hsup).2 hwrap, fun h => absurd h.1 hwrap⟩
        · have hwritten := mt hopen.suppresses_iff.1 hac
          have hiff := ih (IsOpen.next_of_not_suppresses hwritten) (by simp)
          rw [legiblePieces_other hshort hac]
          exact ⟨fun h => hiff.1 h.2, fun h => ⟨fun hsup => absurd hsup hwritten, hiff.2 h⟩⟩

/-- The encoder treats every piece as a piece of its own exactly when flushes cut runs of id 0 only
    and no piece is too long for its record. -/
theorem legible_iff (es : List (Event Call)) :
    Legible .initial es ↔ CutsOnlyZero (pieces es) ∧ ∀ p ∈ pieces es, p.length < 2 ^ 64 := by
  rw [legible_iff_of_isOpen IsOpen.initial (by simp), pieces]
  exact ⟨fun h => ⟨h.cuts, h.short⟩, fun h => ⟨h.1, h.2, fun _ _ _ _ => rfl⟩⟩

/-! ## Counting headers -/

/-- The number of ids in the log. -/
def headerCount : RunState → List (Event Call) → Nat
  | _, [] => 0
  | run, .item c :: es =>
      (if run.Suppresses c.index then 0 else 1) + headerCount (run.next c.index) es
  | run, .mark :: es => headerCount run.reset es

/-- The calls that the records stand for beyond the one behind each id. -/
def surplus (rs : List (Nat × Nat)) : Nat := (rs.map (fun r => r.2 - 1)).sum

@[simp] theorem surplus_nil : surplus [] = 0 := rfl

@[simp] theorem surplus_append (rs rs' : List (Nat × Nat)) :
    surplus (rs ++ rs') = surplus rs + surplus rs' := by
  simp [surplus]

theorem surplus_pending (run : RunState) : surplus run.pending = run.currentRunlength - 1 := by
  rw [RunState.pending]
  split
  · simp [surplus]
  · rw [surplus_nil]
    omega

theorem length_flatten_entries (run : RunState) (es : List (Event Call)) :
    (entries run es).flatten.length
      = 2 * headerCount run es + ((items es).flatMap Call.argBytes).length := by
  induction es generalizing run with
  | nil => rfl
  | cons e es ih =>
    cases e with
    | mark => exact ih run.reset
    | item c =>
      simp only [entries, List.flatten_cons, List.length_append, ih, headerCount, items,
        List.flatMap_cons, RunState.entryBytes, RunState.header]
      split
      · simp only [List.length_nil]
        omega
      · simp only [length_headerBytes]
        omega

theorem currentRunlength_next_of_suppresses {run : RunState} {index : Nat}
    (h : run.Suppresses index) :
    (run.next index).currentRunlength = (run.currentRunlength + 1) % 2 ^ 64 := by
  rw [RunState.next, if_pos h]
  rfl

theorem currentRunlength_next_of_not_suppresses {run : RunState} {index : Nat}
    (h : ¬ run.Suppresses index) : (run.next index).currentRunlength = 1 := by
  rw [RunState.next, if_neg h]

theorem surplus_pending_reset (run : RunState) :
    surplus run.pending + (run.reset.currentRunlength - 1) = run.currentRunlength - 1 := by
  rw [surplus_pending, RunState.reset]
  split
  · rfl
  · omega

/-- Ids and recorded lengths never stand for more calls than there are. -/
theorem headerCount_add_le (run : RunState) (es : List (Event Call)) :
    headerCount run es + surplus (emitted run (es ++ [.mark]))
      ≤ (items es).length + (run.currentRunlength - 1) := by
  induction es generalizing run with
  | nil => simp [headerCount, emitted, surplus_pending]
  | cons e es ih =>
    cases e with
    | mark =>
      have hrest := ih run.reset
      have hreset := surplus_pending_reset run
      simp only [headerCount, List.cons_append, emitted, surplus_append, items]
      omega
    | item c =>
      have hrest := ih (run.next c.index)
      simp only [headerCount, List.cons_append, emitted, surplus_append, RunState.closing, items,
        List.length_cons]
      split
      · next hsup =>
        rw [currentRunlength_next_of_suppresses hsup] at hrest
        rw [surplus_nil]
        omega
      · next hwritten =>
        rw [currentRunlength_next_of_not_suppresses hwritten] at hrest
        rw [surplus_pending]
        omega

/-- If they stand for all of them, the run is legible. -/
theorem legible_of_headerCount {run : RunState} {es : List (Event Call)}
    (h : headerCount run es + surplus (emitted run (es ++ [.mark]))
      = (items es).length + (run.currentRunlength - 1)) : Legible run es := by
  induction es generalizing run with
  | nil => trivial
  | cons e es ih =>
    cases e with
    | mark =>
      have hreset := surplus_pending_reset run
      simp only [headerCount, List.cons_append, emitted, surplus_append, items] at h
      exact ih (by omega)
    | item c =>
      have hle := headerCount_add_le (run.next c.index) es
      simp only [headerCount, List.cons_append, emitted, surplus_append, RunState.closing, items,
        List.length_cons] at h
      by_cases hsup : run.Suppresses c.index
      · simp only [if_pos hsup, surplus_nil] at h
        rw [currentRunlength_next_of_suppresses hsup] at hle
        refine ⟨fun _ => by omega, ih ?_⟩
        rw [currentRunlength_next_of_suppresses hsup]
        omega
      · simp only [if_neg hsup, surplus_pending] at h
        rw [currentRunlength_next_of_not_suppresses hsup] at hle
        refine ⟨fun h => absurd h hsup, ih ?_⟩
        rw [currentRunlength_next_of_not_suppresses hsup]
        omega

/-! ## Records fit their fields -/

/-- The records that the fields of the runlength file hold. -/
def ValidRecord (r : Nat × Nat) : Prop := r.1 < 2 ^ 16 ∧ 1 < r.2 ∧ r.2 < 2 ^ 64

/-- The bounds on the encoder's state. -/
structure RunState.Valid (run : RunState) : Prop where
  index : run.runlengthIndex < 2 ^ 16
  length : run.currentRunlength < 2 ^ 64

theorem RunState.Valid.initial : RunState.initial.Valid := ⟨by decide, by decide⟩

theorem RunState.Valid.next {run : RunState} (h : run.Valid) {index : Nat}
    (hindex : index < 2 ^ 16) : (run.next index).Valid := by
  rw [RunState.next]
  split
  · exact ⟨h.index, Nat.mod_lt _ (by decide)⟩
  · exact ⟨hindex, Nat.one_lt_two_pow (by decide)⟩

theorem RunState.Valid.reset {run : RunState} (h : run.Valid) : run.reset.Valid := by
  rw [RunState.reset]
  split
  · exact ⟨h.index, Nat.two_pow_pos 64⟩
  · exact h

theorem RunState.Valid.pending {run : RunState} (h : run.Valid) :
    ∀ r ∈ run.pending, ValidRecord r := by
  rw [RunState.pending]
  split
  · next hlong =>
    intro r hr
    obtain rfl := List.mem_singleton.1 hr
    exact ⟨h.index, hlong, h.length⟩
  · simp

theorem validRecord_of_mem_emitted {run : RunState} {es : List (Event Call)} (h : run.Valid)
    (hindex : ∀ c ∈ items es, c.index < 2 ^ 16) : ∀ r ∈ emitted run es, ValidRecord r := by
  induction es generalizing run with
  | nil => simp [emitted]
  | cons e es ih =>
    cases e with
    | mark =>
      intro r hr
      rcases List.mem_append.1 hr with hr | hr
      · exact h.pending r hr
      · exact ih h.reset hindex r hr
    | item c =>
      intro r hr
      rcases List.mem_append.1 hr with hr | hr
      · rw [RunState.closing] at hr
        split at hr
        · exact absurd hr List.not_mem_nil
        · exact h.pending r hr
      · exact ih (h.next (hindex c List.mem_cons_self))
          (fun c' hc' => hindex c' (List.mem_cons_of_mem _ hc')) r hr

end BinaryLog
