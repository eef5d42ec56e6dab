import BinaryLog.Session
import Mathlib.Data.List.Infix

set_option autoImplicit false

/-! # What is on disk when the program stops

The log and the index of `packer` are buffered independently: the log buffer spills when it is full,
the index buffer when a row does not fit any more, and only `flush` spills both. So at any moment an
id header may have reached the log file while its row is still in the index buffer. What does hold
in every state a program reaches is said by `header_row_registered`: the row of every header exists,
at most one byte less than an index buffer of rows is missing from the disk, and rows registered
before a flush are not among them. -/

namespace BinaryLog

open Bytes Simulation Runs

/-! ## Headers and rows -/

/-- The id headers of the log with their offsets; the entries start at offset `off`. -/
def headers : Nat → RunState → List (Event Call) → List (Nat × Nat)
  | _, _, [] => []
  | off, run, .item c :: es =>
      (if run.Suppresses c.index then [] else [(c.index, off)])
        ++ headers (off + (run.entryBytes c).length) (run.next c.index) es
  | off, run, .mark :: es => headers off run.reset es

/-- Row `id` of the table, whole, at its place in the index file. -/
def RowIn (regs : List Registration) (id : Nat) (file : List UInt8) : Prop :=
  ∃ reg, regs[id]? = some reg ∧
    (regs.take id).flatMap Registration.rowBytes ++ reg.rowBytes <+: file

theorem rowIn_of_startsWith {regs : List Registration} {id : Nat} {file : List UInt8}
    (hid : id < regs.length) (h : regs.flatMap Registration.rowBytes <+: file) :
    RowIn regs id file := by
  refine ⟨regs[id], List.getElem?_eq_getElem hid, List.IsPrefix.trans ?_ h⟩
  have hsplit : regs = regs.take id ++ (regs[id] :: regs.drop (id + 1)) := by
    rw [List.getElem_cons_drop, List.take_append_drop]
  conv_rhs => rw [hsplit, List.flatMap_append, List.flatMap_cons, ← List.append_assoc]
  exact List.prefix_append _ _

theorem RowIn.mono {regs regs' : List Registration} {id : Nat} {file file' : List UInt8}
    (h : RowIn regs id file) (hfile : file <+: file') : RowIn (regs ++ regs') id file' := by
  obtain ⟨reg, hreg, hprefix⟩ := h
  have hid : id < regs.length := (List.getElem?_eq_some_iff.1 hreg).1
  refine ⟨reg, by rw [List.getElem?_append_left hid, hreg], ?_⟩
  rw [List.take_append_of_le_length hid.le]
  exact hprefix.trans hfile

/-- A header is the id of a call. -/
theorem exists_call_of_mem_headers {off : Nat} {run : RunState} {es : List (Event Call)}
    {id start : Nat} (h : (id, start) ∈ headers off run es) : ∃ c ∈ items es, c.index = id := by
  induction es generalizing off run with
  | nil => exact absurd h List.not_mem_nil
  | cons e es ih =>
    cases e with
    | mark => exact ih h
    | item c =>
      rcases List.mem_append.1 h with h | h
      · split at h
        · exact absurd h List.not_mem_nil
        · obtain ⟨rfl, -⟩ := Prod.mk.inj (List.mem_singleton.1 h)
          exact ⟨c, List.mem_cons_self, rfl⟩
      · obtain ⟨c', hc', rfl⟩ := ih h
        exact ⟨c', List.mem_cons_of_mem _ hc', rfl⟩

/-- The two bytes at the offset of a header are its id. -/
theorem take_drop_of_mem_headers {off : Nat} {run : RunState} {es : List (Event Call)}
    {id start : Nat} (h : (id, start) ∈ headers off run es) :
    off ≤ start ∧ ((entries run es).flatten.drop (start - off)).take 2 = headerBytes id := by
  induction es generalizing off run with
  | nil => exact absurd h List.not_mem_nil
  | cons e es ih =>
    cases e with
    | mark => exact ih h
    | item c =>
      rcases List.mem_append.1 h with h | h
      · split at h
        · exact absurd h List.not_mem_nil
        · next hwritten =>
          obtain ⟨rfl, rfl⟩ := Prod.mk.inj (List.mem_singleton.1 h)
          refine ⟨le_rfl, ?_⟩
          rw [entries, RunState.entryBytes, RunState.header, if_neg hwritten, List.flatten_cons,
            Nat.sub_self, List.drop_zero, List.append_assoc]
          exact List.take_left' (length_headerBytes c.index)
      · obtain ⟨hle, hbytes⟩ := ih h
        refine ⟨by omega, ?_⟩
        rw [entries, List.flatten_cons, ← hbytes, List.drop_append,
          List.drop_of_length_le (by omega), List.nil_append, Nat.sub_sub, ← Nat.sub_sub start off]

/-! ## The index file of `packer` -/

namespace Packer

variable {n m r : Nat}

/-- A property of the index file that writing and spilling keep is kept by the packer. -/
theorem preserved_indexFile {Q : SpillBuffer UInt8 m → Prop}
    (hwrite : ∀ b bs b', Q b → b.write (m - 1) bs = some b' → Q b')
    (hspill : ∀ b, Q b → Q b.spill) :
    Preserved (fun p : Packer n m r => Q p.indexFile) := by
  have hlog : ∀ (p : Packer n m r) bs p', Q p.indexFile → BinaryLog.bufferOrWrite p bs = .ok p' →
      Q p'.indexFile := by
    intro p bs p' hp h
    change Packer.bufferOrWrite p bs = .ok p' at h
    simp only [Packer.bufferOrWrite, orFault_eq_ok, Option.map_eq_some_iff] at h
    obtain ⟨b, -, rfl⟩ := h
    exact hp
  have hclose : ∀ (p p' : Packer n m r), Q p.indexFile →
      p.writeCurrentRunlengthToRunlengthFile = .ok p' → Q p'.indexFile := by
    intro p p' hp h
    unfold Packer.writeCurrentRunlengthToRunlengthFile at h
    split at h
    · simp only [orFault_eq_ok, Option.map_eq_some_iff] at h
      obtain ⟨b, -, rfl⟩ := h
      exact hp
    · exact Except.ok.inj h ▸ hp
  refine ⟨hlog, ?_, ?_, ?_⟩
  · intro p bs p' hp h
    change Packer.bufferOrWriteIndexFile p bs = .ok p' at h
    simp only [Packer.bufferOrWriteIndexFile, orFault_eq_ok, Option.map_eq_some_iff] at h
    obtain ⟨b, hb, rfl⟩ := h
    exact hwrite p.indexFile bs b hp hb
  · intro p index p' hp h
    exact packFormatStringIndexBody_preserved hlog hclose (fun _ _ hp => hp) hp h
  · intro p p' hp h
    change Packer.flush p = .ok p' at h
    simp only [Packer.flush, Packer.flushRunlengthFile, bind_eq_ok, Except.ok.injEq] at h
    obtain ⟨p₁, hp₁, rfl⟩ := h
    exact hclose _ p₁ (hspill p.indexFile hp) hp₁

/-- The index buffer is never full. -/
theorem held_lt (hm : 2 ≤ m) {ops : List Op} {lg : Logger (Packer n m r)}
    (h : Logger.run .fresh ops = .ok lg) : lg.packer.indexFile.held.length < m := by
  have hempty : (Logger.fresh : Logger (Packer n m r)).packer.indexFile.held.length < m :=
    Nat.lt_of_lt_of_le Nat.zero_lt_two hm
  -- a chunk is shorter than the buffer, so no copy fills it
  exact (preserved_indexFile (Q := fun b => b.held.length < m)
    (fun _ _ _ hb hwrite => SpillBuffer.held_lt_of_write (by omega) hb hwrite)
    (fun _ _ => hempty)).run hempty h

/-- What is in the index file stays there. -/
theorem spilled_prefix_run {ops : List Op} {lg lg' : Logger (Packer n m r)}
    (h : lg.run ops = .ok lg') : lg.packer.indexFile.spilled <+: lg'.packer.indexFile.spilled :=
  (preserved_indexFile (Q := fun b => lg.packer.indexFile.spilled <+: b.spilled)
    (fun _ _ _ hb hwrite => hb.trans (SpillBuffer.spilled_prefix_write hwrite))
    (fun _ hb => hb.trans (List.prefix_append _ _))).run List.prefix_rfl h

/-- After a flush every row is in the index file. -/
theorem spilled_of_run_flush {ops : List Op} {lg : Logger (Packer n m r)}
    (h : Logger.run .fresh (ops ++ [.flush]) = .ok lg) :
    lg.packer.indexFile.spilled = (registrations ops).flatMap Registration.rowBytes := by
  have hindex := (Packer.refinement.run h).index
  rw [← (Packer.spilled_eq_contents h).2.1, Streams.index_runOps_initial,
    registrations_append] at hindex
  simpa [registrations] using hindex

/-- Rows registered before a flush are in the index file from then on. -/
theorem rowIn_spilled_of_flush {ops ops' : List Op} {lg : Logger (Packer n m r)}
    (h : Logger.run .fresh (ops ++ .flush :: ops') = .ok lg) {id : Nat}
    (hid : id < (registrations ops).length) :
    RowIn (registrations (ops ++ .flush :: ops')) id lg.packer.indexFile.spilled := by
  rw [← List.singleton_append, ← List.append_assoc, Logger.run_append, bind_eq_ok] at h
  obtain ⟨lg₁, hflush, hrest⟩ := h
  rw [registrations_append]
  refine (rowIn_of_startsWith hid ?_).mono (spilled_prefix_run hrest)
  rw [spilled_of_run_flush hflush]

end Packer

/-! ## Every reachable state -/

section Session

variable {S : Type} [DecidableEq S] (format : S → CString)

/-- In every state a program reaches, whatever the buffer sizes: an id header that is on disk names
    a registered row. The rows are the index file followed by the index buffer, which holds less
    than its size; those registered before a flush are in the index file. -/
theorem header_row_registered {n m r : Nat} (hn : 1 ≤ n) (hm : 2 ≤ m) (hr : 1 ≤ r)
    (actions : List (Action S)) :
    ∃ (statics : Statics S) (lg : Logger (Packer n m r)),
      runSession format actions = .ok (statics, lg) ∧
      lg.packer.indexFile.held.length ≤ m - 1 ∧
      ∀ id start,
        (id, start) ∈ headers 0 .initial (callEvents (sessionCalls format actions)) →
        start + 2 ≤ lg.packer.logFile.spilled.length →
        (lg.packer.logFile.spilled.drop start).take 2 = headerBytes id ∧
        RowIn (registrations (sessionCalls format actions)) id
          (lg.packer.indexFile.spilled ++ lg.packer.indexFile.held) ∧
        ∀ before after, actions = before ++ .flush :: after →
          id < (registrations (sessionCalls format before)).length →
          RowIn (registrations (sessionCalls format actions)) id lg.packer.indexFile.spilled := by
  obtain ⟨lg, hlg⟩ := (Packer.sufficient hn hm hr).run Packer.refinement
    (sessionCalls format actions) trivial
  obtain ⟨statics, hsession⟩ := exists_runSession format hlg
  have hrel := Packer.refinement.run hlg
  refine ⟨statics, lg, hsession, Nat.le_sub_one_of_lt (Packer.held_lt hm hlg), ?_⟩
  intro id start hheader hdisk
  refine ⟨?_, ?_, ?_⟩
  · -- both bytes of the header are before the end of the file, so the buffer does not matter
    have hlog : lg.packer.logFile.spilled ++ lg.packer.logFile.held
        = (entries .initial (callEvents (sessionCalls format actions))).flatten := by
      rw [← SpillBuffer.contents, hrel.log, Streams.log_runOps]
      rfl
    obtain ⟨-, hbytes⟩ := take_drop_of_mem_headers hheader
    rw [← hbytes, Nat.sub_zero, ← hlog, List.drop_append_of_le_length (by omega),
      List.take_append_of_le_length (by rw [List.length_drop]; omega)]
  · obtain ⟨c, hc, rfl⟩ := exists_call_of_mem_headers hheader
    refine rowIn_of_startsWith (index_lt_of_mem_sessionCalls format hc) ?_
    rw [← SpillBuffer.contents, hrel.index, Streams.index_runOps_initial]
  · -- the flush brought all rows registered by then to disk, and a file only grows
    rintro before after rfl hid
    have hsplit : sessionCalls format (before ++ .flush :: after)
        = sessionCalls format before ++ .flush :: _ := memberCalls_append format _ _ before _
    rw [hsplit] at hlg ⊢
    exact Packer.rowIn_spilled_of_flush hlg hid

end Session

/-- A program that logs at one call site and flushes: header and row are on disk. -/
theorem header_row_registered_flushed :
    ∃ lg : Logger (Packer 1 2 1),
      (lg.packer.logFile.spilled.drop 0).take 2 = headerBytes 0 ∧
      RowIn [⟨.literal [65], []⟩] 0 lg.packer.indexFile.spilled := by
  obtain ⟨statics, lg, hrun, -, hheaders⟩ := header_row_registered (S := Unit)
    (fun _ => .literal [65]) (n := 1) (m := 2) (r := 1) (by decide) (by decide) (by decide)
    [.log () [], .flush]
  have hmember := run_of_runSession _ hrun
  have hlog : lg.packer.logFile.spilled = [0, 0] := by
    have hstream := (Packer.refinement.run hmember).log
    have hspilled := Packer.spilled_eq_contents
      (hmember : Logger.run .fresh ([_, _] ++ [.flush]) = .ok lg)
    exact hspilled.1.trans hstream
  obtain ⟨hbytes, -, hflushed⟩ := hheaders 0 0 (by decide) (by rw [hlog]; decide)
  exact ⟨lg, hbytes, hflushed [.log () []] [] rfl (by decide)⟩

/-- One call with an argument: its header is on disk, and no byte of its row is. -/
theorem header_precedes_row :
    ∃ (statics : Statics Unit) (lg : Logger (Packer 1 32 32)),
      runSession (fun _ => .literal [65])
        [.log () [.dynamic (.uint8 7)]] = .ok (statics, lg) ∧
      (0, 0) ∈ headers 0 .initial (callEvents (sessionCalls (fun _ : Unit => .literal [65])
        [.log () [.dynamic (.uint8 7)]])) ∧
      0 + 2 ≤ lg.packer.logFile.spilled.length ∧
      ¬ RowIn (registrations (sessionCalls (fun _ : Unit => .literal [65])
        [.log () [.dynamic (.uint8 7)]])) 0 lg.packer.indexFile.spilled := by
  obtain ⟨lg, hlg⟩ := (Packer.sufficient (n := 1) (m := 32) (r := 32) (by decide) (by decide)
    (by decide)).run Packer.refinement (sessionCalls (fun _ : Unit => .literal [65])
      [.log () [.dynamic (.uint8 7)]]) trivial
  obtain ⟨statics, hrun⟩ := exists_runSession _ hlg
  have hstate : (runSession (σ := Packer 1 32 32) (fun _ : Unit => .literal [65])
      [.log () [.dynamic (.uint8 7)]]).toOption.all (fun st =>
        st.2.packer.logFile.spilled.length == 2 && st.2.packer.indexFile.spilled.length == 0)
      = true := by decide
  rw [hrun, Except.toOption, Option.all_some, Bool.and_eq_true, beq_iff_eq, beq_iff_eq] at hstate
  refine ⟨statics, lg, hrun, by decide, hstate.1.ge, ?_⟩
  rintro ⟨reg, -, hprefix⟩
  have hlength := hprefix.length_le
  have hrow := two_le_length_rowBytes reg
  rw [List.length_append, hstate.2] at hlength
  omega

end BinaryLog
