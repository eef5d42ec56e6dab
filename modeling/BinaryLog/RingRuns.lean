import BinaryLog.OversizedEntries
import BinaryLog.Session

set_option autoImplicit false

/-! # Whole runs on the ring buffer

`ringbuffer_packer` has no error results: a run on it returns, aborts, or asks an empty queue for
its front. `ringbuffer_returns_iff` says for every run which, from what the run writes: entries
below the log buffer size, and an index and a runlength stream below theirs as soon as they have
anything. `ringbuffer_queue` is about the memory of the buffer: the deque is bounded, but the queue
has one offset for every entry kept, and entries without bytes are never evicted for their size. -/

namespace BinaryLog

open Bytes Simulation Runs Window

namespace RingbufferPacker

variable {n m r : Nat}

/-! ## The arrays -/

/-- What is in the arrays is below their sizes. -/
structure ArraysBelow (p : RingbufferPacker n m r) : Prop where
  index : p.indexBuffer ≠ [] → p.indexBuffer.length < m
  runlength : p.runlengthBuffer ≠ [] → p.runlengthBuffer.length < r

theorem preserved_arraysBelow : Preserved (ArraysBelow (n := n) (m := m) (r := r)) := by
  have hlog : ∀ (p : RingbufferPacker n m r) bs p', p.ArraysBelow →
      BinaryLog.bufferOrWrite p bs = .ok p' → p'.ArraysBelow := by
    intro p bs p' hp h
    obtain ⟨indices, buffer, -, rfl⟩ := bufferOrWrite_eq_ok h
    exact ⟨hp.index, hp.runlength⟩
  have hclose : ∀ p p' : RingbufferPacker n m r, p.ArraysBelow →
      p.writeCurrentRunlengthToRunlengthFile = .ok p' → p'.ArraysBelow := by
    intro p p' hp h
    unfold RingbufferPacker.writeCurrentRunlengthToRunlengthFile at h
    split at h
    · split at h
      · exact absurd h (by simp)
      · next hroom =>
        obtain rfl := Except.ok.inj h
        refine ⟨hp.index, fun _ => ?_⟩
        rw [List.length_append, List.length_take]
        omega
    · exact Except.ok.inj h ▸ hp
  refine ⟨hlog, ?_, ?_, hclose⟩
  · intro p bs p' hp h
    change p.bufferOrWriteIndexFile bs = .ok p' at h
    unfold RingbufferPacker.bufferOrWriteIndexFile at h
    split at h
    · exact absurd h (by simp)
    · next hroom =>
      obtain rfl := Except.ok.inj h
      refine ⟨fun _ => ?_, hp.runlength⟩
      rw [List.length_append, List.length_take]
      omega
  · intro p index p' hp h
    change packFormatStringIndexBody p.beginEntry index = .ok p' at h
    have hbegin : p.beginEntry.ArraysBelow := ⟨hp.index, hp.runlength⟩
    exact packFormatStringIndexBody_preserved hlog hclose
      (fun _ _ hq => ⟨hq.index, hq.runlength⟩) hbegin h

/-- Rows go into the array as long as all of them fit. -/
theorem exists_foldlM_bufferOrWriteIndexFile {p : RingbufferPacker n m r} (ws : List (List UInt8))
    (h : p.indexBuffer.length + ws.flatten.length < m) :
    ∃ p', ws.foldlM BinaryLog.bufferOrWriteIndexFile p = .ok p' := by
  induction ws generalizing p with
  | nil => exact ⟨p, rfl⟩
  | cons w ws ih =>
    rw [List.flatten_cons, List.length_append] at h
    have hroom : ¬ m ≤ p.indexBuffer.length + w.length := by omega
    have hwrite : BinaryLog.bufferOrWriteIndexFile p w = .ok { p with
        indexBuffer := p.indexBuffer ++ w.take (min w.length (m - 1)) } := if_neg hroom
    obtain ⟨p', hp'⟩ := ih (p := { p with
        indexBuffer := p.indexBuffer ++ w.take (min w.length (m - 1)) }) (by
      rw [List.length_append, List.length_take]
      omega)
    exact ⟨p', by rw [List.foldlM_cons, hwrite, ok_bind, hp']⟩

/-! ## One call -/

/-- A log call with a small entry returns if the record it closes fits. -/
theorem exists_log {lg : Logger (RingbufferPacker n m r)} {blocks : List (List UInt8)}
    (h : lg.packer.Holds blocks) (hn : 0 < n) {pos : Nat} {args : List Arg}
    (hroom : ¬ lg.packer.AbortsFirst (pos % 2 ^ 16))
    (hsmall : (lg.packer.run.entryBytes ⟨pos % 2 ^ 16, args⟩).length < n) :
    ∃ lg', lg.log pos args = .ok lg' := by
  rw [RunState.entryBytes, List.length_append] at hsmall
  have hheader : (lg.packer.run.header (pos % 2 ^ 16)).length < n :=
    Nat.lt_of_le_of_lt (Nat.le_add_right _ _) hsmall
  have hopen := packFormatStringIndex_holds h (pos % 2 ^ 16) hheader
  obtain ⟨q, hq⟩ : ∃ q, lg.packer.packFormatStringIndex (pos % 2 ^ 16) = .ok q := by
    rcases packFormatStringIndex_outcomes h hn (pos % 2 ^ 16) with ⟨-, hq⟩ | ⟨haborts, -⟩ |
      ⟨hwritten, -, q, run, hholds, hpack⟩
    · exact hq
    · exact absurd haborts hroom
    · rw [RunState.header, if_neg hwritten] at hheader
      have hfits : ([] : List UInt8).length + (headerBytes (pos % 2 ^ 16)).length < n := by
        simpa using hheader
      obtain ⟨q', hq', -⟩ := bufferOrWrite_holds hholds hfits
      exact ⟨_, by rw [hpack, hq', ok_bind]⟩
  obtain ⟨q', hq', -⟩ := foldlM_bufferOrWrite_holds (args.flatMap Arg.logWrites)
    (hopen.of_ok hq).1 (by simpa [Call.argBytes] using hsmall)
  refine ⟨{ lg with packer := q' }, ?_⟩
  rw [Logger.log_eq]
  show (lg.packer.packFormatStringIndex _ >>= _) = _
  rw [hq, ok_bind, hq', ok_bind]

end RingbufferPacker

/-! ## Runs -/

/-- What the run writes stays below the buffer sizes: every single entry, and the index and the
    runlength stream as a whole, if they have anything. -/
structure RunFits (n m r : Nat) (ops : List Op) : Prop where
  entries : ∀ e ∈ entries .initial (callEvents ops), e.length < n
  index : registrations ops ≠ [] → ((registrations ops).flatMap Registration.rowBytes).length < m
  records : emitted .initial (callEvents ops) ≠ [] →
    ((emitted .initial (callEvents ops)).flatMap recordBytes).length < r

theorem RunFits.of_append {n m r : Nat} {ops ops' : List Op} (h : RunFits n m r (ops ++ ops')) :
    RunFits n m r ops := by
  refine ⟨fun e he => h.entries e (RingbufferPacker.mem_entries_of_prefix he), ?_, ?_⟩
  · intro hne
    have hlt := h.index (by
      rw [registrations_append]
      exact List.append_ne_nil_of_left_ne_nil hne _)
    rw [registrations_append, List.flatMap_append, List.length_append] at hlt
    omega
  · intro hne
    have hlt := h.records (by
      rw [callEvents_append, emitted_append]
      exact List.append_ne_nil_of_left_ne_nil hne _)
    rw [callEvents_append, emitted_append, List.flatMap_append, List.length_append] at hlt
    omega

namespace RingbufferPacker

variable {n m r : Nat}

/-- A record that the call or flush closes fits the array behind the ones before it. -/
theorem length_pending_lt {p : RingbufferPacker n m r} {ops : List Op} {es : List (Event Call)}
    (hrunlength : p.runlengthBuffer = (emitted .initial (callEvents ops)).flatMap recordBytes)
    (hemitted : emitted .initial es = emitted .initial (callEvents ops) ++ p.run.pending)
    (hfits : emitted .initial es ≠ [] → ((emitted .initial es).flatMap recordBytes).length < r)
    (hlong : 1 < p.run.currentRunlength) : p.runlengthBuffer.length + 10 < r := by
  have hpending : p.run.pending = [(p.run.runlengthIndex, p.run.currentRunlength)] := by
    rw [RunState.pending, if_pos hlong]
  rw [hemitted, hpending] at hfits
  have hlt := hfits (by simp)
  rw [List.flatMap_append, ← hrunlength, List.length_append] at hlt
  simpa using hlt

/-- One more call of a run returns as long as the run fits. -/
theorem exists_step (hn : 1 ≤ n) {ops : List Op} {op : Op} {lg : Logger (RingbufferPacker n m r)}
    (hrun : Logger.run .fresh ops = .ok lg) (hfits : RunFits n m r (ops ++ [op])) :
    ∃ lg', lg.step op = .ok lg' := by
  have htracked := (tracked_of_run hn hrun).1
  have hrel := RingbufferPacker.refinement.run hrun
  have hindex := hrel.indexBuffer
  have hrunlength := hrel.runlengthBuffer
  rw [Streams.index_runOps_initial] at hindex
  rw [Streams.runlength_runOps] at hrunlength
  cases op with
  | logIndex formatString args =>
    have hrows : (registrations (ops ++ [.logIndex formatString args])).flatMap
        Registration.rowBytes = (registrations ops).flatMap Registration.rowBytes
          ++ Registration.rowBytes ⟨formatString, args⟩ := by
      rw [registrations_append, List.flatMap_append]
      simp [registrations]
    have hlt := hfits.index (by rw [registrations_append]; simp [registrations])
    rw [hrows, ← hindex, List.length_append] at hlt
    obtain ⟨p, hp⟩ := exists_foldlM_bufferOrWriteIndexFile _ hlt
    exact ⟨_, by rw [Logger.step, Logger.logIndex_eq, hp, ok_bind]; rfl⟩
  | log pos args =>
    have hentries := hfits.entries
    rw [entries_concat_log, ← htracked.run] at hentries
    refine exists_log htracked.holds hn ?_ (hentries _ (by simp))
    rintro ⟨hwritten, hlong, hfull⟩
    have hemitted : emitted .initial (callEvents (ops ++ [.log pos args]))
        = emitted .initial (callEvents ops) ++ lg.packer.run.pending := by
      rw [callEvents_concat, emitted_append, ← htracked.run]
      show _ ++ (lg.packer.run.closing (pos % 2 ^ 16) ++ []) = _
      rw [RunState.closing, if_neg hwritten, List.append_nil]
    have hroom := length_pending_lt hrunlength hemitted hfits.records hlong
    omega
  | flush =>
    have hemitted : emitted .initial (callEvents (ops ++ [.flush]))
        = emitted .initial (callEvents ops) ++ lg.packer.run.pending := by
      rw [callEvents_concat, emitted_append, ← htracked.run]
      show _ ++ (lg.packer.run.pending ++ []) = _
      rw [List.append_nil]
    rcases writeCurrentRunlength_outcomes htracked.holds with ⟨hlong, hfull, -⟩ | ⟨-, q, hq, -⟩
    · have hroom := length_pending_lt hrunlength hemitted hfits.records hlong
      omega
    · have hflush : PackerClass.flush lg.packer = .ok q := hq
      exact ⟨_, by rw [Logger.step, Logger.flush, hflush, ok_bind]⟩

/-- A run that has returned fits. -/
theorem runFits_of_run (hn : 1 ≤ n) {ops : List Op} {lg : Logger (RingbufferPacker n m r)}
    (h : Logger.run .fresh ops = .ok lg) : RunFits n m r ops := by
  have hrel := RingbufferPacker.refinement.run h
  have hindex := hrel.indexBuffer
  have hrunlength := hrel.runlengthBuffer
  rw [Streams.index_runOps_initial] at hindex
  rw [Streams.runlength_runOps] at hrunlength
  have hfresh : (Logger.fresh : Logger (RingbufferPacker n m r)).packer.ArraysBelow :=
    ⟨fun hne => absurd rfl hne, fun hne => absurd rfl hne⟩
  have hbelow := preserved_arraysBelow.run hfresh h
  refine ⟨(tracked_of_run hn h).2, fun hne => ?_, fun hne => ?_⟩
  · rw [← hindex]
    refine hbelow.index ?_
    obtain ⟨reg, regs, hregs⟩ := List.exists_cons_of_ne_nil hne
    rw [hindex, hregs, List.flatMap_cons]
    intro hnil
    have hlength := two_le_length_rowBytes reg
    rw [(List.append_eq_nil_iff.1 hnil).1] at hlength
    exact absurd hlength (by simp)
  · have hstream : lg.packer.runlengthBuffer
        = (emitted .initial (callEvents ops)).flatMap recordBytes := hrunlength
    rw [← hstream]
    refine hbelow.runlength ?_
    obtain ⟨rec, recs, hrecs⟩ := List.exists_cons_of_ne_nil hne
    rw [hstream, hrecs, List.flatMap_cons]
    intro hnil
    have hlength := length_recordBytes rec
    rw [(List.append_eq_nil_iff.1 hnil).1] at hlength
    exact absurd hlength (by simp)

/-- The only other ends of a call. -/
theorem step_error (hn : 1 ≤ n) {ops : List Op} {op : Op} {lg : Logger (RingbufferPacker n m r)}
    (hrun : Logger.run .fresh ops = .ok lg) {f : Fault} (h : lg.step op = .error f) :
    f = .abort ∨ f = .emptyQueue := by
  have htracked := (tracked_of_run hn hrun).1
  by_cases hlog : ∃ pos args, op = .log pos args ∧ ¬ CallFits lg pos args
  · obtain ⟨pos, args, rfl, hfits⟩ := hlog
    obtain ⟨hlarge, hroom⟩ := not_or.1 hfits
    have hempty := log_emptyQueue htracked.holds hn pos args hroom (Nat.le_of_not_lt hlarge)
    exact .inr (Except.error.inj (h.symm.trans hempty))
  · refine .inl ((step_yieldsOr hn hrun fun pos args hop => ?_).eq_of_error h)
    rw [htracked.holds.survives_iff hn]
    by_contra hfits
    exact hlog ⟨pos, args, hop, hfits⟩

end RingbufferPacker

/-- Every run on `ringbuffer_packer`: it returns if and only if it fits the buffers, and otherwise
    it ends in an `abort()` or asks the empty queue for its front. -/
theorem ringbuffer_returns_iff {n m r : Nat} (hn : 1 ≤ n) (ops : List Op) :
    ((∃ lg : Logger (RingbufferPacker n m r), Logger.run .fresh ops = .ok lg) ↔
      RunFits n m r ops) ∧
    ∀ f, Logger.run (.fresh : Logger (RingbufferPacker n m r)) ops = .error f →
      f = .abort ∨ f = .emptyQueue := by
  refine ⟨⟨fun ⟨lg, hlg⟩ => RingbufferPacker.runFits_of_run hn hlg, ?_⟩, ?_⟩
  · intro hfits
    induction ops using List.reverseRecOn with
    | nil => exact ⟨.fresh, rfl⟩
    | append_singleton ops op ih =>
      obtain ⟨lg, hlg⟩ := ih hfits.of_append
      obtain ⟨lg', hlg'⟩ := RingbufferPacker.exists_step hn hlg hfits
      exact ⟨lg', by rw [Logger.run_concat, hlg, ok_bind, hlg']⟩
  · intro f hf
    induction ops using List.reverseRecOn generalizing f with
    | nil => exact absurd hf (by simp [Logger.run])
    | append_singleton ops op ih =>
      rw [Logger.run_concat] at hf
      cases hrun : Logger.run (.fresh : Logger (RingbufferPacker n m r)) ops with
      | error f₀ =>
        rw [hrun, error_bind] at hf
        exact Except.error.inj hf ▸ ih f₀ hrun
      | ok lg =>
        rw [hrun, ok_bind] at hf
        exact RingbufferPacker.step_error hn hrun hf

/-- A row, a run of two calls and its record: one byte less of runlength buffer is an `abort()`. -/
theorem ringbuffer_returns_iff_two_calls :
    (∃ lg : Logger (RingbufferPacker 3 5 11), Logger.run .fresh [.logIndex (.literal [65]) [],
        .log 0 [], .log 0 [], .flush] = .ok lg) ∧
      ¬ ∃ lg : Logger (RingbufferPacker 3 5 10), Logger.run .fresh [.logIndex (.literal [65]) [],
        .log 0 [], .log 0 [], .flush] = .ok lg := by
  have hfits := ringbuffer_returns_iff (n := 3) (m := 5) (r := 11) (by decide)
    [.logIndex (.literal [65]) [], .log 0 [], .log 0 [], .flush]
  have hfails := ringbuffer_returns_iff (n := 3) (m := 5) (r := 10) (by decide)
    [.logIndex (.literal [65]) [], .log 0 [], .log 0 [], .flush]
  refine ⟨hfits.1.2 ⟨by decide, fun _ => by decide, fun _ => by decide⟩, fun hreturns => ?_⟩
  exact absurd ((hfails.1.1 hreturns).records (by decide)) (by decide)

/-! ## The queue of offsets -/

theorem length_offsets (base : Nat) (bs : List (List UInt8)) :
    (offsets base bs).length = bs.length := by
  induction bs generalizing base with
  | nil => rfl
  | cons b bs ih => rw [offsets, List.length_cons, List.length_cons, ih]

theorem length_le_length_flatten {bs : List (List UInt8)} (h : ∀ b ∈ bs, b ≠ []) :
    bs.length ≤ bs.flatten.length := by
  induction bs with
  | nil => exact Nat.zero_le _
  | cons b bs ih =>
    have hrest := ih (fun b' hb' => h b' (List.mem_cons_of_mem _ hb'))
    have hpos := List.length_pos_iff.2 (h b List.mem_cons_self)
    rw [List.flatten_cons, List.length_append, List.length_cons]
    omega

theorem RunState.Suppresses.increment {run : RunState} {index : Nat} (h : run.Suppresses index)
    (hlength : run.currentRunlength + 1 < 2 ^ 64) : run.increment.Suppresses index := by
  unfold RunState.Suppresses RunState.increment at *
  rw [Nat.mod_eq_of_lt hlength]
  split at h
  · next hzero => exact if_pos hzero ▸ Nat.succ_ne_zero _
  · next hother => exact if_neg hother ▸ h

namespace RingbufferPacker

variable {n m r : Nat}

/-- A call without arguments that goes on with the open run queues an offset and nothing else. -/
theorem log_of_suppresses (lg : Logger (RingbufferPacker n m r)) {pos : Nat}
    (h : lg.packer.run.Suppresses (pos % 2 ^ 16)) :
    lg.log pos [] = .ok { lg with
      packer := { lg.packer.beginEntry with run := lg.packer.run.increment } } := by
  have hpack : BinaryLog.packFormatStringIndex lg.packer (pos % 2 ^ 16)
      = .ok { lg.packer.beginEntry with run := lg.packer.run.increment } := by
    show packFormatStringIndexBody lg.packer.beginEntry (pos % 2 ^ 16) = _
    have hrun : (getRun lg.packer.beginEntry).Suppresses (pos % 2 ^ 16) := h
    rcases packFormatStringIndexBody_cases lg.packer.beginEntry (pos % 2 ^ 16) with
      ⟨-, hbody⟩ | ⟨hindex, hlength, hzero, -⟩ | ⟨hwritten, -⟩
    · exact hbody
    · rw [RunState.Suppresses, if_pos ⟨hindex, hzero⟩] at hrun
      exact absurd hlength hrun
    · exact absurd hrun hwritten
  rw [Logger.log_eq, hpack, ok_bind]
  rfl

theorem run_replicate (k pos : Nat) (lg : Logger (RingbufferPacker n m r))
    (h : lg.packer.run.Suppresses (pos % 2 ^ 16))
    (hk : lg.packer.run.currentRunlength + k < 2 ^ 64) :
    ∃ lg', lg.run (List.replicate k (.log pos [])) = .ok lg' ∧
      lg'.packer.buffer = lg.packer.buffer ∧
      lg'.packer.logBufferIndices.length = lg.packer.logBufferIndices.length + k := by
  induction k generalizing lg with
  | zero => exact ⟨lg, rfl, rfl, rfl⟩
  | succ k ih =>
    have hlength : lg.packer.run.currentRunlength + 1 < 2 ^ 64 := by omega
    have hcount : lg.packer.run.increment.currentRunlength
        = lg.packer.run.currentRunlength + 1 := Nat.mod_eq_of_lt hlength
    obtain ⟨lg', hrun, hbuffer, hindices⟩ := ih
      { lg with packer := { lg.packer.beginEntry with run := lg.packer.run.increment } }
      (h.increment hlength) (by show lg.packer.run.increment.currentRunlength + k < _; omega)
    refine ⟨lg', ?_, hbuffer, ?_⟩
    · rw [List.replicate_succ, Logger.run, List.foldlM_cons]
      show (lg.log pos [] >>= _) = _
      rw [log_of_suppresses lg h, ok_bind]
      exact hrun
    · rw [hindices, RingbufferPacker.beginEntry, List.length_append, List.length_singleton]
      omega

end RingbufferPacker

/-- The memory of the ring buffer after any run that returns: the deque holds the last entries that
    fit, the queue the offset of each of them in the log stream. While no entry is empty these are
    at most as many offsets as bytes, and fewer than the buffer size; but every further call without
    arguments that goes on with the open run makes the queue longer, for any buffer size, and evicts
    nothing. -/
theorem ringbuffer_queue {n m r : Nat} (hn : 1 ≤ n) (ops : List Op)
    (lg : Logger (RingbufferPacker n m r)) (h : Logger.run .fresh ops = .ok lg) :
    lg.packer.buffer = (trim n 0 (entries .initial (callEvents ops))).flatten ∧
    lg.packer.logBufferIndices = offsets
      ((entries .initial (callEvents ops)).flatten.length - lg.packer.buffer.length)
      (trim n 0 (entries .initial (callEvents ops))) ∧
    ((∀ e ∈ entries .initial (callEvents ops), e ≠ []) →
      lg.packer.logBufferIndices.length ≤ lg.packer.buffer.length ∧
        lg.packer.logBufferIndices.length < n) ∧
    ∀ k pos, lg.packer.run.Suppresses (pos % 2 ^ 16) →
      lg.packer.run.currentRunlength + k < 2 ^ 64 →
      ∃ lg', lg.run (List.replicate k (.log pos [])) = .ok lg' ∧
        lg'.packer.buffer = lg.packer.buffer ∧
        lg'.packer.logBufferIndices.length = lg.packer.logBufferIndices.length + k := by
  have hbytes := (RingbufferPacker.refinement.run h).bufferIndex
  rw [Streams.log_runOps] at hbytes
  obtain ⟨kept, base, hwindow, hbuffer, hindices, hindex⟩ :=
    (RingbufferPacker.tracked_of_run hn h).1.holds
  have hbase : (entries .initial (callEvents ops)).flatten.length - lg.packer.buffer.length
      = base := by
    have htotal : lg.packer.bufferIndex
        = (entries .initial (callEvents ops)).flatten.length := hbytes
    rw [← htotal, hindex, hbuffer, Nat.add_sub_cancel]
  rw [hwindow.trim_eq]
  refine ⟨hbuffer, by rw [hbase, hindices], fun hne => ?_, fun k pos hsup hk =>
    RingbufferPacker.run_replicate k pos lg hsup hk⟩
  obtain ⟨dropped, hsplit, -⟩ := hwindow.suffix
  have hle : kept.length ≤ kept.flatten.length := length_le_length_flatten (fun b hb => hne b (by
    rw [hsplit]
    exact List.mem_append_right _ hb))
  rw [hindices, length_offsets, hbuffer]
  refine ⟨hle, ?_⟩
  rcases eq_or_ne kept [] with rfl | hkept
  · exact hn
  · exact hle.trans_lt (hwindow.below hkept)

/-- After one call of a row three more of them leave the two bytes of the header in the deque and
    four offsets in the queue. -/
theorem ringbuffer_queue_four :
    ∃ lg lg' : Logger (RingbufferPacker 3 5 11), Logger.run .fresh [.log 0 []] = .ok lg ∧
      lg.run (List.replicate 3 (.log 0 [])) = .ok lg' ∧ lg'.packer.buffer = [0, 0] ∧
      lg'.packer.logBufferIndices.length = 4 := by
  obtain ⟨hbuffer, -, -, hgrows⟩ := ringbuffer_queue (n := 3) (m := 5) (r := 11) (by decide)
    [.log 0 []] _ rfl
  obtain ⟨lg', hrun, hsame, hlength⟩ := hgrows 3 0 (by decide) (by decide)
  exact ⟨_, lg', rfl, hrun, hsame.trans hbuffer, hlength⟩

end BinaryLog
