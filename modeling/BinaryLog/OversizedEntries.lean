import BinaryLog.RingWindow

set_option autoImplicit false

/-! # Entries as large as the ring buffer

The eviction loop of `buffer_or_write` drops whole entries until the write fits, and the queue it
takes their offsets from ends with the entry being written. So an entry that would reach the buffer
size evicts everything in front of it and then asks an empty queue for its front
(`bufferOrWrite_emptyQueue`); the cap `std::min(size, log_buffer_size)` behind the loop is never
reached. `ringbuffer_survives_iff` is the resulting bound on the calls of a run. -/

namespace BinaryLog

open Bytes Simulation Window

namespace RingbufferPacker

variable {n m r : Nat}

/-! ## Writes -/

/-- With the entry being written alone in the buffer, the next round has no second offset. -/
theorem evict_emptyQueue {size : Nat} (front : List (List UInt8)) {last : List UInt8}
    (hlast : n ≤ last.length + size) (base : Nat) :
    evict n size (offsets base (front ++ [last])) (front ++ [last]).flatten
      = .error .emptyQueue := by
  induction front generalizing base with
  | nil =>
    rw [List.nil_append, offsets, offsets, evict, if_pos (by simpa using hlast)]
  | cons b front ih =>
    obtain ⟨rest, hcons⟩ : ∃ rest,
        offsets (base + b.length) (front ++ [last]) = (base + b.length) :: rest := by
      cases front with
      | nil => exact ⟨_, rfl⟩
      | cons b' front => exact ⟨_, rfl⟩
    have hfull : n ≤ (b :: front ++ [last]).flatten.length + size := by
      simp only [List.cons_append, List.flatten_cons, List.flatten_append, List.flatten_nil,
        List.append_nil, List.length_append]
      omega
    have hdist : base + b.length - base = b.length := Nat.add_sub_cancel_left base b.length
    have hdrop : (b :: front ++ [last]).flatten.drop b.length = (front ++ [last]).flatten := by
      simp
    rw [List.cons_append, offsets, hcons, ← List.cons_append, evict, if_pos hfull, hdist,
      if_pos (by simp), hdrop, ← hcons, ih]

theorem bufferOrWrite_emptyQueue {p : RingbufferPacker n m r} {done : List (List UInt8)}
    {last input : List UInt8} (h : p.Holds (done ++ [last]))
    (hlast : n ≤ last.length + input.length) : p.bufferOrWrite input = .error .emptyQueue := by
  obtain ⟨kept, base, hwindow, hbuffer, hindices, -⟩ := h
  obtain ⟨front, rfl⟩ := hwindow.exists_concat
  rw [RingbufferPacker.bufferOrWrite, hindices, hbuffer, evict_emptyQueue front hlast base,
    error_bind]

/-- Some write of an entry that reaches the buffer size fails. -/
theorem foldlM_bufferOrWrite_emptyQueue {p : RingbufferPacker n m r} {done : List (List UInt8)}
    {last : List UInt8} (ws : List (List UInt8)) (h : p.Holds (done ++ [last]))
    (hlast : last.length < n) (hws : n ≤ last.length + ws.flatten.length) :
    ws.foldlM BinaryLog.bufferOrWrite p = .error .emptyQueue := by
  induction ws generalizing p last with
  | nil => exact absurd hws (by simpa using hlast)
  | cons w ws ih =>
    rw [List.flatten_cons, List.length_append] at hws
    rw [List.foldlM_cons]
    by_cases hw : last.length + w.length < n
    · obtain ⟨q, hq, hholds, -⟩ := bufferOrWrite_holds h hw
      rw [show BinaryLog.bufferOrWrite p w = .ok q from hq, ok_bind]
      exact ih hholds (by rwa [List.length_append]) (by rw [List.length_append]; omega)
    · rw [show BinaryLog.bufferOrWrite p w = .error .emptyQueue from
        bufferOrWrite_emptyQueue h (Nat.le_of_not_lt hw), error_bind]

/-! ## Calls -/

/-- Opening an entry with this id closes a run whose record does not fit the runlength buffer: the
    call ends in `abort()` before it writes to the log. -/
def AbortsFirst (p : RingbufferPacker n m r) (index : Nat) : Prop :=
  ¬ p.run.Suppresses index ∧ 1 < p.run.currentRunlength ∧ r ≤ p.runlengthBuffer.length + 10

instance (p : RingbufferPacker n m r) (index : Nat) : Decidable (p.AbortsFirst index) := by
  unfold AbortsFirst; infer_instance

theorem writeCurrentRunlength_outcomes {p : RingbufferPacker n m r} {blocks : List (List UInt8)}
    (h : p.Holds blocks) :
    (1 < p.run.currentRunlength ∧ r ≤ p.runlengthBuffer.length + 10 ∧
      BinaryLog.writeCurrentRunlengthToRunlengthFile p = .error .abort) ∨
    (¬ (1 < p.run.currentRunlength ∧ r ≤ p.runlengthBuffer.length + 10) ∧
      ∃ q, BinaryLog.writeCurrentRunlengthToRunlengthFile p = .ok q ∧ q.Holds blocks) := by
  show (_ ∧ _ ∧ p.writeCurrentRunlengthToRunlengthFile = _) ∨
    (_ ∧ ∃ q, p.writeCurrentRunlengthToRunlengthFile = .ok q ∧ _)
  rw [RingbufferPacker.writeCurrentRunlengthToRunlengthFile, RunState.length_recordBytes]
  by_cases hlong : 1 < p.run.currentRunlength
  · rw [if_pos hlong]
    by_cases hfull : r ≤ p.runlengthBuffer.length + 10
    · exact .inl ⟨hlong, hfull, if_pos hfull⟩
    · exact .inr ⟨fun hboth => hfull hboth.2, _, if_neg hfull, h.of_same rfl rfl rfl⟩
  · exact .inr ⟨fun hboth => hlong hboth.1, _, if_neg hlong, h⟩

/-- A new entry either goes on with the open run, or runs into the `abort()`, or writes its header
    into an empty block at the end of the window. -/
theorem packFormatStringIndex_outcomes {p : RingbufferPacker n m r} {blocks : List (List UInt8)}
    (h : p.Holds blocks) (hn : 0 < n) (index : Nat) :
    (p.run.Suppresses index ∧ ∃ q, p.packFormatStringIndex index = .ok q) ∨
    (p.AbortsFirst index ∧ p.packFormatStringIndex index = .error .abort) ∨
    (¬ p.run.Suppresses index ∧ ¬ p.AbortsFirst index ∧
      ∃ (q : RingbufferPacker n m r) (run : RingbufferPacker n m r → RunState),
        q.Holds (blocks ++ [[]]) ∧
        p.packFormatStringIndex index
          = (q.bufferOrWrite (headerBytes index) >>= fun q' => .ok (setRun q' (run q')))) := by
  have hbegin := h.beginEntry hn
  have hcases := packFormatStringIndexBody_cases p.beginEntry index
  rw [show getRun p.beginEntry = p.run from rfl] at hcases
  rw [RingbufferPacker.packFormatStringIndex]
  rcases hcases with ⟨hsup, hbody⟩ | ⟨hindex, hlength, rfl, hbody⟩ | ⟨hwritten, hbody⟩
  · exact .inl ⟨hsup, _, hbody⟩
  · refine .inr (.inr ⟨?_, ?_, _, _, hbegin, hbody⟩)
    · rw [RunState.Suppresses, if_pos ⟨hindex, rfl⟩]
      exact fun hne => hne hlength
    · rintro ⟨-, hlong, -⟩
      omega
  · rcases writeCurrentRunlength_outcomes hbegin with
      ⟨hlong, hfull, habort⟩ | ⟨hroom, q, hq, hholds⟩
    · exact .inr (.inl ⟨⟨hwritten, hlong, hfull⟩, by rw [hbody, habort, error_bind]⟩)
    · refine .inr (.inr
        ⟨hwritten, fun haborts => hroom haborts.2, q, fun _ => ⟨index, 1⟩, hholds, ?_⟩)
      rw [hbody, hq, ok_bind]
      rfl

/-- A call whose entry reaches the buffer size asks the empty queue for its front. -/
theorem log_emptyQueue {lg : Logger (RingbufferPacker n m r)} {blocks : List (List UInt8)}
    (h : lg.packer.Holds blocks) (hn : 0 < n) (pos : Nat) (args : List Arg)
    (hroom : ¬ lg.packer.AbortsFirst (pos % 2 ^ 16))
    (hlarge : n ≤ (lg.packer.run.entryBytes ⟨pos % 2 ^ 16, args⟩).length) :
    lg.log pos args = .error .emptyQueue := by
  rw [RunState.entryBytes, List.length_append] at hlarge
  rw [Logger.log_eq]
  show (lg.packer.packFormatStringIndex (pos % 2 ^ 16) >>= _) = _
  by_cases hheader : (lg.packer.run.header (pos % 2 ^ 16)).length < n
  · -- the header is written, and one of the arguments fails
    have hopen := packFormatStringIndex_holds h (pos % 2 ^ 16) hheader
    obtain ⟨q, hq⟩ : ∃ q, lg.packer.packFormatStringIndex (pos % 2 ^ 16) = .ok q := by
      rcases packFormatStringIndex_outcomes h hn (pos % 2 ^ 16) with ⟨-, hq⟩ | ⟨haborts, -⟩ |
        ⟨hwritten, -, q, run, hholds, hpack⟩
      · exact hq
      · exact absurd haborts hroom
      · rw [RunState.header, if_neg hwritten] at hheader
        have hfits : ([] : List UInt8).length + (headerBytes (pos % 2 ^ 16)).length < n := by
          simpa using hheader
        obtain ⟨q', hq', -⟩ := bufferOrWrite_holds hholds hfits
        exact ⟨_, by rw [hpack, hq', ok_bind]⟩
    have hfails := foldlM_bufferOrWrite_emptyQueue (args.flatMap Arg.logWrites) (hopen.of_ok hq).1
      hheader (by simpa [Call.argBytes] using hlarge)
    rw [hq, ok_bind, hfails, error_bind]
  · have hwritten : ¬ lg.packer.run.Suppresses (pos % 2 ^ 16) := by
      intro hsup
      rw [RunState.header, if_pos hsup] at hheader
      exact hheader hn
    rcases packFormatStringIndex_outcomes h hn (pos % 2 ^ 16) with ⟨hsup, -⟩ | ⟨haborts, -⟩ |
      ⟨-, -, q, run, hholds, hpack⟩
    · exact absurd hsup hwritten
    · exact absurd haborts hroom
    · rw [RunState.header, if_neg hwritten] at hheader
      rw [hpack, bufferOrWrite_emptyQueue hholds (by simpa using hheader), error_bind, error_bind]

theorem packFormatStringIndex_abort {p : RingbufferPacker n m r} {blocks : List (List UInt8)}
    (h : p.Holds blocks) (hn : 0 < n) {index : Nat} (haborts : p.AbortsFirst index) :
    BinaryLog.packFormatStringIndex p index = .error .abort := by
  rcases packFormatStringIndex_outcomes h hn index with ⟨hsup, -⟩ | ⟨-, hpack⟩ | ⟨-, hroom, -⟩
  · exact absurd hsup haborts.1
  · exact hpack
  · exact absurd haborts hroom

/-! ## Runs -/

/-- The log call ends by returning or in an `abort()`, not in the eviction loop, and no more than
    `log_buffer_size` bytes are in the buffer after any of its writes. -/
structure Survives (lg : Logger (RingbufferPacker n m r)) (pos : Nat) (args : List Arg) : Prop where
  outcome : YieldsOr .abort (fun _ => True) (lg.log pos args)
  capped : ∀ p, BinaryLog.packFormatStringIndex lg.packer (pos % 2 ^ 16) = .ok p →
    ∀ ws, ws <+: args.flatMap Arg.logWrites →
      ∀ p', ws.foldlM BinaryLog.bufferOrWrite p = .ok p' → p'.buffer.length ≤ n

/-- The entry of the call stays below the buffer size, or is never begun. -/
def CallFits (lg : Logger (RingbufferPacker n m r)) (pos : Nat) (args : List Arg) : Prop :=
  (lg.packer.run.entryBytes ⟨pos % 2 ^ 16, args⟩).length < n ∨
    lg.packer.AbortsFirst (pos % 2 ^ 16)

instance (lg : Logger (RingbufferPacker n m r)) (pos : Nat) (args : List Arg) :
    Decidable (CallFits lg pos args) := by
  unfold CallFits; infer_instance

theorem Holds.survives_iff {lg : Logger (RingbufferPacker n m r)} {blocks : List (List UInt8)}
    (h : lg.packer.Holds blocks) (hn : 0 < n) (pos : Nat) (args : List Arg) :
    Survives lg pos args ↔ CallFits lg pos args := by
  constructor
  · intro hsurvives
    by_contra hfits
    obtain ⟨hlarge, hroom⟩ := not_or.1 hfits
    have hempty := log_emptyQueue h hn pos args hroom (Nat.le_of_not_lt hlarge)
    exact absurd (hsurvives.outcome.eq_of_error hempty) (by decide)
  · rintro (hsmall | haborts)
    · rw [RunState.entryBytes, List.length_append] at hsmall
      have hopen := packFormatStringIndex_holds h (pos % 2 ^ 16)
        (Nat.lt_of_le_of_lt (Nat.le_add_right _ _) hsmall)
      refine ⟨?_, ?_⟩
      · rw [Logger.log_eq]
        refine hopen.bind ?_
        rintro q ⟨hq, -⟩
        obtain ⟨q', hq', -⟩ := foldlM_bufferOrWrite_holds (args.flatMap Arg.logWrites) hq hsmall
        rw [hq', ok_bind]
        trivial
      · intro p hp ws hws p' hp'
        have hbytes := length_partialWrites hws (pos % 2 ^ 16)
        obtain ⟨q, hq, hholds, -⟩ := foldlM_bufferOrWrite_holds ws (hopen.of_ok hp).1
          (Nat.lt_of_le_of_lt (Nat.add_le_add_left hbytes _) hsmall)
        obtain rfl := Except.ok.inj (hq.symm.trans hp')
        exact (hholds.sound (by simp)).below.le
    · have hpack := packFormatStringIndex_abort h hn haborts
      refine ⟨?_, fun p hp => ?_⟩
      · rw [Logger.log_eq, hpack, error_bind]
        rfl
      · rw [hpack] at hp
        exact absurd hp (by simp)

theorem Holds.length_buffer_le {p : RingbufferPacker n m r} {blocks : List (List UInt8)}
    (h : p.Holds blocks) : p.buffer.length ≤ n := by
  obtain ⟨kept, base, hwindow, hbuffer, -, -⟩ := h
  rw [hbuffer]
  rcases eq_or_ne kept [] with rfl | hne
  · exact Nat.zero_le n
  · exact (hwindow.below hne).le

/-- A log call that returns has written an entry below the buffer size. -/
theorem length_entryBytes_of_log {lg lg' : Logger (RingbufferPacker n m r)}
    {blocks : List (List UInt8)} (h : lg.packer.Holds blocks) (hn : 0 < n) {pos : Nat}
    {args : List Arg} (hlog : lg.log pos args = .ok lg') :
    (lg.packer.run.entryBytes ⟨pos % 2 ^ 16, args⟩).length < n := by
  by_cases haborts : lg.packer.AbortsFirst (pos % 2 ^ 16)
  · rw [Logger.log_eq, packFormatStringIndex_abort h hn haborts, error_bind] at hlog
    exact absurd hlog (by simp)
  · by_contra hlarge
    rw [log_emptyQueue h hn pos args haborts (Nat.le_of_not_lt hlarge)] at hlog
    exact absurd hlog (by simp)

/-- A run that returns has written small entries only, and has kept the window. -/
theorem tracked_of_run (hn : 0 < n) {ops : List Op} {lg : Logger (RingbufferPacker n m r)}
    (h : Logger.run .fresh ops = .ok lg) :
    lg.packer.Tracked ops ∧ ∀ e ∈ entries .initial (callEvents ops), e.length < n := by
  induction ops using List.reverseRecOn generalizing lg with
  | nil =>
    obtain rfl := Except.ok.inj h
    exact ⟨⟨fresh_holds, rfl⟩, by simp [callEvents, entries]⟩
  | append_singleton ops op ih =>
    rw [Logger.run_concat, bind_eq_ok] at h
    obtain ⟨lg₀, hlg₀, hstep⟩ := h
    obtain ⟨htracked, hsmall⟩ := ih hlg₀
    have hsmall' : ∀ e ∈ entries .initial (callEvents (ops ++ [op])), e.length < n := by
      intro e he
      cases op with
      | logIndex formatString args =>
        rw [callEvents_concat, entries_append] at he
        exact hsmall e ((List.mem_append.1 he).resolve_right List.not_mem_nil)
      | log pos args =>
        rw [entries_concat_log] at he
        rcases List.mem_append.1 he with he | he
        · exact hsmall e he
        · rw [List.mem_singleton.1 he, ← htracked.run]
          exact length_entryBytes_of_log htracked.holds hn hstep
      | flush =>
        rw [callEvents_concat, entries_append] at he
        exact hsmall e ((List.mem_append.1 he).resolve_right List.not_mem_nil)
    exact ⟨(step_tracked htracked hsmall').of_ok hstep, hsmall'⟩

/-- One more call of a run fails by `abort()` only, if its log calls survive. -/
theorem step_yieldsOr (hn : 0 < n) {ops : List Op} {op : Op} {lg : Logger (RingbufferPacker n m r)}
    (h : Logger.run .fresh ops = .ok lg)
    (hsurvives : ∀ pos args, op = .log pos args → Survives lg pos args) :
    YieldsOr .abort (fun _ => True) (lg.step op) := by
  obtain ⟨htracked, hsmall⟩ := tracked_of_run hn h
  have hquiet : callEvents (ops ++ [op]) = callEvents ops ∨
      callEvents (ops ++ [op]) = callEvents ops ++ [.mark] →
      YieldsOr .abort (fun _ => True) (lg.step op) := by
    intro hevents
    refine (step_tracked htracked (fun e he => hsmall e ?_)).imp (fun _ _ => trivial)
    rcases hevents with hevents | hevents
    · rwa [hevents] at he
    · rwa [hevents, entries_concat_mark] at he
  cases op with
  | logIndex formatString args =>
    refine hquiet (.inl ?_)
    rw [callEvents_concat]
    exact List.append_nil _
  | log pos args => exact (hsurvives pos args rfl).outcome
  | flush => exact hquiet (.inr (callEvents_concat ops .flush))

end RingbufferPacker

/-- In every run on `ringbuffer_packer` the log calls reached survive if and only if the entries
    they begin are all shorter than the log buffer. Then the run can fail by `abort()` only, and
    every state it reaches has at most `log_buffer_size` bytes in the buffer. -/
theorem ringbuffer_survives_iff {n m r : Nat} (hn : 1 ≤ n) (ops : List Op) :
    ((∀ ops₀ pos args, ops₀ ++ [.log pos args] <+: ops →
        ∀ lg : Logger (RingbufferPacker n m r), Logger.run .fresh ops₀ = .ok lg →
          RingbufferPacker.Survives lg pos args) ↔
      ∀ ops₀ pos args, ops₀ ++ [.log pos args] <+: ops →
        ∀ lg : Logger (RingbufferPacker n m r), Logger.run .fresh ops₀ = .ok lg →
          RingbufferPacker.CallFits lg pos args) ∧
    ((∀ ops₀ pos args, ops₀ ++ [.log pos args] <+: ops →
        ∀ lg : Logger (RingbufferPacker n m r), Logger.run .fresh ops₀ = .ok lg →
          RingbufferPacker.CallFits lg pos args) →
      ∀ ops₀, ops₀ <+: ops →
        YieldsOr .abort (fun lg : Logger (RingbufferPacker n m r) => lg.packer.buffer.length ≤ n)
          (Logger.run .fresh ops₀)) := by
  have hstep : ∀ ops₀ pos args (lg : Logger (RingbufferPacker n m r)),
      Logger.run .fresh ops₀ = .ok lg →
        (RingbufferPacker.Survives lg pos args ↔ RingbufferPacker.CallFits lg pos args) :=
    fun ops₀ pos args lg hlg =>
      (RingbufferPacker.tracked_of_run hn hlg).1.holds.survives_iff hn pos args
  refine ⟨⟨fun h ops₀ pos args hpre lg hlg => (hstep ops₀ pos args lg hlg).1 (h _ _ _ hpre lg hlg),
    fun h ops₀ pos args hpre lg hlg => (hstep ops₀ pos args lg hlg).2 (h _ _ _ hpre lg hlg)⟩, ?_⟩
  intro hfits ops₀ hpre
  induction ops₀ using List.reverseRecOn with
  | nil => exact Nat.zero_le n
  | append_singleton ops₀ op ih =>
    have hrest := ih ((List.prefix_append ops₀ [op]).trans hpre)
    cases hrun : Logger.run (.fresh : Logger (RingbufferPacker n m r)) (ops₀ ++ [op]) with
    | ok lg => exact (RingbufferPacker.tracked_of_run hn hrun).1.holds.length_buffer_le
    | error f =>
      rw [Logger.run_concat] at hrun
      cases hrun₀ : Logger.run (.fresh : Logger (RingbufferPacker n m r)) ops₀ with
      | error f₀ =>
        rw [hrun₀, error_bind] at hrun
        exact Except.error.inj hrun ▸ hrest.eq_of_error hrun₀
      | ok lg =>
        have hone : YieldsOr .abort (fun _ => True) (lg.step op) :=
          RingbufferPacker.step_yieldsOr hn hrun₀ (fun pos args hop =>
            (hstep ops₀ pos args lg hrun₀).2 (hfits ops₀ pos args (hop ▸ hpre) lg hrun₀))
        rw [hrun₀, ok_bind] at hrun
        exact hone.eq_of_error hrun

/-- An entry of seven bytes and a buffer of eight. -/
theorem ringbuffer_survives_seven :
    RingbufferPacker.Survives (.fresh : Logger (RingbufferPacker 8 32 32)) 0
      [.dynamic (.string [1, 2, 3])] := by
  refine (ringbuffer_survives_iff (by decide) [.log 0 [.dynamic (.string [1, 2, 3])]]).1.2 ?_ [] 0
    [.dynamic (.string [1, 2, 3])] List.prefix_rfl .fresh rfl
  intro ops₀ pos args hpre lg hlg
  have hnil : ops₀ = [] := by
    have hlength := hpre.length_le
    rw [List.length_append] at hlength
    exact List.eq_nil_of_length_eq_zero (Nat.le_zero.1 (Nat.le_of_succ_le_succ hlength))
  subst hnil
  obtain ⟨rest, hrest⟩ := hpre
  obtain ⟨rfl, rfl⟩ := Op.log.inj (List.cons.inj hrest).1
  obtain rfl := Except.ok.inj hlg
  decide

/-- An entry of ten bytes evicts everything and asks the empty queue for its front. -/
theorem ringbuffer_fails_at_ten :
    (Logger.fresh : Logger (RingbufferPacker 8 32 32)).log 0
        [.dynamic (.string [1, 2, 3, 4, 5, 6])] = .error .emptyQueue ∧
      ¬ RingbufferPacker.Survives (.fresh : Logger (RingbufferPacker 8 32 32)) 0
        [.dynamic (.string [1, 2, 3, 4, 5, 6])] :=
  ⟨rfl, fun h => absurd (h.outcome.eq_of_error rfl) (by decide)⟩

end BinaryLog
