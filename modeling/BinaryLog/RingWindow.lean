import BinaryLog.Lib.Window
import BinaryLog.Recovery

set_option autoImplicit false

/-! # What the ring buffer keeps

The log buffer of `ringbuffer_packer` is a sliding window over the entries of the log stream
(`RingbufferPacker.Holds`): `log_buffer_indices` queues the offsets of the entries it keeps, the
last of which may still be in the middle of being written. As long as every entry is shorter than
the buffer, the eviction loop stops before it would drop the entry being written, so it never finds
its queue or its deque empty (`bufferOrWrite_holds`), and the buffer is the longest suffix of whole
entries that fits (`ringbuffer_keeps_newest_entries`). -/

namespace BinaryLog

open Bytes Simulation Window

namespace RingbufferPacker

variable {n m r : Nat}

/-! ## The window -/

/-- The deque holds the last of the blocks, and the queue the offsets of those it holds. -/
def Holds (p : RingbufferPacker n m r) (blocks : List (List UInt8)) : Prop :=
  ∃ kept base, IsWindow n blocks kept ∧ p.buffer = kept.flatten ∧
    p.logBufferIndices = offsets base kept ∧ p.bufferIndex = base + kept.flatten.length

/-- `m_buffer` is shorter than the log buffer size and reaches back to the offset in front of
    `log_buffer_indices`. -/
structure Sound (p : RingbufferPacker n m r) : Prop where
  below : p.buffer.length < n
  front : ∃ first rest, p.logBufferIndices = first :: rest ∧ first ≤ p.bufferIndex ∧
    p.buffer.length = p.bufferIndex - first

theorem Holds.sound {p : RingbufferPacker n m r} {blocks : List (List UInt8)} (h : p.Holds blocks)
    (hne : blocks ≠ []) : p.Sound := by
  obtain ⟨kept, base, hwindow, hbuffer, hindices, hindex⟩ := h
  have hkept := hwindow.ne_nil hne
  obtain ⟨b, bs, rfl⟩ := List.exists_cons_of_ne_nil hkept
  refine ⟨by rw [hbuffer]; exact hwindow.below hkept, base, _, hindices, by omega, ?_⟩
  rw [hbuffer, hindex]
  omega

theorem Holds.of_same {p p' : RingbufferPacker n m r} {blocks : List (List UInt8)}
    (h : p.Holds blocks) (hbuffer : p'.buffer = p.buffer)
    (hindices : p'.logBufferIndices = p.logBufferIndices)
    (hindex : p'.bufferIndex = p.bufferIndex) : p'.Holds blocks := by
  rw [Holds, hbuffer, hindices, hindex]
  exact h

theorem fresh_holds : (fresh : RingbufferPacker n m r).Holds [] :=
  ⟨[], 0, IsWindow.nil, rfl, rfl, rfl⟩

/-- The start of an entry is queued while the entry is still empty. -/
theorem Holds.beginEntry {p : RingbufferPacker n m r} {blocks : List (List UInt8)}
    (h : p.Holds blocks) (hn : 0 < n) : p.beginEntry.Holds (blocks ++ [[]]) := by
  obtain ⟨kept, base, hwindow, hbuffer, hindices, hindex⟩ := h
  refine ⟨kept ++ [[]], base, hwindow.push hn, ?_, ?_, ?_⟩
  · simpa [RingbufferPacker.beginEntry] using hbuffer
  · rw [offsets_append, ← hindices, ← hindex]
    rfl
  · simpa [RingbufferPacker.beginEntry] using hindex

/-- The eviction loop is `trim`, on offsets and bytes. -/
theorem evict_offsets {size : Nat} (front : List (List UInt8)) {last : List UInt8}
    (hlast : last.length + size < n) (base : Nat) :
    ∃ base', evict n size (offsets base (front ++ [last])) (front ++ [last]).flatten
        = .ok (offsets base' (trim n size (front ++ [last])),
            (trim n size (front ++ [last])).flatten) ∧
      base' + (trim n size (front ++ [last])).flatten.length
        = base + (front ++ [last]).flatten.length := by
  induction front generalizing base with
  | nil =>
    have hroom : ¬ n ≤ [last].flatten.length + size := by simpa using hlast
    refine ⟨base, ?_, ?_⟩
    · rw [List.nil_append, trim, if_neg hroom, offsets, offsets, evict, if_neg hroom]
    · rw [List.nil_append, trim, if_neg hroom]
  | cons b front ih =>
    obtain ⟨second, rest, hcons⟩ :
        ∃ second rest, offsets (base + b.length) (front ++ [last]) = second :: rest ∧
          second = base + b.length := by
      cases front with
      | nil => exact ⟨_, _, rfl, rfl⟩
      | cons b' front => exact ⟨_, _, rfl, rfl⟩
    obtain ⟨hoffsets, rfl⟩ := hcons
    rw [List.cons_append, offsets, hoffsets, trim, evict]
    split
    · next hfull =>
      obtain ⟨base', hevict, hbase⟩ := ih (base + b.length)
      have hdist : base + b.length - base = b.length := by omega
      have hdrop : (b :: (front ++ [last])).flatten.drop b.length = (front ++ [last]).flatten := by
        simp
      refine ⟨base', ?_, ?_⟩
      · rw [hdist, if_pos (by simp), hdrop, ← hoffsets, hevict]
      · rw [hbase, List.flatten_cons, List.length_append]
        omega
    · exact ⟨base, by rw [offsets, hoffsets], rfl⟩

/-- A write into an entry that stays shorter than the buffer always returns. -/
theorem bufferOrWrite_holds {p : RingbufferPacker n m r} {done : List (List UInt8)}
    {last input : List UInt8} (h : p.Holds (done ++ [last]))
    (hlast : last.length + input.length < n) :
    ∃ p', p.bufferOrWrite input = .ok p' ∧ p'.Holds (done ++ [last ++ input]) ∧ p'.run = p.run := by
  obtain ⟨kept, base, hwindow, hbuffer, hindices, hindex⟩ := h
  obtain ⟨front, front', rfl, htrim, hwindow'⟩ := hwindow.grow hlast
  obtain ⟨base', hevict, hbase⟩ := evict_offsets front hlast base
  rw [htrim, ← hindices, ← hbuffer] at hevict
  rw [htrim, ← hindex] at hbase
  refine ⟨_, bufferOrWrite_of_evict hevict, ?_, rfl⟩
  refine ⟨front' ++ [last ++ input], base', hwindow', by simp, ?_, ?_⟩
  · simp only [offsets_append, offsets]
  · simp only [List.flatten_append, List.flatten_cons, List.flatten_nil, List.append_nil,
      List.length_append] at hbase ⊢
    omega

theorem foldlM_bufferOrWrite_holds {p : RingbufferPacker n m r} {done : List (List UInt8)}
    {last : List UInt8} (ws : List (List UInt8)) (h : p.Holds (done ++ [last]))
    (hlast : last.length + ws.flatten.length < n) :
    ∃ p', ws.foldlM BinaryLog.bufferOrWrite p = .ok p' ∧
      p'.Holds (done ++ [last ++ ws.flatten]) ∧ p'.run = p.run := by
  induction ws generalizing p last with
  | nil => exact ⟨p, rfl, by simpa using h, rfl⟩
  | cons w ws ih =>
    rw [List.flatten_cons, List.length_append] at hlast
    have hw : last.length + w.length < n := by omega
    obtain ⟨p₁, hp₁, hholds₁, hrun₁⟩ := bufferOrWrite_holds h hw
    obtain ⟨p', hp', hholds', hrun'⟩ := ih hholds₁ (by rw [List.length_append]; omega)
    have hwrite : BinaryLog.bufferOrWrite p w = .ok p₁ := hp₁
    refine ⟨p', by rw [List.foldlM_cons, hwrite, ok_bind, hp'], ?_, hrun'.trans hrun₁⟩
    rw [List.flatten_cons, ← List.append_assoc]
    exact hholds'

/-! ## Opening an entry -/

theorem writeCurrentRunlength_holds {p : RingbufferPacker n m r} {blocks : List (List UInt8)}
    (h : p.Holds blocks) :
    YieldsOr .abort (fun p' : RingbufferPacker n m r => p'.Holds blocks ∧ p'.run = p.run.reset)
      p.writeCurrentRunlengthToRunlengthFile := by
  unfold RingbufferPacker.writeCurrentRunlengthToRunlengthFile RunState.reset
  split
  · split
    · rfl
    · exact ⟨h.of_same rfl rfl rfl, rfl⟩
  · exact ⟨h, rfl⟩

/-- Opening an entry writes its header, and the only way to fail is a full runlength buffer. -/
theorem packFormatStringIndex_holds {p : RingbufferPacker n m r} {blocks : List (List UInt8)}
    (h : p.Holds blocks) (index : Nat) (hheader : (p.run.header index).length < n) :
    YieldsOr .abort (fun p' : RingbufferPacker n m r =>
        p'.Holds (blocks ++ [p.run.header index]) ∧ p'.run = p.run.next index)
      (p.packFormatStringIndex index) := by
  have hbegin : p.beginEntry.Holds (blocks ++ [[]]) := h.beginEntry (by omega)
  have hwrite : ∀ q : RingbufferPacker n m r, ¬ p.run.Suppresses index → q.Holds (blocks ++ [[]]) →
      ∃ q', BinaryLog.bufferOrWrite q (headerBytes index) = .ok q' ∧
        q'.Holds (blocks ++ [p.run.header index]) ∧ q'.run = q.run := by
    intro q hwritten hq
    rw [RunState.header, if_neg hwritten] at hheader ⊢
    rw [length_headerBytes] at hheader
    exact bufferOrWrite_holds hq (by simpa using hheader)
  have hrun : getRun p.beginEntry = p.run := rfl
  have hcases := packFormatStringIndexBody_cases p.beginEntry index
  rw [hrun] at hcases
  rw [RingbufferPacker.packFormatStringIndex]
  rcases hcases with ⟨hsup, hbody⟩ | ⟨hindex, hlength, rfl, hbody⟩ | ⟨hwritten, hbody⟩
  · -- the entry goes on with the open run, and starts empty
    rw [hbody, RunState.header, RunState.next, if_pos hsup, if_pos hsup]
    exact ⟨hbegin.of_same rfl rfl rfl, rfl⟩
  · have hwritten : ¬ p.run.Suppresses 0 := by
      rw [RunState.Suppresses, if_pos ⟨hindex, rfl⟩]
      exact fun hne => hne hlength
    obtain ⟨q, hq, hholds, hsame⟩ := hwrite p.beginEntry hwritten hbegin
    have hnext : p.run.next 0 = (getRun q).increment := by
      rw [RunState.next, if_neg hwritten, show getRun q = p.run from hsame, RunState.increment,
        hlength, hindex]
      rfl
    rw [hbody, hq, ok_bind]
    exact ⟨hholds.of_same rfl rfl rfl, hnext.symm⟩
  · -- closing the open run may find the runlength buffer full; the header then fits
    rw [hbody]
    refine (writeCurrentRunlength_holds hbegin).bind ?_
    rintro q ⟨hq, -⟩
    obtain ⟨q', hq', hholds, -⟩ := hwrite q hwritten hq
    rw [hq', ok_bind, RunState.next, if_neg hwritten]
    exact ⟨hholds.of_same rfl rfl rfl, rfl⟩

/-! ## Runs -/

/-- The window and the encoder's state after a run. -/
structure Tracked (p : RingbufferPacker n m r) (ops : List Op) : Prop where
  holds : p.Holds (entries .initial (callEvents ops))
  run : p.run = finalRun .initial (callEvents ops)

theorem foldlM_bufferOrWriteIndexFile_tracked {p : RingbufferPacker n m r} {ops : List Op}
    (h : p.Tracked ops) (ws : List (List UInt8)) :
    YieldsOr .abort (fun p' : RingbufferPacker n m r => p'.Tracked ops)
      (ws.foldlM BinaryLog.bufferOrWriteIndexFile p) := by
  refine YieldsOr.foldlM (I := fun _ (q : RingbufferPacker n m r) => q.Tracked ops) ws h ?_
  intro _ w _ _ q hq
  show YieldsOr _ _ (q.bufferOrWriteIndexFile w)
  unfold RingbufferPacker.bufferOrWriteIndexFile
  split
  · rfl
  · exact ⟨hq.holds.of_same rfl rfl rfl, hq.run⟩

theorem callEvents_concat (ops : List Op) (op : Op) :
    callEvents (ops ++ [op]) = callEvents ops ++ callEvents [op] :=
  callEvents_append ops [op]

theorem entries_concat_log (ops : List Op) (pos : Nat) (args : List Arg) :
    entries .initial (callEvents (ops ++ [.log pos args]))
      = entries .initial (callEvents ops)
        ++ [(finalRun .initial (callEvents ops)).entryBytes ⟨pos % 2 ^ 16, args⟩] := by
  rw [callEvents_concat, entries_append]
  rfl

/-- One member call keeps the window, unless it runs into an `abort()`. -/
theorem step_tracked {lg : Logger (RingbufferPacker n m r)} {ops : List Op} {op : Op}
    (h : lg.packer.Tracked ops)
    (hsmall : ∀ e ∈ entries .initial (callEvents (ops ++ [op])), e.length < n) :
    YieldsOr .abort (fun lg' : Logger (RingbufferPacker n m r) => lg'.packer.Tracked (ops ++ [op]))
      (lg.step op) := by
  cases op with
  | logIndex formatString args =>
    have hsame : callEvents (ops ++ [.logIndex formatString args]) = callEvents ops := by
      rw [callEvents_concat]
      exact List.append_nil _
    rw [Logger.step, Logger.logIndex_eq]
    refine YieldsOr.map ((foldlM_bufferOrWriteIndexFile_tracked h _).bind ?_)
    intro q hq
    exact ⟨hsame ▸ hq.holds, hsame ▸ hq.run⟩
  | log pos args =>
    rw [entries_concat_log] at hsmall
    have hentry := hsmall _ (List.mem_append_right _ List.mem_cons_self)
    rw [RunState.entryBytes, ← h.run, List.length_append] at hentry
    rw [Logger.step, Logger.log_eq]
    have hheader : (lg.packer.run.header (pos % 2 ^ 16)).length < n :=
      Nat.lt_of_le_of_lt (Nat.le_add_right _ _) hentry
    have hopen := packFormatStringIndex_holds h.holds (pos % 2 ^ 16) hheader
    refine hopen.bind ?_
    rintro q ⟨hq, hrun⟩
    obtain ⟨q', hq', hholds', hrun'⟩ := foldlM_bufferOrWrite_holds (args.flatMap Arg.logWrites) hq
      (by simpa [Call.argBytes] using hentry)
    rw [hq', ok_bind]
    refine ⟨?_, ?_⟩
    · rw [entries_concat_log, ← h.run]
      exact hholds'
    · rw [callEvents_concat, finalRun_append, ← h.run]
      exact hrun'.trans hrun
  | flush =>
    rw [Logger.step, Logger.flush]
    have hflush := writeCurrentRunlength_holds h.holds
    refine hflush.bind ?_
    rintro q ⟨hq, hrun⟩
    refine ⟨?_, ?_⟩
    · rw [callEvents_concat]
      show q.Holds (entries _ (callEvents ops ++ [.mark]))
      rw [entries_concat_mark]
      exact hq
    · rw [callEvents_concat, finalRun_append, ← h.run]
      exact hrun

theorem mem_entries_of_prefix {ops ops' : List Op} {e : List UInt8}
    (h : e ∈ entries .initial (callEvents ops)) :
    e ∈ entries .initial (callEvents (ops ++ ops')) := by
  rw [callEvents_append, entries_append]
  exact List.mem_append_left _ h

/-- A run with small entries keeps the window, unless it runs into an `abort()`. -/
theorem run_tracked (ops : List Op)
    (hsmall : ∀ e ∈ entries .initial (callEvents ops), e.length < n) :
    YieldsOr .abort (fun lg : Logger (RingbufferPacker n m r) => lg.packer.Tracked ops)
      (Logger.run .fresh ops) := by
  refine YieldsOr.foldlM (I := fun pre (lg : Logger (RingbufferPacker n m r)) =>
    lg.packer.Tracked pre) ops ⟨fresh_holds, rfl⟩ ?_
  rintro pre op post rfl lg h
  refine step_tracked h (fun e he => hsmall e ?_)
  have hsplit : pre ++ op :: post = (pre ++ [op]) ++ post := by simp
  rw [hsplit]
  exact mem_entries_of_prefix he

end RingbufferPacker

/-! ## The newest entries -/

/-- `bs` is the longest suffix of the log stream that starts with one of the entries and is shorter
    than `cap` bytes. -/
structure IsLongestSuffix (cap : Nat) (es : List (List UInt8)) (bs : List UInt8) : Prop where
  starts : ∃ i, i < es.length ∧ bs = (es.drop i).flatten
  below : bs.length < cap
  longest : ∀ i, i < es.length → (es.drop i).flatten.length < cap →
    (es.drop i).flatten.length ≤ bs.length

theorem RingbufferPacker.Holds.isLongestSuffix {n m r : Nat} {p : RingbufferPacker n m r}
    {es : List (List UInt8)} (h : p.Holds es) (hne : es ≠ []) :
    IsLongestSuffix n es p.getLogBuffer := by
  obtain ⟨kept, base, hwindow, hbuffer, -, -⟩ := h
  have hkept := hwindow.ne_nil hne
  rw [getLogBuffer, hbuffer]
  refine ⟨?_, hwindow.below hkept, ?_⟩
  · obtain ⟨dropped, rfl, -⟩ := hwindow.suffix
    refine ⟨dropped.length, ?_, by rw [List.drop_left]⟩
    have hpos := List.length_pos_iff.2 hkept
    rw [List.length_append]
    omega
  · intro i _ hbelow
    exact hwindow.length_le (List.drop_suffix i es) hbelow

/-- When every entry is shorter than the log buffer, a run of calls on `ringbuffer_packer` can fail
    by `abort()` only. After every partial write of a call the buffer is below its size and reaches
    back to the front of the queue, and after the call it holds the longest suffix of whole
    entries. -/
theorem ringbuffer_keeps_newest_entries {n m r : Nat} (ops : List Op)
    (hsmall : ∀ e ∈ entries .initial (callEvents ops), e.length < n) :
    (∀ f, Logger.run (.fresh : Logger (RingbufferPacker n m r)) ops = .error f → f = .abort) ∧
    ∀ ops₀ pos args rest, ops = ops₀ ++ .log pos args :: rest →
      ∀ lg : Logger (RingbufferPacker n m r), Logger.run .fresh ops₀ = .ok lg →
        (∀ p, packFormatStringIndex lg.packer (pos % 2 ^ 16) = .ok p →
          ∀ ws, ws <+: args.flatMap Arg.logWrites →
            ∃ p', ws.foldlM bufferOrWrite p = .ok p' ∧ p'.Sound) ∧
        (∀ lg', lg.log pos args = .ok lg' → lg'.packer.Sound ∧
          IsLongestSuffix n (entries .initial (callEvents (ops₀ ++ [.log pos args])))
            lg'.packer.getLogBuffer) := by
  have hrun := RingbufferPacker.run_tracked (m := m) (r := r) ops hsmall
  refine ⟨fun f hf => hrun.eq_of_error hf, ?_⟩
  rintro ops₀ pos args rest rfl lg hlg
  have hsplit : ops₀ ++ .log pos args :: rest = (ops₀ ++ [.log pos args]) ++ rest := by simp
  have hsmall' : ∀ e ∈ entries .initial (callEvents (ops₀ ++ [.log pos args])), e.length < n := by
    intro e he
    exact hsmall e (by rw [hsplit]; exact RingbufferPacker.mem_entries_of_prefix he)
  have htracked : lg.packer.Tracked ops₀ :=
    (RingbufferPacker.run_tracked ops₀
      (fun e he => hsmall' e (RingbufferPacker.mem_entries_of_prefix he))).of_ok hlg
  refine ⟨?_, ?_⟩
  · intro p hp ws hws
    rw [RingbufferPacker.entries_concat_log] at hsmall'
    have hentry := hsmall' _ (List.mem_append_right _ List.mem_cons_self)
    have hbytes := length_partialWrites hws (pos % 2 ^ 16)
    rw [RunState.entryBytes, ← htracked.run, List.length_append] at hentry
    have hheader : (lg.packer.run.header (pos % 2 ^ 16)).length + ws.flatten.length < n :=
      Nat.lt_of_le_of_lt (Nat.add_le_add_left hbytes _) hentry
    have hopen := (RingbufferPacker.packFormatStringIndex_holds htracked.holds (pos % 2 ^ 16)
      (Nat.lt_of_le_of_lt (Nat.le_add_right _ _) hheader)).of_ok hp
    obtain ⟨p', hp', hholds, -⟩ :=
      RingbufferPacker.foldlM_bufferOrWrite_holds ws hopen.1 hheader
    exact ⟨p', hp', hholds.sound (by simp)⟩
  · intro lg' hlg'
    have htracked' := (RingbufferPacker.step_tracked htracked hsmall').of_ok hlg'
    have hne : entries .initial (callEvents (ops₀ ++ [.log pos args])) ≠ [] := by
      rw [RingbufferPacker.entries_concat_log]
      simp
    exact ⟨htracked'.holds.sound hne, htracked'.holds.isLongestSuffix hne⟩

/-- The fourth call evicts the first one, between the two writes of its string. -/
theorem ringbuffer_keeps_newest_entries_four :
    ∃ lg' : Logger (RingbufferPacker 8 1 16),
      Logger.run .fresh [.log 0 [.dynamic (.string [1])], .log 0 [], .log 0 [.dynamic (.string [])],
        .log 1 [.dynamic (.string [7])]] = .ok lg' ∧
      lg'.packer.getLogBuffer = [0, 0, 1, 0, 1, 0, 7] ∧
      IsLongestSuffix 8 [[0, 0, 1, 0, 1], [], [0, 0], [1, 0, 1, 0, 7]] lg'.packer.getLogBuffer := by
  obtain ⟨-, hafter⟩ := ringbuffer_keeps_newest_entries (n := 8) (m := 1) (r := 16)
    [.log 0 [.dynamic (.string [1])], .log 0 [], .log 0 [.dynamic (.string [])],
      .log 1 [.dynamic (.string [7])]] (by decide)
  have hfourth := hafter [.log 0 [.dynamic (.string [1])], .log 0 [],
    .log 0 [.dynamic (.string [])]] 1 [.dynamic (.string [7])] [] rfl _ rfl
  exact ⟨_, rfl, rfl, (hfourth.2 _ rfl).2⟩

end BinaryLog
