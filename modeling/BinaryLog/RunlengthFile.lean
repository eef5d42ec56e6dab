import BinaryLog.Recovery

set_option autoImplicit false

/-! # The runlength file of a small buffer

The write loop of `write_current_runlength_to_runlength_file` copies from the start of the record in
every round. With a buffer of fewer than ten bytes a record takes several rounds, and what reaches
the file is the first bytes of the record over and over (`restarted`). `runlengthFile_iff` says for
which records this is the record itself. -/

namespace BinaryLog

open Bytes Simulation

/-- `size` bytes of a record, taken from its start again after every `r` bytes. -/
def restarted (r : Nat) (bytes : List UInt8) (size : Nat) : List UInt8 :=
  (List.range size).map (fun i => bytes.getD (i % r) 0)

@[simp] theorem length_restarted (r : Nat) (bytes : List UInt8) (size : Nat) :
    (restarted r bytes size).length = size := by
  simp [restarted]

/-- The first bytes are the record's own. -/
theorem restarted_of_le {r size : Nat} {bytes : List UInt8} (hr : size ≤ r)
    (hsize : size ≤ bytes.length) : restarted r bytes size = bytes.take size := by
  refine List.ext_getElem (by simpa using hsize) (fun i h₁ h₂ => ?_)
  rw [length_restarted] at h₁
  have hmod : i % r = i := Nat.mod_eq_of_lt (by omega)
  have hi : i < bytes.length := by omega
  simp only [restarted, List.getElem_map, List.getElem_range, List.getElem_take, hmod,
    List.getD_eq_getElem?_getD, List.getElem?_eq_getElem hi, Option.getD_some]

theorem restarted_add (r : Nat) (bytes : List UInt8) (size : Nat) :
    restarted r bytes (r + size) = restarted r bytes r ++ restarted r bytes size := by
  rw [restarted, restarted, restarted, List.range_add, List.map_append, List.map_map]
  congr 2
  funext i
  rw [Function.comp_apply, Nat.add_mod_left]

/-- A record survives exactly when it repeats itself with period `r`. -/
theorem restarted_eq_iff (r : Nat) (bytes : List UInt8) :
    restarted r bytes bytes.length = bytes
      ↔ ∀ i, i < bytes.length → bytes[i % r]? = bytes[i]? := by
  constructor
  · intro h i hi
    have hmod : i % r < bytes.length := Nat.lt_of_le_of_lt (Nat.mod_le i r) hi
    have hget := congrArg (fun bs => bs[i]?) h
    simp only [restarted, List.getElem?_map, List.getElem?_range hi, Option.map_some] at hget
    rw [← hget, List.getD_eq_getElem?_getD, List.getElem?_eq_getElem hmod, Option.getD_some]
  · intro h
    refine List.ext_getElem (by simp) (fun i h₁ h₂ => ?_)
    have hmod : i % r < bytes.length := Nat.lt_of_le_of_lt (Nat.mod_le i r) h₂
    have hget := h i h₂
    rw [List.getElem?_eq_getElem hmod, List.getElem?_eq_getElem h₂, Option.some.injEq] at hget
    simp only [restarted, List.getElem_map, List.getElem_range, List.getD_eq_getElem?_getD,
      List.getElem?_eq_getElem hmod, Option.getD_some, hget]

namespace Packer

variable {n m r : Nat}

/-- What the record loop writes. -/
theorem contents_writeRecordLoop {bytes : List UInt8} {fuel bytesLeft : Nat}
    {b b' : SpillBuffer UInt8 r} (h : writeRecordLoop bytes fuel b bytesLeft = some b')
    (hleft : bytesLeft ≤ bytes.length) :
    b'.contents = b.contents ++ restarted r bytes bytesLeft := by
  induction fuel generalizing b bytesLeft with
  | zero =>
    cases bytesLeft with
    | zero => obtain rfl := Option.some.inj h; simp [restarted]
    | succ bytesLeft => exact absurd h (by simp [writeRecordLoop])
  | succ fuel ih =>
    cases bytesLeft with
    | zero => obtain rfl := Option.some.inj h; simp [restarted]
    | succ bytesLeft =>
      simp only [writeRecordLoop, Option.bind_eq_some_iff] at h
      obtain ⟨b₁, hcopy, hrest⟩ := h
      have hcontents := ih hrest (by omega)
      rw [SpillBuffer.contents_copy hcopy, SpillBuffer.contents_makeRoom] at hcontents
      rw [hcontents, List.append_assoc]
      congr 1
      rcases Nat.le_total (bytesLeft + 1) r with hle | hle
      · -- all that is left fits one round
        rw [Nat.min_eq_left hle, Nat.sub_self, restarted_of_le hle hleft]
        simp [restarted]
      · rw [Nat.min_eq_right hle, ← restarted_of_le le_rfl (hle.trans hleft), ← restarted_add]
        congr 1
        omega

/-- The packer follows the streams, and its runlength file holds their records as the write loop
    copies them. -/
structure Restarts (p : Packer n m r) (s : Streams) : Prop where
  refines : p.Refines s
  rows : ∃ rows : List (List UInt8), (∀ row ∈ rows, row.length = 10) ∧
    s.runlength = rows.flatten ∧
    p.runlengthFile.contents = (rows.map (fun row => restarted r row 10)).flatten

theorem Restarts.of_same {p p' : Packer n m r} {s s' : Streams} (h : p.Restarts s)
    (hrefines : p'.Refines s') (hfile : p'.runlengthFile.contents = p.runlengthFile.contents)
    (hstream : s'.runlength = s.runlength) : p'.Restarts s' := by
  refine ⟨hrefines, ?_⟩
  rw [hfile, hstream]
  exact h.rows

theorem bufferOrWrite_restarts : Tracks (Restarts (n := n) (m := m) (r := r)) Packer.bufferOrWrite
    Streams.appendLog := by
  intro p s bs p' hrel h
  have hrefines := bufferOrWrite_tracks p s bs p' hrel.refines h
  simp only [Packer.bufferOrWrite, orFault_eq_ok, Option.map_eq_some_iff] at h
  obtain ⟨b, -, rfl⟩ := h
  exact hrel.of_same hrefines rfl rfl

theorem bufferOrWriteIndexFile_restarts : Tracks (Restarts (n := n) (m := m) (r := r))
    Packer.bufferOrWriteIndexFile Streams.appendIndex := by
  intro p s bs p' hrel h
  have hrefines := bufferOrWriteIndexFile_tracks p s bs p' hrel.refines h
  simp only [Packer.bufferOrWriteIndexFile, orFault_eq_ok, Option.map_eq_some_iff] at h
  obtain ⟨b, -, rfl⟩ := h
  exact hrel.of_same hrefines rfl rfl

theorem writeCurrentRunlength_restarts (p : Packer n m r) (s : Streams) (p' : Packer n m r)
    (hrel : p.Restarts s) (h : p.writeCurrentRunlengthToRunlengthFile = .ok p') :
    p'.Restarts s.close := by
  have hrefines := writeCurrentRunlength_tracks p s p' hrel.refines h
  have hpending := flatMap_recordBytes_pending s.run
  unfold Packer.writeCurrentRunlengthToRunlengthFile at h
  rw [hrel.refines.run] at h
  split at h
  · next hlong =>
    rw [if_pos hlong] at hpending
    simp only [orFault_eq_ok, Option.map_eq_some_iff] at h
    obtain ⟨b, hb, rfl⟩ := h
    obtain ⟨rows, hlength, hstream, hfile⟩ := hrel.rows
    refine ⟨hrefines, rows ++ [s.run.recordBytes], ?_, ?_, ?_⟩
    · intro row hrow
      rcases List.mem_append.1 hrow with hrow | hrow
      · exact hlength row hrow
      · rw [List.mem_singleton.1 hrow, RunState.length_recordBytes]
    · rw [Streams.close, hpending, hstream, List.flatten_append, List.flatten_singleton]
    · rw [contents_writeRecordLoop hb le_rfl, hfile, RunState.length_recordBytes, List.map_append,
        List.flatten_append, List.map_singleton, List.flatten_singleton]
  · next hshort =>
    rw [if_neg hshort] at hpending
    obtain rfl := Except.ok.inj h
    exact hrel.of_same hrefines rfl (by rw [Streams.close, hpending, List.append_nil])

theorem flush_restarts (p : Packer n m r) (s : Streams) (p' : Packer n m r) (hrel : p.Restarts s)
    (h : p.flush = .ok p') : p'.Restarts s.close := by
  have hrefines := flush_tracks p s p' hrel.refines h
  simp only [Packer.flush, Packer.flushRunlengthFile, bind_eq_ok, Except.ok.injEq] at h
  obtain ⟨p₁, hp₁, rfl⟩ := h
  have hrel₀ : (flushLogFile (flushIndexFile p)).Restarts s :=
    hrel.of_same ⟨by simp [flushLogFile, flushIndexFile, hrel.refines.log],
      by simp [flushLogFile, flushIndexFile, hrel.refines.index], hrel.refines.run,
      hrel.refines.runlength⟩ rfl rfl
  exact (writeCurrentRunlength_restarts _ s p₁ hrel₀ hp₁).of_same hrefines
    (SpillBuffer.contents_spill _) rfl

/-- `packer` follows the machine up to the restarts of its record loop. -/
theorem restarts : Refinement (Restarts (n := n) (m := m) (r := r)) where
  fresh := ⟨refinement.fresh, [], by simp, rfl, rfl⟩
  bufferOrWrite := bufferOrWrite_restarts
  bufferOrWriteIndexFile := bufferOrWriteIndexFile_restarts
  packFormatStringIndex := tracks_packFormatStringIndexBody (fun _ _ h => h.refines.run)
    (fun _ _ _ h => h.of_same
      ⟨h.refines.log, h.refines.index, rfl, h.refines.runlength⟩ rfl rfl)
    bufferOrWrite_restarts writeCurrentRunlength_restarts
  flush := flush_restarts

end Packer

/-! ## The records that survive -/

/-- Id and run length of every call of `write_current_runlength_to_runlength_file` with a run length
    above 1, in a run that ends with a flush. -/
def closedRuns (ops : List Op) : List (Nat × Nat) := emitted .initial (callEvents ops ++ [.mark])

/-- The record has period `r`. -/
def Periodic (r : Nat) (rec : Nat × Nat) : Prop :=
  ∀ i, i < 10 → (recordBytes rec)[i % r]? = (recordBytes rec)[i]?

instance (r : Nat) (rec : Nat × Nat) : Decidable (Periodic r rec) := by
  unfold Periodic; infer_instance

/-- Rows of ten bytes are told apart by their concatenation. -/
theorem eq_of_flatten_eq {rows rows' : List (List UInt8)} (h : ∀ row ∈ rows, row.length = 10)
    (h' : ∀ row ∈ rows', row.length = 10) (heq : rows.flatten = rows'.flatten) : rows = rows' := by
  induction rows generalizing rows' with
  | nil =>
    cases rows' with
    | nil => rfl
    | cons row' rows' =>
      have hlength := h' row' List.mem_cons_self
      rw [(List.append_eq_nil_iff.1 heq.symm).1] at hlength
      exact absurd hlength (by simp)
  | cons row rows ih =>
    have hlength := h row List.mem_cons_self
    cases rows' with
    | nil =>
      rw [(List.append_eq_nil_iff.1 heq).1] at hlength
      exact absurd hlength (by simp)
    | cons row' rows' =>
      obtain ⟨rfl, hrest⟩ :=
        List.append_inj heq (hlength.trans (h' row' List.mem_cons_self).symm)
      rw [ih (fun q hq => h q (List.mem_cons_of_mem _ hq))
        (fun q hq => h' q (List.mem_cons_of_mem _ hq)) hrest]

/-- The file holds the restarted records of all closed runs. -/
theorem Packer.Restarts.contents_eq {n m r : Nat} {p : Packer n m r} {ops : List Op}
    (h : p.Restarts (Streams.initial.runOps (ops ++ [.flush]))) :
    p.runlengthFile.contents
      = ((closedRuns ops).map (fun rec => restarted r (recordBytes rec) 10)).flatten := by
  obtain ⟨rows, hlength, hstream, hfile⟩ := h.rows
  rw [Streams.runlength_runOps, callEvents_append, List.flatMap_def] at hstream
  have hrows : (closedRuns ops).map recordBytes = rows :=
    eq_of_flatten_eq (List.forall_mem_map.2 (fun rec _ => length_recordBytes rec)) hlength hstream
  rw [hfile, ← hrows, List.map_map]
  rfl

/-- The runlength file after a final flush, for every buffer size: no copy leaves the buffer, and
    the file is the records of the closed runs, in order, if and only if every one of them has the
    buffer size as a period. From ten bytes on every record does. -/
theorem runlengthFile_iff {n m r : Nat} (hr : 1 ≤ r) (ops : List Op) :
    (1 ≤ n → 2 ≤ m →
      ∃ lg : Logger (Packer n m r), Logger.run .fresh (ops ++ [.flush]) = .ok lg) ∧
    ∀ lg : Logger (Packer n m r), Logger.run .fresh (ops ++ [.flush]) = .ok lg →
      (lg.packer.runlengthFile.spilled = (closedRuns ops).flatMap recordBytes ↔
        10 ≤ r ∨ ∀ rec ∈ closedRuns ops, Periodic r rec) := by
  refine ⟨fun hn hm => Packer.run_isSome hn hm hr .fresh _, fun lg hlg => ?_⟩
  have hcontents := (Packer.restarts.run hlg).contents_eq
  rw [← (Packer.spilled_eq_contents hlg).2.2] at hcontents
  rw [hcontents, List.flatMap_def]
  have hrestarted (rec : Nat × Nat) :
      restarted r (recordBytes rec) 10 = recordBytes rec ↔ Periodic r rec := by
    have hiff := restarted_eq_iff r (recordBytes rec)
    rwa [length_recordBytes] at hiff
  constructor
  · intro heq
    refine .inr (fun rec hrec => (hrestarted rec).1 ?_)
    have hrows := eq_of_flatten_eq (List.forall_mem_map.2 (fun rec _ => length_restarted _ _ _))
      (List.forall_mem_map.2 (fun rec _ => length_recordBytes rec)) heq
    exact List.map_inj_left.1 hrows rec hrec
  · intro h
    refine congrArg List.flatten (List.map_congr_left (fun rec hrec => (hrestarted rec).2 ?_))
    rcases h with hlarge | hall
    · intro i hi
      rw [Nat.mod_eq_of_lt (hi.trans_le hlarge)]
    · exact hall rec hrec

/-- Two calls of id 0 through a buffer of nine bytes. -/
theorem runlengthFile_nine :
    ∃ lg : Logger (Packer 1 2 9), Logger.run .fresh ([.log 0 [], .log 0 []] ++ [.flush]) = .ok lg ∧
      lg.packer.runlengthFile.spilled = [(0, 2)].flatMap recordBytes := by
  obtain ⟨hreturns, hiff⟩ := runlengthFile_iff (n := 1) (m := 2) (r := 9) (by decide)
    [.log 0 [], .log 0 []]
  obtain ⟨lg, hlg⟩ := hreturns le_rfl le_rfl
  exact ⟨lg, hlg, (hiff lg hlg).2 (.inr (by decide))⟩

/-- Two calls of id 1 through a buffer of four bytes: the record 1, 2 is written as its first four
    bytes twice and then its first two. -/
theorem runlengthFile_restarts_at_four :
    ∃ lg : Logger (Packer 1048576 32 4),
      Logger.run .fresh ([.log 1 [], .log 1 []] ++ [.flush]) = .ok lg ∧
      lg.packer.runlengthFile.spilled = [1, 0, 2, 0, 1, 0, 2, 0, 1, 0] ∧
      (closedRuns [.log 1 [], .log 1 []]).flatMap recordBytes = [1, 0, 2, 0, 0, 0, 0, 0, 0, 0] ∧
      lg.packer.runlengthFile.spilled ≠ (closedRuns [.log 1 [], .log 1 []]).flatMap recordBytes :=
  ⟨_, rfl, by decide, by decide, by decide⟩

end BinaryLog
