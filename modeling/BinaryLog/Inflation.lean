import BinaryLog.MaximalRuns
import BinaryLog.RunlengthFile

set_option autoImplicit false

/-! # When run-length encoding pays

Against a plain log with an id in front of every call, the encoder saves two bytes for every call
that goes on with the open run and spends ten on the record of a run of two or more calls. The
balance is drawn run by run over the maximal runs (`runlength_pays_iff`): a run of two to five calls
costs more than it saves.

The counter of a run wraps at 2^64, so a run of id 0 gets a header for every started 2^64 calls, and
a record is written for what the counter shows at its end. -/

namespace BinaryLog

open Bytes Simulation Runs

/-! ## The balance of a run -/

/-- The ids written for a maximal run: the branch for id 0 starts over when the counter is 0. -/
def idsWritten : List Nat → Nat
  | [] => 0
  | id :: run => if id = 0 then run.length / 2 ^ 64 + 1 else 1

/-- The run has a record: its counter ends above 1. -/
def Recorded (run : List Nat) : Prop := 1 < run.length % 2 ^ 64

instance (run : List Nat) : Decidable (Recorded run) := by
  unfold Recorded; infer_instance

/-- The balance over all runs, in units of an id: a record weighs five. -/
def Pays (runs : List (List Nat)) : Prop :=
  5 * runs.countP (fun run => Recorded run) + (runs.map idsWritten).sum ≤ runs.flatten.length

instance (runs : List (List Nat)) : Decidable (Pays runs) := by
  unfold Pays; infer_instance

/-- For runs below 2^64 calls the balance is in their lengths: five for every run of two or more
    calls, against the calls beyond the first of their run. -/
theorem pays_iff_of_short {runs : List (List Nat)} (hnil : [] ∉ runs)
    (hshort : ∀ run ∈ runs, run.length < 2 ^ 64) :
    Pays runs ↔
      5 * runs.countP (fun run => 1 < run.length) + runs.length ≤ runs.flatten.length := by
  have hcount :
      runs.countP (fun run => Recorded run) = runs.countP (fun run => 1 < run.length) := by
    refine List.countP_congr (fun run hrun => ?_)
    simp only [Recorded, Nat.mod_eq_of_lt (hshort run hrun)]
  have hids : (runs.map idsWritten).sum = runs.length := by
    have hone : ∀ run ∈ runs, idsWritten run = 1 := by
      intro run hrun
      cases run with
      | nil => exact absurd hrun hnil
      | cons id run =>
        have hlt := hshort _ hrun
        rw [List.length_cons] at hlt
        rw [idsWritten, Nat.div_eq_of_lt (by omega)]
        split <;> rfl
    rw [List.map_congr_left hone, List.map_const', List.sum_replicate_nat, Nat.mul_one]
  rw [Pays, hcount, hids]

/-! ## The encoder's counts -/

/-- The ids of a run of calls. -/
def runIdsOf (cs : List Call) : List Nat := cs.map Call.index

theorem idsWritten_single (c : Call) : idsWritten (runIdsOf [c]) = 1 := by
  show (if c.index = 0 then 0 / 2 ^ 64 + 1 else 1) = 1
  split <;> rfl

/-- `cs` are the calls since the last change of the id; the counter may have wrapped. -/
structure Counts (cs : List Call) (run : RunState) : Prop where
  length : run.currentRunlength = cs.length % 2 ^ 64
  index : ∀ c ∈ cs.head?, run.runlengthIndex = c.index

theorem Counts.single (c : Call) : Counts [c] ⟨c.index, 1⟩ := ⟨rfl, by simp⟩

/-- A call that goes on with the run closes nothing, and writes an id only where the counter of a
    run of id 0 has wrapped. -/
theorem Counts.next_of_eq {a c : Call} {cs : List Call} {run : RunState}
    (h : Counts (a :: cs) run) (hac : a.index = c.index) :
    Counts (a :: cs ++ [c]) (run.next c.index) ∧ run.closing c.index = [] ∧
      idsWritten (runIdsOf (a :: cs ++ [c]))
        = idsWritten (runIdsOf (a :: cs)) + if run.Suppresses c.index then 0 else 1 := by
  have hindex : run.runlengthIndex = c.index := (h.index a (by simp)).trans hac
  have hlength := h.length
  have hmod := Nat.mod_lt (a :: cs).length (Nat.two_pow_pos 64)
  simp only [List.length_cons] at hlength hmod
  have hids (run : List Call) : idsWritten (runIdsOf (a :: run))
      = if c.index = 0 then run.length / 2 ^ 64 + 1 else 1 := by
    rw [runIdsOf, List.map_cons, idsWritten, List.length_map, hac]
  rw [List.cons_append, hids, hids, List.length_append, List.length_singleton]
  by_cases hsup : run.Suppresses c.index
  · rw [RunState.next, RunState.closing, if_pos hsup, if_pos hsup, if_pos hsup]
    refine ⟨⟨?_, ?_⟩, rfl, ?_⟩
    · rw [RunState.increment, hlength]
      simp
    · simpa [RunState.increment] using hindex.trans hac.symm
    · -- the counter is not 0, so no chunk of 2^64 calls is complete
      rw [RunState.Suppresses, hindex] at hsup
      split
      · next hzero =>
        rw [if_pos ⟨hzero, hzero⟩, hlength] at hsup
        omega
      · rfl
  · have hzero : c.index = 0 ∧ run.currentRunlength = 0 := by
      rw [RunState.Suppresses, hindex] at hsup
      split at hsup
      · next hboth => exact ⟨hboth.1, not_not.1 hsup⟩
      · exact absurd rfl hsup
    have hpending : run.pending = [] := by rw [RunState.pending, hzero.2, if_neg (by decide)]
    rw [RunState.next, RunState.closing, if_neg hsup, if_neg hsup, if_neg hsup, hpending]
    rw [hzero.2] at hlength
    refine ⟨⟨?_, ?_⟩, rfl, ?_⟩
    · simp only [List.length_cons, List.length_append, List.length_nil]
      omega
    · simp [hac]
    · rw [if_pos hzero.1, if_pos hzero.1]
      omega

/-- A call with another id closes the run. -/
theorem Counts.not_suppresses_of_ne {a c : Call} {cs : List Call} {run : RunState}
    (h : Counts (a :: cs) run) (hac : a.index ≠ c.index) : ¬ run.Suppresses c.index := by
  have hindex : run.runlengthIndex = a.index := h.index a (by simp)
  rw [RunState.Suppresses, hindex]
  split
  · next hboth => exact absurd (hboth.1.trans hboth.2.symm) hac
  · exact hac

theorem Counts.length_pending {cs : List Call} {run : RunState} (h : Counts cs run) :
    run.pending.length = if Recorded (runIdsOf cs) then 1 else 0 := by
  have hiff : Recorded (runIdsOf cs) ↔ 1 < run.currentRunlength := by
    rw [Recorded, runIdsOf, List.length_map, h.length]
  by_cases hlong : 1 < run.currentRunlength
  · rw [RunState.pending, if_pos hlong, if_pos (hiff.2 hlong), List.length_singleton]
  · rw [RunState.pending, if_neg hlong, if_neg (mt hiff.1 hlong), List.length_nil]

/-- The ids in the log and the records, run by run. The induction carries the calls of the open
    run. -/
theorem Counts.totals {a : Call} {cs : List Call} {run : RunState} (h : Counts (a :: cs) run)
    (l : List Call) :
    let runs := (cut Call.index (a :: cs) (l.map .item)).map runIdsOf
    idsWritten (runIdsOf (a :: cs)) + headerCount run (l.map .item) = (runs.map idsWritten).sum ∧
      (emitted run (l.map .item ++ [.mark])).length = runs.countP (fun p => Recorded p) := by
  induction l generalizing a cs run with
  | nil => simp [headerCount, emitted, h.length_pending, List.countP_cons]
  | cons c l ih =>
    have hheaders : headerCount run ((c :: l).map .item)
        = (if run.Suppresses c.index then 0 else 1)
          + headerCount (run.next c.index) (l.map .item) := rfl
    have hemitted : emitted run ((c :: l).map .item ++ [.mark])
        = run.closing c.index ++ emitted (run.next c.index) (l.map .item ++ [.mark]) := rfl
    rw [hheaders, hemitted, List.map_cons, cut_cons_item]
    by_cases hac : a.index = c.index
    · obtain ⟨hcounts, hclosing, hids⟩ := h.next_of_eq hac
      rw [List.cons_append] at hcounts hids
      obtain ⟨hsum, hrecords⟩ := ih hcounts
      rw [hids] at hsum
      rw [if_pos hac, hclosing, List.nil_append, List.cons_append]
      exact ⟨by rw [← hsum, Nat.add_assoc], hrecords⟩
    · have hwritten := h.not_suppresses_of_ne hac
      have hnext : run.next c.index = ⟨c.index, 1⟩ := by rw [RunState.next, if_neg hwritten]
      obtain ⟨hsum, hrecords⟩ := ih (Counts.single c)
      rw [idsWritten_single] at hsum
      rw [if_neg hac, if_neg hwritten, RunState.closing, if_neg hwritten, hnext, List.map_cons]
      refine ⟨by rw [List.map_cons, List.sum_cons, ← hsum], ?_⟩
      rw [List.length_append, hrecords, h.length_pending, List.countP_cons, Nat.add_comm]
      simp

/-- The ids in the log and the records of a whole sequence of calls. -/
theorem totals_maximalRuns (l : List Call) :
    headerCount .initial (l.map .item)
        = ((maximalRuns (l.map Call.index)).map idsWritten).sum ∧
      (emitted .initial (l.map .item ++ [.mark])).length
        = (maximalRuns (l.map Call.index)).countP (fun run => Recorded run) := by
  cases l with
  | nil => exact ⟨rfl, rfl⟩
  | cons c l =>
    have hwritten : ¬ RunState.initial.Suppresses c.index := fun hsup =>
      have hboth := (IsOpen.initial.suppresses_iff_of_nil c.index).1 hsup
      hboth.2 hboth.1.symm
    have hnext : RunState.initial.next c.index = ⟨c.index, 1⟩ := by
      rw [RunState.next, if_neg hwritten]
    have hheaders : headerCount .initial ((c :: l).map .item)
        = 1 + headerCount ⟨c.index, 1⟩ (l.map .item) := by
      rw [List.map_cons, headerCount, if_neg hwritten, hnext]
    have hemitted : emitted .initial ((c :: l).map .item ++ [.mark])
        = emitted ⟨c.index, 1⟩ (l.map .item ++ [.mark]) := by
      rw [List.map_cons, List.cons_append, emitted, RunState.closing, if_neg hwritten, hnext]
      rfl
    have hruns : (cut Call.index [c] (l.map .item)).map runIdsOf
        = maximalRuns ((c :: l).map Call.index) := map_cut_items Call.index (c :: l)
    obtain ⟨hsum, hrecords⟩ := (Counts.single c).totals l
    rw [hruns, idsWritten_single] at hsum
    rw [hruns] at hrecords
    exact ⟨hheaders.trans hsum, (congrArg List.length hemitted).trans hrecords⟩

/-- The plain encoding of the calls: the id in front of every call's arguments. -/
def plainLog (ops : List Op) : List UInt8 :=
  (calls ops).flatMap (fun c => headerBytes c.index ++ c.argBytes)

theorem length_plainLog (ops : List Op) : (plainLog ops).length
    = 2 * (calls ops).length + ((calls ops).flatMap Call.argBytes).length := by
  rw [plainLog]
  induction calls ops with
  | nil => rfl
  | cons c cs ih =>
    simp only [List.flatMap_cons, List.length_append, length_headerBytes, List.length_cons, ih]
    omega

/-- The log file and the runlength file together are at most as long as the plain encoding if and
    only if the balance over the maximal runs is. -/
theorem runlength_pays_iff {n m r : Nat} (ops : List Op) (hflush : Op.flush ∉ ops) :
    (1 ≤ n → 2 ≤ m → 1 ≤ r →
      ∃ lg : Logger (Packer n m r), Logger.run .fresh (ops ++ [.flush]) = .ok lg) ∧
    ∀ lg : Logger (Packer n m r), Logger.run .fresh (ops ++ [.flush]) = .ok lg →
      (lg.packer.logFile.spilled.length + lg.packer.runlengthFile.spilled.length
          ≤ (plainLog ops).length ↔
        Pays (maximalRuns ((calls ops).map Call.index))) := by
  refine ⟨fun hn hm hr => Packer.run_isSome hn hm hr .fresh _, fun lg hlg => ?_⟩
  obtain ⟨hheaders, hrecords⟩ := totals_maximalRuns (calls ops)
  rw [← callEvents_of_noFlush hflush] at hheaders hrecords
  obtain ⟨hspilledLog, -, hspilledRunlength⟩ := Packer.spilled_eq_contents hlg
  have hlog := (Packer.refinement.run hlg).log
  have hrunlength := (Packer.restarts.run hlg).contents_eq
  rw [← hspilledLog, (Streams.runOps_flush ops).2.1] at hlog
  rw [← hspilledRunlength] at hrunlength
  have hlogLength : lg.packer.logFile.spilled.length
      = 2 * headerCount .initial (callEvents ops) + ((calls ops).flatMap Call.argBytes).length := by
    rw [hlog]
    exact length_flatten_entries .initial (callEvents ops)
  have hrunlengthLength :
      lg.packer.runlengthFile.spilled.length = 10 * (closedRuns ops).length := by
    rw [hrunlength]
    simp [List.length_flatten, Function.comp_def, List.map_const', Nat.mul_comm]
  have hflat : (maximalRuns ((calls ops).map Call.index)).flatten.length = (calls ops).length := by
    rw [maximalRuns, List.flatten_splitBy, List.length_map]
  rw [hlogLength, hrunlengthLength, closedRuns, hrecords, hheaders, length_plainLog, Pays, hflat]
  omega

/-- Six calls of one id are where a record has paid for itself. -/
theorem runlength_pays_six :
    ∃ lg : Logger (Packer 1 2 10), Logger.run .fresh ([.log 7 [], .log 7 [], .log 7 [], .log 7 [],
        .log 7 [], .log 7 []] ++ [.flush]) = .ok lg ∧
      lg.packer.logFile.spilled.length + lg.packer.runlengthFile.spilled.length ≤ 12 := by
  obtain ⟨hreturns, hiff⟩ := runlength_pays_iff (n := 1) (m := 2) (r := 10)
    [.log 7 [], .log 7 [], .log 7 [], .log 7 [], .log 7 [], .log 7 []] (by simp)
  obtain ⟨lg, hlg⟩ := hreturns le_rfl le_rfl (by decide)
  exact ⟨lg, hlg, (hiff lg hlg).2 (by decide)⟩

/-- Two calls of one id: 2 bytes of log and 10 of runlength for 4 bytes of plain log. -/
theorem runlength_inflates_two :
    ∃ lg : Logger (Packer 1048576 32 32),
      Logger.run .fresh ([.log 0 [], .log 0 []] ++ [.flush]) = .ok lg ∧
      lg.packer.logFile.spilled.length + lg.packer.runlengthFile.spilled.length = 12 ∧
      (plainLog [.log 0 [], .log 0 []]).length = 4 ∧
      ¬ lg.packer.logFile.spilled.length + lg.packer.runlengthFile.spilled.length
        ≤ (plainLog [.log 0 [], .log 0 []]).length :=
  ⟨_, rfl, by decide, by decide, by decide⟩

end BinaryLog
