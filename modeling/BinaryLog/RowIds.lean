import BinaryLog.RecordedRows
import Mathlib.Data.List.Nodup

set_option autoImplicit false

/-! # The ids `log_index` returns

`log_index` counts its calls in a `uint8_t`, so call number `i` returns `i` modulo 256
(`Logger.runIds_eq`). The parsed table holds the row of every call at the position of its id exactly
when there are at most 256 of them and every row is in step with its count byte and its length
fields (`rowIds_faithful_iff`): behind a row that is not, the parser goes on inside of it. -/

namespace BinaryLog

open Bytes Simulation

/-! ## Ids -/

section Ids

variable {σ : Type} [PackerClass σ]

theorem Logger.formatStringIndex_of_logIndex {lg lg' : Logger σ} {formatString : CString}
    {args : List Arg} {id : UInt8} (h : lg.logIndex formatString args = .ok (lg', id)) :
    lg'.formatStringIndex = lg.formatStringIndex + 1 ∧ id = lg.formatStringIndex := by
  simp only [Logger.logIndex_eq, bind_eq_ok, Except.ok.injEq, Prod.mk.injEq] at h
  obtain ⟨p, -, rfl, rfl⟩ := h
  exact ⟨rfl, by simp⟩

theorem Logger.formatStringIndex_of_log {lg lg' : Logger σ} {pos : Nat} {args : List Arg}
    (h : lg.log pos args = .ok lg') : lg'.formatStringIndex = lg.formatStringIndex := by
  simp only [Logger.log_eq, bind_eq_ok, Except.ok.injEq] at h
  obtain ⟨p, -, p', -, rfl⟩ := h
  rfl

theorem Logger.formatStringIndex_of_flush {lg lg' : Logger σ} (h : lg.flush = .ok lg') :
    lg'.formatStringIndex = lg.formatStringIndex := by
  simp only [Logger.flush, bind_eq_ok, Except.ok.injEq] at h
  obtain ⟨p, -, rfl⟩ := h
  rfl

/-- Call number `i` returns `i`, counted modulo 256 from the logger's counter on. -/
theorem Logger.runIds_eq {lg lg' : Logger σ} {ops : List Op} (h : lg.run ops = .ok lg') :
    lg.runIds ops = .ok ((List.range (registrations ops).length).map
      (fun i => lg.formatStringIndex + UInt8.ofNat i)) := by
  induction ops generalizing lg with
  | nil => rfl
  | cons op ops ih =>
    simp only [Logger.run, List.foldlM_cons, bind_eq_ok] at h
    obtain ⟨lg₁, hstep, hrest⟩ := h
    have hids := ih hrest
    cases op with
    | logIndex formatString args =>
      simp only [Logger.step, map_eq_ok] at hstep
      obtain ⟨⟨lg₂, id⟩, hindex, rfl⟩ := hstep
      have hcounter := Logger.formatStringIndex_of_logIndex hindex
      have hshift (i : Nat) : lg.formatStringIndex + 1 + UInt8.ofNat i
          = lg.formatStringIndex + UInt8.ofNat (i + 1) := by
        rw [UInt8.ofNat_add, UInt8.add_assoc, UInt8.add_comm 1]
        rfl
      simp only [Logger.runIds, hindex, ok_bind, hids, hcounter, registrations, List.length_cons,
        List.range_succ_eq_map, List.map_cons, List.map_map]
      simp [hshift, Function.comp_def]
    | log pos args =>
      have hsame := Logger.formatStringIndex_of_log hstep
      simp only [Logger.runIds, hstep, ok_bind, hids, hsame, registrations]
    | flush =>
      have hsame := Logger.formatStringIndex_of_flush hstep
      simp only [Logger.runIds, hstep, ok_bind, hids, hsame, registrations]

end Ids

/-! ## Faithful ids -/

/-- The ids are the numbers of the calls, hence distinct, and the parsed table has one row for each
    call: at the id that the call returned, what its row has recorded. -/
structure RowIdsFaithful (regs : List Registration) (ids : List UInt8) (index : List UInt8) :
    Prop where
  numbers : ids.map UInt8.toNat = List.range regs.length
  distinct : ids.Nodup
  rows : ∃ table, parse index = some table ∧ table.length = regs.length ∧
    ∀ (i : Nat) (reg : Registration) (id : UInt8), regs[i]? = some reg → ids[i]? = some id →
      table[id.toNat]? = some reg.recordedRow

/-- The ids `log_index` hands out from a fresh logger on. -/
def counterIds (n : Nat) : List UInt8 := (List.range n).map UInt8.ofNat

theorem toNat_counterIds {n : Nat} (h : n ≤ 256) :
    (counterIds n).map UInt8.toNat = List.range n := by
  rw [counterIds, List.map_map]
  conv_rhs => rw [← List.map_id (List.range n)]
  refine List.map_congr_left (fun i hi => ?_)
  have hlt : i < n := List.mem_range.1 hi
  rw [Function.comp_apply, UInt8.toNat_ofNat_of_lt' (show i < 256 by omega), id]

theorem le_of_toNat_counterIds {n : Nat} (h : (counterIds n).map UInt8.toNat = List.range n) :
    n ≤ 256 := by
  by_contra hlong
  have hmem : 256 ∈ (counterIds n).map UInt8.toNat := by
    rw [h]
    exact List.mem_range.2 (by omega)
  obtain ⟨id, -, hid⟩ := List.mem_map.1 hmem
  have hlt := id.toNat_lt
  omega

/-- The ids are faithful exactly when there are at most 256 and every row is in step. -/
theorem rowIdsFaithful_counterIds_iff (regs : List Registration) :
    RowIdsFaithful regs (counterIds regs.length) (regs.flatMap Registration.rowBytes) ↔
      regs.length ≤ 256 ∧ ∀ reg ∈ regs, reg.InStep := by
  constructor
  · rintro ⟨hnumbers, -, table, hparse, hlength, hrows⟩
    have hle := le_of_toNat_counterIds hnumbers
    have htable : table = regs.map Registration.recordedRow := by
      refine List.ext_getElem (by rw [hlength, List.length_map]) (fun i hi hi' => ?_)
      rw [List.length_map] at hi'
      have hid : (counterIds regs.length)[i]? = some (UInt8.ofNat i) := by
        simp [counterIds, hi']
      have hrow := hrows i regs[i] _ (List.getElem?_eq_getElem hi') hid
      rw [UInt8.toNat_ofNat_of_lt' (show i < 256 by omega), List.getElem?_eq_getElem hi,
        Option.some.injEq] at hrow
      rw [hrow, List.getElem_map]
    exact ⟨hle, (parse_recordedRow_iff regs).1 (by rw [hparse, htable])⟩
  · rintro ⟨hlength, hstep⟩
    have hnumbers := toNat_counterIds hlength
    refine ⟨hnumbers, ?_, _, parse_recordedRow regs hstep, List.length_map _, ?_⟩
    · have hnodup := List.nodup_range (n := regs.length)
      rw [← hnumbers] at hnodup
      exact hnodup.of_map UInt8.toNat
    · intro i reg id hreg hid
      have hi : i < regs.length := (List.getElem?_eq_some_iff.1 hreg).1
      have hnumber : ((counterIds regs.length).map UInt8.toNat)[i]? = some id.toNat := by
        simp [hid]
      rw [hnumbers, List.getElem?_range hi, Option.some.injEq] at hnumber
      rw [← hnumber, List.getElem?_map, hreg, Option.map_some]

theorem Logger.runIds_fresh {σ : Type} [PackerClass σ] {lg : Logger σ} {ops : List Op}
    (h : Logger.run .fresh ops = .ok lg) :
    Logger.runIds (.fresh : Logger σ) ops = .ok (counterIds (registrations ops).length) := by
  rw [Logger.runIds_eq h]
  simp [counterIds, Logger.fresh]

theorem Streams.index_runOps_initial (ops : List Op) :
    (Streams.initial.runOps ops).index = (registrations ops).flatMap Registration.rowBytes := by
  rw [Streams.index_runOps]
  rfl

/-- Whatever is logged or flushed in between: on both packers the ids of a run are faithful exactly
    when it has at most 256 registrations and each of their rows is in step. -/
theorem rowIds_faithful_iff {n m r N M K : Nat} (hn : 1 ≤ n) (hm : 2 ≤ m) (hr : 1 ≤ r)
    (ops : List Op) :
    (∃ (lg : Logger (Packer n m r)) (ids : List UInt8),
      Logger.run .fresh ops = .ok lg ∧
      Logger.runIds (.fresh : Logger (Packer n m r)) ops = .ok ids ∧
      (RowIdsFaithful (registrations ops) ids lg.packer.indexFile.contents ↔
        (registrations ops).length ≤ 256 ∧ ∀ reg ∈ registrations ops, reg.InStep)) ∧
    (∀ lg : Logger (RingbufferPacker N M K), Logger.run .fresh ops = .ok lg →
      ∃ ids : List UInt8,
        Logger.runIds (.fresh : Logger (RingbufferPacker N M K)) ops = .ok ids ∧
        (RowIdsFaithful (registrations ops) ids lg.packer.getIndexBuffer ↔
          (registrations ops).length ≤ 256 ∧ ∀ reg ∈ registrations ops, reg.InStep)) := by
  constructor
  · obtain ⟨lg, hlg⟩ := (Packer.sufficient hn hm hr).run Packer.refinement ops trivial
    refine ⟨lg, _, hlg, Logger.runIds_fresh hlg, ?_⟩
    rw [(Packer.refinement.run hlg).index, Streams.index_runOps_initial]
    exact rowIdsFaithful_counterIds_iff (registrations ops)
  · intro lg hlg
    refine ⟨_, Logger.runIds_fresh hlg, ?_⟩
    have hindex : lg.packer.getIndexBuffer = _ := (RingbufferPacker.refinement.run hlg).indexBuffer
    rw [hindex, Streams.index_runOps_initial]
    exact rowIdsFaithful_counterIds_iff (registrations ops)

/-- Three registrations with a call in between. -/
theorem rowIds_faithful_three :
    ∃ (lg : Logger (Packer 1 2 1)) (ids : List UInt8),
      Logger.run .fresh [.logIndex (.literal [72]) [], .logIndex (.literal []) [], .log 1 [],
        .logIndex (.literal [105]) []] = .ok lg ∧
      Logger.runIds (.fresh : Logger (Packer 1 2 1)) [.logIndex (.literal [72]) [],
        .logIndex (.literal []) [], .log 1 [], .logIndex (.literal [105]) []] = .ok ids ∧
      RowIdsFaithful [⟨.literal [72], []⟩, ⟨.literal [], []⟩, ⟨.literal [105], []⟩] ids
        lg.packer.indexFile.contents := by
  obtain ⟨lg, ids, hrun, hids, hiff⟩ := (rowIds_faithful_iff (n := 1) (m := 2) (r := 1) (N := 0)
    (M := 0) (K := 0) (by decide) (by decide) (by decide) [.logIndex (.literal [72]) [],
      .logIndex (.literal []) [], .log 1 [], .logIndex (.literal [105]) []]).1
  refine ⟨lg, ids, hrun, hids, hiff.2 ⟨by decide, ?_⟩⟩
  intro reg hreg
  have hshort : reg.formatString.bytes.length ≤ 1 ∧ reg.args = [] := by
    simp only [registrations, List.mem_cons, List.not_mem_nil, or_false] at hreg
    rcases hreg with rfl | rfl | rfl <;> exact ⟨by decide, rfl⟩
  exact Registration.WellFormed.inStep
    ⟨hshort.1.trans (by decide), by simp [hshort.2], by simp [hshort.2]⟩

/-- Call number 256, counted from 0, returns 0 again. -/
theorem rowIds_wrap_at_256 :
    ∃ (lg : Logger (Packer 1048576 32 32)) (ids : List UInt8),
      Logger.run .fresh (List.replicate 257 (.logIndex (.literal []) [])) = .ok lg ∧
      Logger.runIds (.fresh : Logger (Packer 1048576 32 32))
        (List.replicate 257 (.logIndex (.literal []) [])) = .ok ids ∧
      ids[0]? = some 0 ∧ ids[256]? = some 0 ∧
      ¬ RowIdsFaithful (List.replicate 257 ⟨.literal [], []⟩) ids
        lg.packer.indexFile.contents := by
  obtain ⟨lg, hlg⟩ := (Packer.sufficient (n := 1048576) (m := 32) (r := 32) (by decide) (by decide)
    (by decide)).run Packer.refinement
      (List.replicate 257 (.logIndex (.literal []) [])) trivial
  have hcount : (registrations (List.replicate 257 (.logIndex (.literal []) []))).length = 257 := by
    have hmap := registrations_map_op (List.replicate 257 ⟨.literal [], []⟩)
    rw [List.map_replicate] at hmap
    exact (congrArg List.length hmap).trans List.length_replicate
  have hids := Logger.runIds_fresh hlg
  rw [hcount] at hids
  refine ⟨lg, counterIds 257, hlg, hids, by simp [counterIds], by simp [counterIds], ?_⟩
  intro hfaithful
  have hnumbers := hfaithful.numbers
  rw [List.length_replicate] at hnumbers
  exact absurd (le_of_toNat_counterIds hnumbers) (by decide)

end BinaryLog
