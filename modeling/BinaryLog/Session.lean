import BinaryLog.Lib.Firsts
import BinaryLog.RowIds
import BinaryLog.RunFormat

set_option autoImplicit false

/-! # Programs that log through call sites

A program that uses one logger executes `BINARY_LOG` call sites and flushes in some order.
`memberCalls` is the sequence of member calls it makes on its logger: a call site registers its row
on its first execution and logs with the id in its static from then on (`session_eq`). -/

namespace BinaryLog

open Simulation Firsts

/-- One step of a program that uses one logger. -/
inductive Action (S : Type) where
  | log (site : S) (args : List Arg)
  | flush

section Session

variable {S : Type} [DecidableEq S] {σ : Type} [PackerClass σ] (format : S → CString)

/-- One step of the program: `format site` is the format string at the call site. -/
def Action.step (st : Statics S × Logger σ) : Action S → Except Fault (Statics S × Logger σ)
  | .log site args => binaryLog st.1 st.2 site (format site) args
  | .flush => do
      let lg ← st.2.flush
      .ok (st.1, lg)

/-- A program from its start on: no call site has been executed, and the logger is new. -/
def runSession (actions : List (Action S)) : Except Fault (Statics S × Logger σ) :=
  actions.foldlM (Action.step format) (fun _ => none, .fresh)

/-- The member calls one execution of a call site makes; `next` is the logger's row counter. -/
def siteCalls (statics : Statics S) (next : UInt8) (site : S) (args : List Arg) : List Op :=
  match statics site with
  | some pos => [.log pos args]
  | none => [.logIndex (format site) args, .log next.toNat args]

/-- The statics and the row counter after one execution of a call site. -/
def registered (statics : Statics S) (next : UInt8) (site : S) : Statics S × UInt8 :=
  match statics site with
  | some _ => (statics, next)
  | none => (Function.update statics site (some next.toNat), next + 1)

/-- The member calls of a program on its logger, from statics and a row counter on. -/
def memberCalls : Statics S → UInt8 → List (Action S) → List Op
  | _, _, [] => []
  | statics, next, .flush :: actions => .flush :: memberCalls statics next actions
  | statics, next, .log site args :: actions =>
      siteCalls format statics next site args
        ++ memberCalls (registered statics next site).1 (registered statics next site).2 actions

/-- The statics and the row counter after a program. -/
def afterActions : Statics S → UInt8 → List (Action S) → Statics S × UInt8
  | statics, next, [] => (statics, next)
  | statics, next, .flush :: actions => afterActions statics next actions
  | statics, next, .log site _ :: actions =>
      afterActions (registered statics next site).1 (registered statics next site).2 actions

theorem memberCalls_append (statics : Statics S) (next : UInt8)
    (actions actions' : List (Action S)) :
    memberCalls format statics next (actions ++ actions')
      = memberCalls format statics next actions
        ++ memberCalls format (afterActions statics next actions).1
            (afterActions statics next actions).2 actions' := by
  induction actions generalizing statics next with
  | nil => rfl
  | cons action actions ih =>
    cases action with
    | flush => exact congrArg (List.cons _) (ih statics next)
    | log site args =>
      rw [List.cons_append, memberCalls, memberCalls, ih, List.append_assoc]
      rfl

/-- The calls of a program use ids of rows that are registered by then: of the `R` rows before it,
    and of its own. -/
theorem index_lt_of_mem_memberCalls {statics : Statics S} {next : UInt8} {R : Nat}
    (hstatics : ∀ site pos, statics site = some pos → pos < R) (hnext : next.toNat ≤ R)
    {actions : List (Action S)} {c : Call}
    (hc : c ∈ calls (memberCalls format statics next actions)) :
    c.index < R + (registrations (memberCalls format statics next actions)).length := by
  induction actions generalizing statics next R with
  | nil => exact absurd hc List.not_mem_nil
  | cons action actions ih =>
    cases action with
    | flush => exact ih hstatics hnext hc
    | log site args =>
      rw [memberCalls, calls_append, List.mem_append] at hc
      rw [memberCalls, registrations_append, List.length_append]
      unfold siteCalls registered at hc
      unfold siteCalls registered
      cases hstatic : statics site with
      | some pos =>
        -- a static holds the id of a row of this logger, and the cast only makes it smaller
        simp only [hstatic] at hc ⊢
        rcases hc with hc | hc
        · have hpos := hstatics site pos hstatic
          obtain rfl := List.mem_singleton.1 hc
          show pos % 2 ^ 16 < _
          have hmod := Nat.mod_le pos (2 ^ 16)
          omega
        · have hlt := ih hstatics hnext hc
          omega
      | none =>
        -- the row is registered first; a wrapped counter names one of the earlier rows
        simp only [hstatic] at hc ⊢
        rcases hc with hc | hc
        · obtain rfl := List.mem_singleton.1 hc
          show next.toNat % 2 ^ 16 < _ + (1 + _)
          have hmod := Nat.mod_le next.toNat (2 ^ 16)
          omega
        · have hcounter : (next + 1).toNat ≤ R + 1 := by
            rw [UInt8.toNat_add]
            exact (Nat.mod_le _ _).trans (Nat.succ_le_succ hnext)
          have hupdated : ∀ site' pos,
              Function.update statics site (some next.toNat) site' = some pos → pos < R + 1 := by
            intro site' pos hpos
            by_cases hsite : site' = site
            · rw [hsite, Function.update_self, Option.some.injEq] at hpos
              omega
            · rw [Function.update_of_ne hsite] at hpos
              exact Nat.lt_succ_of_lt (hstatics site' pos hpos)
          have hlt := ih hupdated hcounter hc
          show _ < R + (1 + _)
          omega

theorem Logger.destroy_eq (lg : Logger σ) :
    lg.destroy = lg.run [.flush, .flush] := by
  rw [Logger.destroy, Logger.run, List.foldlM_cons]
  refine bind_congr (fun lg => ?_)
  rw [List.foldlM_cons, Logger.step]
  cases lg.flush <;> rfl

theorem binaryLog_eq (statics : Statics S) (lg : Logger σ) (site : S) (args : List Arg) :
    binaryLog statics lg site (format site) args
      = (lg.run (siteCalls format statics lg.formatStringIndex site args)).map
          (fun lg' => ((registered statics lg.formatStringIndex site).1, lg')) := by
  unfold binaryLog siteCalls registered
  cases statics site with
  | some pos =>
    simp only [Logger.run, List.foldlM_cons, List.foldlM_nil, Logger.step]
    cases lg.log pos args <;> rfl
  | none =>
    simp only [Logger.run, List.foldlM_cons, List.foldlM_nil, Logger.step]
    cases hindex : lg.logIndex (format site) args with
    | error f => rfl
    | ok res =>
      obtain ⟨lg₁, id⟩ := res
      -- the id handed to the first `log` is the counter before `log_index`
      obtain ⟨-, rfl⟩ := Logger.formatStringIndex_of_logIndex hindex
      show (lg₁.log _ args >>= _) = Except.map _ (lg₁.log _ args >>= _)
      cases lg₁.log lg.formatStringIndex.toNat args <;> rfl

theorem formatStringIndex_of_siteCalls {statics : Statics S} {lg lg' : Logger σ} {site : S}
    {args : List Arg}
    (h : lg.run (siteCalls format statics lg.formatStringIndex site args) = .ok lg') :
    lg'.formatStringIndex = (registered statics lg.formatStringIndex site).2 := by
  unfold siteCalls at h
  unfold registered
  cases hstatic : statics site with
  | some pos =>
    simp only [hstatic, Logger.run, List.foldlM_cons, List.foldlM_nil, Logger.step, bind_eq_ok,
      pure_eq_ok, Except.ok.injEq] at h
    obtain ⟨lg₁, hlog, rfl⟩ := h
    exact Logger.formatStringIndex_of_log hlog
  | none =>
    simp only [hstatic, Logger.run, List.foldlM_cons, List.foldlM_nil, Logger.step, bind_eq_ok,
      map_eq_ok, pure_eq_ok, Except.ok.injEq] at h
    obtain ⟨lg₁, ⟨res, hindex, rfl⟩, lg₂, hlog, rfl⟩ := h
    rw [Logger.formatStringIndex_of_log hlog]
    exact (Logger.formatStringIndex_of_logIndex hindex).1

/-- A program does to its logger what its member calls do. -/
theorem session_eq (actions : List (Action S)) (statics : Statics S) (lg : Logger σ) :
    (actions.foldlM (Action.step format) (statics, lg)).map Prod.snd
      = lg.run (memberCalls format statics lg.formatStringIndex actions) := by
  induction actions generalizing statics lg with
  | nil => rfl
  | cons action actions ih =>
    cases action with
    | flush =>
      rw [List.foldlM_cons, memberCalls, Logger.run, List.foldlM_cons, Action.step, Logger.step]
      cases hflush : lg.flush with
      | error f => rfl
      | ok lg₁ =>
        rw [ok_bind, ok_bind, ok_bind, ih, Logger.formatStringIndex_of_flush hflush]
        rfl
    | log site args =>
      rw [List.foldlM_cons, Action.step, binaryLog_eq, memberCalls, Logger.run_append]
      cases hsite : lg.run (siteCalls format statics lg.formatStringIndex site args) with
      | error f => rfl
      | ok lg₁ =>
        rw [ok_bind, ← formatStringIndex_of_siteCalls format hsite, ← ih]
        rfl

/-- The member calls of a program from its start on. -/
abbrev sessionCalls (actions : List (Action S)) : List Op :=
  memberCalls format (fun _ => none) 0 actions

theorem run_of_runSession {actions : List (Action S)} {statics : Statics S} {lg : Logger σ}
    (h : runSession format actions = .ok (statics, lg)) :
    Logger.run .fresh (sessionCalls format actions) = .ok lg := by
  have heq := session_eq format actions (fun _ => none) (.fresh : Logger σ)
  rw [← runSession, h] at heq
  exact heq.symm

theorem exists_runSession {actions : List (Action S)} {lg : Logger σ}
    (h : Logger.run .fresh (sessionCalls format actions) = .ok lg) :
    ∃ statics, runSession format actions = .ok (statics, lg) := by
  have heq := session_eq format actions (fun _ => none) (.fresh : Logger σ)
  obtain ⟨⟨statics, lg'⟩, hrun, rfl⟩ := map_eq_ok.1 (heq.trans h)
  exact ⟨statics, hrun⟩

theorem index_lt_of_mem_sessionCalls {actions : List (Action S)} {c : Call}
    (hc : c ∈ calls (sessionCalls format actions)) :
    c.index < (registrations (sessionCalls format actions)).length := by
  have hlt := index_lt_of_mem_memberCalls format (R := 0) (by simp) le_rfl hc
  rwa [Nat.zero_add] at hlt

/-! ## Rows and ids of a program -/

/-- The executions of call sites in a program. -/
def executions : List (Action S) → List (S × List Arg)
  | [] => []
  | .log site args :: actions => (site, args) :: executions actions
  | .flush :: actions => executions actions

omit [DecidableEq S] in
theorem executions_append (actions actions' : List (Action S)) :
    executions (actions ++ actions') = executions actions ++ executions actions' := by
  induction actions with
  | nil => rfl
  | cons action actions ih => cases action <;> simp [executions, ih]

/-- The statics and the row counter when the call sites `seen` have been executed, first executed in
    this order. -/
structure Numbered (seen : List S) (statics : Statics S) (next : UInt8) : Prop where
  old : ∀ site ∈ seen, statics site = some (seen.idxOf site)
  new : ∀ site, site ∉ seen → statics site = none
  counter : next = UInt8.ofNat seen.length

theorem Numbered.start : Numbered ([] : List S) (fun _ => none) 0 :=
  ⟨fun _ h => absurd h List.not_mem_nil, fun _ _ => rfl, rfl⟩

theorem Numbered.next_toNat {seen : List S} {statics : Statics S} {next : UInt8}
    (h : Numbered seen statics next) (hlength : seen.length < 256) : next.toNat = seen.length := by
  rw [h.counter, UInt8.toNat_ofNat_of_lt' hlength]

theorem Numbered.register {seen : List S} {statics : Statics S} {next : UInt8}
    (h : Numbered seen statics next) {site : S} (hsite : site ∉ seen)
    (hlength : seen.length < 256) :
    Numbered (seen ++ [site]) (registered statics next site).1
      (registered statics next site).2 := by
  simp only [registered, h.new site hsite, h.next_toNat hlength]
  refine ⟨?_, ?_, ?_⟩
  · intro site' hmem
    by_cases heq : site' = site
    · rw [heq, Function.update_self, List.idxOf_append_of_notMem hsite, List.idxOf_cons_self]
      rfl
    · have hmem' : site' ∈ seen := by
        rcases List.mem_append.1 hmem with hmem' | hmem'
        · exact hmem'
        · exact absurd (List.mem_singleton.1 hmem') heq
      rw [Function.update_of_ne heq, h.old site' hmem', List.idxOf_append_of_mem hmem']
  · intro site' hmem
    have heq : site' ≠ site := by
      rintro rfl
      exact hmem (List.mem_append_right _ (List.mem_singleton.2 rfl))
    rw [Function.update_of_ne heq]
    exact h.new site' (fun hseen => hmem (List.mem_append_left _ hseen))
  · rw [h.counter, List.length_append, List.length_singleton, UInt8.ofNat_add]
    rfl

theorem callEvents_log (pos : Nat) (args : List Arg) (hpos : pos < 256) :
    callEvents [.log pos args] = [.item ⟨pos, args⟩] := by
  rw [callEvents, Nat.mod_eq_of_lt (by omega)]
  rfl

/-- One execution logs under the number of its call site, and registers it if it is new. -/
theorem Numbered.siteCalls {seen : List S} {statics : Statics S} {next : UInt8}
    (h : Numbered seen statics next) (site : S) (args : List Arg)
    (hlength : (keys Prod.fst seen [(site, args)]).length ≤ 256) :
    callEvents (siteCalls format statics next site args)
        = [.item ⟨(keys Prod.fst seen [(site, args)]).idxOf site, args⟩] ∧
      registrations (BinaryLog.siteCalls format statics next site args)
        = (firsts Prod.fst seen [(site, args)]).map (fun x => ⟨format x.1, x.2⟩) ∧
      Numbered (keys Prod.fst seen [(site, args)]) (registered statics next site).1
        (registered statics next site).2 := by
  by_cases hsite : site ∈ seen
  · have hkeys : keys Prod.fst seen [(site, args)] = seen := by
      rw [keys_of_mem Prod.fst hsite]
      exact List.append_nil seen
    have hplace := List.idxOf_lt_length_iff.2 hsite
    rw [hkeys] at hlength ⊢
    rw [firsts_of_mem Prod.fst hsite, registered, BinaryLog.siteCalls, h.old site hsite]
    exact ⟨callEvents_log _ args (by omega), rfl, h⟩
  · have hkeys : keys Prod.fst seen [(site, args)] = seen ++ [site] := by
      rw [keys_of_notMem Prod.fst hsite]
      exact List.append_nil _
    rw [hkeys, List.length_append, List.length_singleton] at hlength
    have hplace : (seen ++ [site]).idxOf site = seen.length := by
      rw [List.idxOf_append_of_notMem hsite, List.idxOf_cons_self]
      rfl
    rw [hkeys, hplace, firsts_of_notMem Prod.fst hsite]
    refine ⟨?_, ?_, h.register hsite (by omega)⟩
    · rw [BinaryLog.siteCalls, h.new site hsite, h.next_toNat (by omega)]
      exact callEvents_log _ args (by omega)
    · rw [BinaryLog.siteCalls, h.new site hsite]
      rfl

/-- With at most 256 call sites, a program registers the first execution of each, and every call
    uses the place of its call site among them. -/
theorem memberCalls_of_numbered {actions : List (Action S)} {seen : List S} {statics : Statics S}
    {next : UInt8} (h : Numbered seen statics next)
    (hlength : (keys Prod.fst seen (executions actions)).length ≤ 256) :
    calls (memberCalls format statics next actions)
        = (executions actions).map (fun x =>
            ⟨(keys Prod.fst seen (executions actions)).idxOf x.1, x.2⟩) ∧
      registrations (memberCalls format statics next actions)
        = (firsts Prod.fst seen (executions actions)).map (fun x => ⟨format x.1, x.2⟩) ∧
      Numbered (keys Prod.fst seen (executions actions)) (afterActions statics next actions).1
        (afterActions statics next actions).2 := by
  induction actions generalizing seen statics next with
  | nil => exact ⟨rfl, rfl, by simpa [keys, firsts, executions, afterActions] using h⟩
  | cons action actions ih =>
    cases action with
    | flush => exact ih h hlength
    | log site args =>
      have hsplit := keys_append Prod.fst seen [(site, args)] (executions actions)
      have hfirsts := firsts_append Prod.fst seen [(site, args)] (executions actions)
      rw [List.singleton_append] at hsplit hfirsts
      rw [executions, hsplit] at hlength
      have hseen := length_le_keys Prod.fst (keys Prod.fst seen [(site, args)]) (executions actions)
      obtain ⟨hevent, hreg, hnext⟩ := h.siteCalls format site args (by omega)
      obtain ⟨hcalls, hregs, hafter⟩ := ih hnext hlength
      have hsite : site ∈ keys Prod.fst seen [(site, args)] :=
        mem_keys (α := S × List Arg) Prod.fst seen (List.mem_singleton.2 rfl)
      -- call sites executed later are numbered behind this one
      have hplace : (keys Prod.fst (keys Prod.fst seen [(site, args)])
            (executions actions)).idxOf site
          = (keys Prod.fst seen [(site, args)]).idxOf site :=
        idxOf_keys Prod.fst hsite _
      rw [executions, memberCalls, calls_append, registrations_append, hsplit, hfirsts, hcalls,
        hreg, hregs, calls, hevent, List.map_cons, hplace, List.map_append]
      exact ⟨rfl, rfl, hafter⟩

end Session

/-! ## Call sites -/

/-- What the C++ type of an argument at a call site says. -/
structure Param where
  type : CppType
  isConstant : Bool
  deriving DecidableEq

def Arg.param (arg : Arg) : Param := ⟨arg.value.cppType, arg.isConstant⟩

/-- A `BINARY_LOG` in the text of the program. -/
structure CallSite where
  formatString : CString
  params : List Param

/-- The row carries the format string and the argument types of the call site. -/
structure IndexEntry.Describes (row : IndexEntry) (site : CallSite) : Prop where
  formatString : row.formatString = site.formatString.bytes
  types : row.args.map IndexArg.type = site.params.map (fun p => some p.type.getArgType)

theorem Registration.describes_recordedRow {site : CallSite} {args : List Arg}
    (h : args.map Arg.param = site.params) (hformat : site.formatString.bytes.length ≤ 65535)
    (hargs : args.length ≤ 255) :
    (Registration.recordedRow ⟨site.formatString, args⟩).Describes site := by
  refine ⟨recordedPrefix_of_lt (Nat.lt_succ_of_le hformat), ?_⟩
  rw [← h, recordedRow, announced_of_le hargs]
  simp only [List.map_map]
  exact List.map_congr_left (fun arg _ => congrArg some arg.getArgType_recorded)

/-- Every execution has the arguments of its call site, the format strings and the numbers of
    arguments fit their fields, as do the `std::string` constants, and there are at most 256 call
    sites. -/
structure Conforms {S : Type} [DecidableEq S] (sites : S → CallSite)
    (program : List (S × List Arg)) : Prop where
  params : ∀ x ∈ program, x.2.map Arg.param = (sites x.1).params
  formatString : ∀ x ∈ program, (sites x.1).formatString.bytes.length ≤ 65535
  args : ∀ x ∈ program, x.2.length ≤ 255
  constants : ∀ x ∈ program, ∀ input, Arg.constant (.string input) ∈ x.2 → input.length ≤ 65535
  count : (program.map Prod.fst).dedup.length ≤ 256

section Conforms

variable {S : Type} [DecidableEq S] {sites : S → CallSite} {program : List (S × List Arg)}

theorem Conforms.length_keys (h : Conforms sites program) :
    (keys Prod.fst [] program).length ≤ 256 := by
  have hcount := h.count
  rw [← length_firsts] at hcount
  simpa [keys] using hcount

variable {actions : List (Action S)}

/-- The index of a program has a row for each call site, in the order of their first executions. -/
theorem Conforms.registrations_eq (h : Conforms sites (executions actions)) :
    registrations (sessionCalls (fun s => (sites s).formatString) actions)
      = (firsts Prod.fst [] (executions actions)).map (fun x => ⟨(sites x.1).formatString, x.2⟩) :=
  (memberCalls_of_numbered _ Numbered.start h.length_keys).2.1

theorem Conforms.inStep (h : Conforms sites (executions actions)) :
    ∀ reg ∈ registrations (sessionCalls (fun s => (sites s).formatString) actions),
      reg.InStep := by
  intro reg hreg
  rw [h.registrations_eq] at hreg
  obtain ⟨x, hx, rfl⟩ := List.mem_map.1 hreg
  have hx' := (firsts_sublist Prod.fst [] _).subset hx
  exact ⟨.inl (h.args x hx'), fun _ => h.constants x hx'⟩

theorem Conforms.wellFormed (h : Conforms sites (executions actions))
    (hfits : ∀ x ∈ executions actions, ∀ arg ∈ x.2, arg.value.Fits) :
    ∀ reg ∈ registrations (sessionCalls (fun s => (sites s).formatString) actions),
      reg.WellFormed := by
  intro reg hreg
  rw [h.registrations_eq] at hreg
  obtain ⟨x, hx, rfl⟩ := List.mem_map.1 hreg
  have hx' := (firsts_sublist Prod.fst [] _).subset hx
  exact ⟨h.formatString x hx', h.args x hx', fun arg harg _ => hfits x hx' arg harg⟩

/-- The row of a call site was registered by its first execution. -/
theorem Conforms.registration_of_mem (h : Conforms sites (executions actions)) {x : S × List Arg}
    (hx : x ∈ executions actions) : ∃ y ∈ executions actions, y.1 = x.1 ∧
      (registrations (sessionCalls (fun s => (sites s).formatString) actions))[
        (keys Prod.fst [] (executions actions)).idxOf x.1]?
          = some ⟨(sites x.1).formatString, y.2⟩ := by
  obtain ⟨y, hy, hplace, hsite⟩ := getElem?_idxOf_keys Prod.fst hx
  refine ⟨y, hy, hsite, ?_⟩
  rw [h.registrations_eq, List.getElem?_map, hplace, Option.map_some, hsite]

end Conforms

end BinaryLog
