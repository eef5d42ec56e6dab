import BinaryLog.Session
import Mathlib.Data.List.Infix

set_option autoImplicit false

/-! # Programs with several loggers

A call site has one static for the whole program, rows and row counters belong to the loggers. A
`World` is both together. Where every call site is used with one logger only, each logger goes
through a session of its own (`World.session`), and then every id it writes is the number of the
call site's row in its own index (`ids_name_own_rows`). -/

namespace BinaryLog

open Bytes Simulation Runs Firsts

/-! ## Worlds -/

/-- One step of a program; loggers are numbered in the order of their construction. -/
inductive WorldAction (S : Type) where
  | create
  | log (logger : Nat) (site : S) (args : List Arg)
  | flush (logger : Nat)
  | destroy (logger : Nat)

/-- The statics of the call sites and all loggers constructed so far, each with whether it is alive;
    a destroyed one stays for what it has written. -/
structure World (S σ : Type) where
  statics : Statics S
  loggers : List (Logger σ × Bool)

namespace World

variable {S : Type} [DecidableEq S] {σ : Type} [PackerClass σ] (sites : S → CallSite)

def start : World S σ := ⟨fun _ => none, []⟩

/-- Use logger `l`, which has to be alive, and leave it alive or not. -/
def use (w : World S σ) (l : Nat) (alive : Bool)
    (f : Logger σ → Except Fault (Statics S × Logger σ)) : Except Fault (World S σ) :=
  match w.loggers[l]? with
  | some (lg, true) => do
      let (statics, lg) ← f lg
      .ok ⟨statics, w.loggers.set l (lg, alive)⟩
  | _ => .error .undefinedBehaviour

def step (w : World S σ) : WorldAction S → Except Fault (World S σ)
  | .create => .ok { w with loggers := w.loggers ++ [(.fresh, true)] }
  | .log l site args =>
      w.use l true (fun lg => binaryLog w.statics lg site (sites site).formatString args)
  | .flush l => w.use l true (fun lg => lg.flush.map (fun lg => (w.statics, lg)))
  | .destroy l => w.use l false (fun lg => lg.destroy.map (fun lg => (w.statics, lg)))

def run (w : World S σ) (actions : List (WorldAction S)) : Except Fault (World S σ) :=
  actions.foldlM (step sites) w

/-- Logger `l`, as constructed if it is not there yet. -/
def logger (w : World S σ) (l : Nat) : Logger σ := (w.loggers[l]?.map Prod.fst).getD .fresh

end World

/-- What the step means for logger `l`; its destruction flushes twice. -/
def WorldAction.on {S : Type} (l : Nat) : WorldAction S → List (Action S)
  | .create => []
  | .log l' site args => if l' = l then [.log site args] else []
  | .flush l' => if l' = l then [.flush] else []
  | .destroy l' => if l' = l then [.flush, .flush] else []

/-- The session of logger `l`. -/
def actionsOn {S : Type} (l : Nat) (actions : List (WorldAction S)) : List (Action S) :=
  actions.flatMap (WorldAction.on l)

/-! ## Every logger goes through its session -/

namespace World

variable {S : Type} {σ : Type} [PackerClass σ]

theorem use_eq_ok {w w' : World S σ} {l : Nat} {alive : Bool}
    {f : Logger σ → Except Fault (Statics S × Logger σ)} (h : w.use l alive f = .ok w') :
    ∃ statics lg, f (w.logger l) = .ok (statics, lg) ∧ w'.statics = statics ∧ w'.logger l = lg ∧
      ∀ l', l' ≠ l → w'.logger l' = w.logger l' := by
  unfold use at h
  split at h
  · next lg hlg =>
    simp only [bind_eq_ok, Except.ok.injEq, Prod.exists] at h
    obtain ⟨statics, lg', hf, rfl⟩ := h
    have hlength : l < w.loggers.length := (List.getElem?_eq_some_iff.1 hlg).1
    refine ⟨statics, lg', ?_, rfl, ?_, fun l' hne => ?_⟩
    · rw [logger, hlg]
      exact hf
    · rw [logger, List.getElem?_set_self hlength]
      rfl
    · rw [logger, List.getElem?_set_ne hne.symm]
      rfl
  · exact absurd h (by simp)

theorem logger_create (w : World S σ) (l : Nat) :
    World.logger { w with loggers := w.loggers ++ [(.fresh, true)] } l = w.logger l := by
  rcases Nat.lt_or_ge l w.loggers.length with hl | hl
  · rw [logger, logger, List.getElem?_append_left hl]
  · rw [logger, logger, List.getElem?_append_right hl, List.getElem?_eq_none hl]
    cases l - w.loggers.length <;> rfl

omit [PackerClass σ] in
theorem use_of_alive {w : World S σ} {l : Nat} (alive : Bool)
    {f : Logger σ → Except Fault (Statics S × Logger σ)} {lg : Logger σ}
    (hlg : w.loggers[l]? = some (lg, true)) (hf : ∃ res, f lg = .ok res) :
    ∃ w', w.use l alive f = .ok w' ∧
      w'.loggers.map Prod.snd = (w.loggers.map Prod.snd).set l alive := by
  obtain ⟨⟨statics, lg'⟩, hf⟩ := hf
  refine ⟨⟨statics, w.loggers.set l (lg', alive)⟩, ?_, List.map_set⟩
  simp only [use, hlg, hf, ok_bind]

variable [DecidableEq S] {sites : S → CallSite}

/-- The statics a call site of logger `l` sees are those of the logger's own session. -/
def Agree (owner : S → Nat) (l : Nat) (w : World S σ) (statics : Statics S) : Prop :=
  ∀ site, owner site = l → w.statics site = statics site

theorem registered_of_ne {statics : Statics S} {next : UInt8} {site site' : S} (h : site' ≠ site) :
    (registered statics next site).1 site' = statics site' := by
  unfold registered
  cases statics site with
  | some pos => rfl
  | none => exact Function.update_of_ne h _ _

theorem registered_self {statics statics' : Statics S} {next : UInt8} {site : S}
    (h : statics site = statics' site) :
    (registered statics next site).1 site = (registered statics' next site).1 site := by
  unfold registered
  rw [h]
  cases hstatic : statics' site with
  | some pos => exact h
  | none =>
    show Function.update statics site _ site = Function.update statics' site _ site
    rw [Function.update_self, Function.update_self]

/-- One execution on the world is one execution in the session of its logger. -/
theorem binaryLog_of_agree (format : S → CString) {statics statics' : Statics S} {site : S}
    {lg : Logger σ} {args : List Arg} (h : statics site = statics' site)
    {res : Statics S × Logger σ}
    (hlog : binaryLog statics lg site (format site) args = .ok res) :
    ∃ after, binaryLog statics' lg site (format site) args = .ok (after, res.2) ∧
      res.1 site = after site ∧ (∀ site', site' ≠ site → res.1 site' = statics site') ∧
      ∀ site', site' ≠ site → after site' = statics' site' := by
  rw [binaryLog_eq, map_eq_ok] at hlog
  obtain ⟨lg', hrun, rfl⟩ := hlog
  have hcalls : siteCalls format statics lg.formatStringIndex site args
      = siteCalls format statics' lg.formatStringIndex site args := by
    rw [siteCalls, siteCalls, h]
  refine ⟨_, ?_, registered_self h, fun _ => registered_of_ne, fun _ => registered_of_ne⟩
  rw [binaryLog_eq, ← hcalls, hrun]
  rfl

/-- A step that only uses the logger leaves all statics as they are. -/
theorem session_of_use {format : S → CString} {owner : S → Nat} {w w' : World S σ} {l l' : Nat}
    {alive : Bool} {acts : List (Action S)} {g : Logger σ → Except Fault (Logger σ)}
    (hacts : ∀ statics lg, acts.foldlM (Action.step format) (statics, lg)
      = (g lg).map (fun lg => (statics, lg)))
    (h : w.use l' alive (fun lg => (g lg).map (fun lg => (w.statics, lg))) = .ok w')
    {statics : Statics S} (hagree : w.Agree owner l statics) :
    ∃ statics', (if l' = l then acts else []).foldlM (Action.step format) (statics, w.logger l)
        = .ok (statics', w'.logger l) ∧ w'.Agree owner l statics' := by
  obtain ⟨after, lg, hg, hstatics, hlogger, hothers⟩ := use_eq_ok h
  obtain ⟨lg', hlg', heq⟩ := map_eq_ok.1 hg
  obtain ⟨rfl, rfl⟩ := Prod.mk.inj heq
  refine ⟨statics, ?_, fun site hsite => by rw [hstatics, hagree site hsite]⟩
  by_cases hl : l' = l
  · subst hl
    rw [if_pos rfl, hacts, hlg', hlogger]
    rfl
  · rw [if_neg hl, hothers l (Ne.symm hl)]
    rfl

/-- One step of the world is the step it means for each logger. -/
theorem step_session {owner : S → Nat} {w w' : World S σ} {action : WorldAction S}
    (howner : ∀ l site args, action = .log l site args → owner site = l)
    (h : w.step sites action = .ok w') {l : Nat} {statics : Statics S}
    (hagree : w.Agree owner l statics) :
    ∃ statics', (action.on l).foldlM (Action.step fun s => (sites s).formatString)
        (statics, w.logger l) = .ok (statics', w'.logger l) ∧ w'.Agree owner l statics' := by
  cases action with
  | create =>
    obtain rfl := Except.ok.inj h
    exact ⟨statics, by rw [logger_create]; rfl, hagree⟩
  | log l' site args =>
    obtain ⟨after, lg, hlog, hstatics, hlogger, hothers⟩ := use_eq_ok h
    have hsite : owner site = l' := howner l' site args rfl
    by_cases hl : l' = l
    · -- the logger's own call site: its static is the one of the session
      subst hl
      obtain ⟨after', hsession, hself, hworld, hsession'⟩ :=
        binaryLog_of_agree (fun s => (sites s).formatString) (hagree site hsite) hlog
      refine ⟨after', ?_, fun site' hsite' => ?_⟩
      · rw [WorldAction.on, if_pos rfl, List.foldlM_cons, Action.step, hsession, hlogger]
        rfl
      · by_cases heq : site' = site
        · rw [hstatics, heq]
          exact hself
        · rw [hstatics, hsession' site' heq]
          exact (hworld site' heq).trans (hagree site' hsite')
    · -- a call site of another logger: it changes a static this session does not use
      obtain ⟨-, -, -, hworld, -⟩ :=
        binaryLog_of_agree (fun s => (sites s).formatString) rfl hlog
      refine ⟨statics, ?_, fun site' hsite' => ?_⟩
      · rw [WorldAction.on, if_neg hl, hothers l (Ne.symm hl)]
        rfl
      · have hne : site' ≠ site := by
          rintro rfl
          exact hl (hsite.symm.trans hsite')
        rw [hstatics]
        exact (hworld site' hne).trans (hagree site' hsite')
  | flush l' =>
    refine session_of_use (g := Logger.flush) (fun statics lg => ?_) h hagree
    rw [List.foldlM_cons, Action.step]
    cases lg.flush <;> rfl
  | destroy l' =>
    refine session_of_use (g := Logger.destroy) (fun statics lg => ?_) h hagree
    rw [List.foldlM_cons, Action.step, Logger.destroy]
    cases lg.flush with
    | error f => rfl
    | ok lg₁ =>
      rw [ok_bind, ok_bind, ok_bind, List.foldlM_cons, Action.step]
      cases lg₁.flush <;> rfl

/-- What a world does to a logger is a session, if its call sites are its own. -/
theorem run_session {owner : S → Nat} {actions : List (WorldAction S)}
    (howner : ∀ l site args, .log l site args ∈ actions → owner site = l) {w w' : World S σ}
    (h : w.run sites actions = .ok w') {l : Nat} {statics : Statics S}
    (hagree : w.Agree owner l statics) :
    ∃ statics', (actionsOn l actions).foldlM (Action.step fun s => (sites s).formatString)
        (statics, w.logger l) = .ok (statics', w'.logger l) ∧ w'.Agree owner l statics' := by
  induction actions generalizing w statics with
  | nil =>
    obtain rfl := Except.ok.inj h
    exact ⟨statics, rfl, hagree⟩
  | cons action actions ih =>
    simp only [run, List.foldlM_cons, bind_eq_ok] at h
    obtain ⟨w₁, hstep, hrest⟩ := h
    obtain ⟨statics₁, hfirst, hagree₁⟩ := step_session
      (fun l site args heq => howner l site args (heq ▸ List.mem_cons_self)) hstep hagree
    obtain ⟨statics', hsession, hagree'⟩ := ih
      (fun l site args hmem => howner l site args (List.mem_cons_of_mem _ hmem)) hrest hagree₁
    refine ⟨statics', ?_, hagree'⟩
    rw [actionsOn, List.flatMap_cons, List.foldlM_append, hfirst]
    exact hsession

end World

/-! ## Rows and ids -/

/-- Every call site is used with one logger only. -/
def OneLogger {S : Type} (actions : List (WorldAction S)) : Prop :=
  ∀ l l' site args args', .log l site args ∈ actions → .log l' site args' ∈ actions → l = l'

/-- What can be seen of the streams of a packer: the index, the number of bytes written to the log,
    and the last of these. -/
structure Observation (σ : Type) where
  index : σ → List UInt8
  logSize : σ → Nat
  log : σ → List UInt8

structure Observation.Sound {σ : Type} (o : Observation σ) (R : σ → Streams → Prop) : Prop where
  index : ∀ p s, R p s → o.index p = s.index
  logSize : ∀ p s, R p s → o.logSize p = s.log.length
  log : ∀ p s, R p s → o.log p <:+ s.log

/-- The files of `packer`, with what is still in their buffers. -/
def Packer.observation {n m r : Nat} : Observation (Packer n m r) :=
  ⟨fun p => p.indexFile.contents, fun p => p.logFile.contents.length, fun p => p.logFile.contents⟩

theorem Packer.observation_sound {n m r : Nat} :
    (Packer.observation (n := n) (m := m) (r := r)).Sound Packer.Refines where
  index := fun _ _ h => h.index
  logSize := fun _ _ h => congrArg List.length h.log
  log := fun _ _ h => h.log ▸ List.suffix_rfl

/-- The buffers of `ringbuffer_packer`. -/
def RingbufferPacker.observation {n m r : Nat} : Observation (RingbufferPacker n m r) :=
  ⟨fun p => p.getIndexBuffer, fun p => p.bufferIndex, fun p => p.getLogBuffer⟩

theorem RingbufferPacker.observation_sound {n m r : Nat} :
    (RingbufferPacker.observation (n := n) (m := m) (r := r)).Sound RingbufferPacker.Refines where
  index := fun _ _ h => h.indexBuffer
  logSize := fun _ _ h => h.bufferIndex
  log := fun _ _ h => h.buffer

section Ids

variable {S : Type} [DecidableEq S] {σ : Type} [PackerClass σ]

/-- From `w` to `w'` logger `l` has appended to its log the id `id` and the arguments. -/
def WritesId (o : Observation σ) (w w' : World S σ) (l : Nat) (args : List Arg) (id : Nat) : Prop :=
  id < 2 ^ 16 ∧
    o.logSize (w'.logger l).packer
      = o.logSize (w.logger l).packer + (headerBytes id ++ Call.argBytes ⟨id, args⟩).length ∧
    headerBytes id ++ Call.argBytes ⟨id, args⟩ <:+ o.log (w'.logger l).packer

/-- Whatever id a call site has written to the log of a logger in a run that ended in `w`: the row
    with this number in the index of the same logger is the row of the call site. -/
def IdsNameOwnRows (o : Observation σ) (sites : S → CallSite) (actions : List (WorldAction S))
    (w : World S σ) : Prop :=
  ∀ before l site args after w₁ w₂ id, actions = before ++ .log l site args :: after →
    World.run sites .start before = .ok w₁ → w₁.step sites (.log l site args) = .ok w₂ →
    WritesId o w₁ w₂ l args id →
    ∃ table row, parse (o.index (w.logger l).packer) = some table ∧ table[id]? = some row ∧
      row.Describes (sites site)

variable {sites : S → CallSite}

/-- An execution whose entry is two bytes longer than its arguments has written its own id. -/
theorem header_of_writesId {run : RunState} {index id : Nat} (hindex : index < 2 ^ 16)
    (hid : id < 2 ^ 16) {args : List Arg} {log log' kept : List UInt8}
    (hlog : log' = log ++ run.entryBytes ⟨index, args⟩)
    (hsize : log'.length = log.length + (headerBytes id ++ Call.argBytes ⟨id, args⟩).length)
    (hkept : headerBytes id ++ Call.argBytes ⟨id, args⟩ <:+ kept) (hsuffix : kept <:+ log') :
    id = index := by
  have hargs : Call.argBytes ⟨id, args⟩ = Call.argBytes ⟨index, args⟩ := rfl
  rw [RunState.entryBytes, RunState.header] at hlog
  by_cases hsup : run.Suppresses index
  · rw [if_pos hsup] at hlog
    simp [hlog, hargs] at hsize
  · rw [if_neg hsup, hargs] at *
    have hwritten : [] ++ (headerBytes id ++ Call.argBytes ⟨index, args⟩)
        <:+ log ++ (headerBytes index ++ Call.argBytes ⟨index, args⟩) :=
      hlog ▸ hkept.trans hsuffix
    have hboth := ((List.suffix_append_inj_of_length_eq (by simp)).1 hwritten).2
    have hheaders : toLittleEndian 2 id = toLittleEndian 2 index := List.append_cancel_right hboth
    have hread := readLittleEndian_append (w := 2) (n := id) (by simpa using hid) []
    rw [hheaders, readLittleEndian_append (by simpa using hindex)] at hread
    exact (Prod.mk.inj (Option.some.inj hread)).1.symm

variable {R : σ → Streams → Prop} {o : Observation σ}

/-- The same for a single logger: an id written by an execution is the number of its row. -/
theorem row_of_session (hR : Refinement R) (ho : o.Sound R) {pre post : List (Action S)} {site : S}
    {args : List Arg} (hconforms : Conforms sites (executions (pre ++ .log site args :: post)))
    {lg₁ lg₂ lg : Logger σ}
    (h₁ : Logger.run .fresh (sessionCalls (fun s => (sites s).formatString) pre) = .ok lg₁)
    (h₂ : Logger.run .fresh (sessionCalls (fun s => (sites s).formatString)
      (pre ++ [.log site args])) = .ok lg₂)
    (h : Logger.run .fresh (sessionCalls (fun s => (sites s).formatString)
      (pre ++ .log site args :: post)) = .ok lg) {id : Nat} (hid : id < 2 ^ 16)
    (hsize : o.logSize lg₂.packer
      = o.logSize lg₁.packer + (headerBytes id ++ Call.argBytes ⟨id, args⟩).length)
    (hkept : headerBytes id ++ Call.argBytes ⟨id, args⟩ <:+ o.log lg₂.packer) :
    ∃ table row, parse (o.index lg.packer) = some table ∧ table[id]? = some row ∧
      row.Describes (sites site) := by
  have hlength := hconforms.length_keys
  have hkeys : keys Prod.fst [] (executions (pre ++ .log site args :: post))
      = keys Prod.fst (keys Prod.fst [] (executions pre ++ [(site, args)])) (executions post) := by
    rw [executions_append, executions, ← List.singleton_append, ← List.append_assoc, keys_append]
  have hsite : site ∈ keys Prod.fst [] (executions pre ++ [(site, args)]) :=
    mem_keys (α := S × List Arg) Prod.fst [] (a := (site, args)) (by simp)
  have hbefore := length_le_keys Prod.fst (keys Prod.fst [] (executions pre ++ [(site, args)]))
    (executions post)
  rw [← hkeys] at hbefore
  have hseen := keys_append Prod.fst [] (executions pre) [(site, args)]
  have hpre := length_le_keys Prod.fst (keys Prod.fst [] (executions pre)) [(site, args)]
  rw [← hseen] at hpre
  -- at the execution the call site has its number among the call sites seen so far
  obtain ⟨-, -, hnumbered⟩ := memberCalls_of_numbered (fun s => (sites s).formatString)
    Numbered.start (show (keys Prod.fst [] (executions pre)).length ≤ 256 by omega)
  obtain ⟨hevent, -, -⟩ := hnumbered.siteCalls (fun s => (sites s).formatString) site args
    (by rw [← hseen]; omega)
  rw [← hseen] at hevent
  have hplace := List.idxOf_lt_length_iff.2 hsite
  have hindex : id = (keys Prod.fst [] (executions pre ++ [(site, args)])).idxOf site := by
    have hcalls : sessionCalls (fun s => (sites s).formatString) (pre ++ [.log site args])
        = sessionCalls (fun s => (sites s).formatString) pre
          ++ siteCalls (fun s => (sites s).formatString) (afterActions (fun _ => none) 0 pre).1
            (afterActions (fun _ => none) 0 pre).2 site args := by
      rw [sessionCalls, memberCalls_append, memberCalls, memberCalls, List.append_nil]
    have hrel₁ := hR.run h₁
    have hrel₂ := hR.run h₂
    rw [hcalls, Streams.runOps_append] at hrel₂
    rw [ho.logSize _ _ hrel₁, ho.logSize _ _ hrel₂] at hsize
    have hlog := Streams.log_runOps
      (Streams.initial.runOps (sessionCalls (fun s => (sites s).formatString) pre))
      (siteCalls (fun s => (sites s).formatString) (afterActions (fun _ => none) 0 pre).1
        (afterActions (fun _ => none) 0 pre).2 site args)
    rw [hevent, entries, entries, List.flatten_singleton] at hlog
    exact header_of_writesId (by omega) hid hlog hsize hkept (ho.log _ _ hrel₂)
  -- and at the end of the run its row is still in this place
  obtain ⟨y, hy, hfirst, hplace'⟩ := hconforms.registration_of_mem (x := (site, args))
    (by rw [executions_append]; exact List.mem_append_right _ List.mem_cons_self)
  rw [hkeys, idxOf_keys Prod.fst hsite, ← hindex] at hplace'
  have hparams := hconforms.params y hy
  have hformat := hconforms.formatString y hy
  rw [hfirst] at hparams hformat
  refine ⟨(registrations (sessionCalls (fun s => (sites s).formatString)
    (pre ++ .log site args :: post))).map Registration.recordedRow, _, ?_, ?_,
    Registration.describes_recordedRow hparams hformat (hconforms.args y hy)⟩
  · rw [ho.index _ _ (hR.run h), Streams.index_runOps_initial]
    exact parse_recordedRow _ hconforms.inStep
  · rw [List.getElem?_map, hplace', Option.map_some]

omit [DecidableEq S] in
theorem OneLogger.exists_owner {actions : List (WorldAction S)} (h : OneLogger actions) :
    ∃ owner : S → Nat, ∀ l site args, .log l site args ∈ actions → owner site = l := by
  classical
  refine ⟨fun site => if hl : ∃ l args, .log l site args ∈ actions then hl.choose else 0, ?_⟩
  intro l site args hmem
  have hl : ∃ l args, WorldAction.log l site args ∈ actions := ⟨l, args, hmem⟩
  obtain ⟨args', hchoose⟩ := hl.choose_spec
  simp only [dif_pos hl]
  exact h _ _ site args' args hchoose hmem

theorem World.run_logger {owner : S → Nat} {actions : List (WorldAction S)}
    (howner : ∀ l site args, .log l site args ∈ actions → owner site = l) {w : World S σ}
    (h : World.run sites .start actions = .ok w) (l : Nat) :
    Logger.run .fresh (sessionCalls (fun s => (sites s).formatString) (actionsOn l actions))
      = .ok (w.logger l) := by
  have hstart : (World.start : World S σ).Agree owner l (fun _ => none) := fun _ _ => rfl
  obtain ⟨statics, hsession, -⟩ := World.run_session howner h hstart
  exact run_of_runSession _ hsession

/-- In a run in which every call site is used with one logger only. -/
theorem idsNameOwnRows_of_run (hR : Refinement R) (ho : o.Sound R)
    {actions : List (WorldAction S)} (hone : OneLogger actions)
    (hconforms : ∀ l, Conforms sites (executions (actionsOn l actions))) {w : World S σ}
    (h : World.run sites .start actions = .ok w) : IdsNameOwnRows o sites actions w := by
  rintro before l site args after w₁ w₂ id rfl hw₁ hw₂ ⟨hid, hsize, hkept⟩
  obtain ⟨owner, howner⟩ := hone.exists_owner
  have hw₂' : World.run sites .start (before ++ [.log l site args]) = .ok w₂ := by
    rw [World.run, List.foldlM_append, ← World.run, hw₁, ok_bind, List.foldlM_cons, hw₂]
    rfl
  have h₁ := World.run_logger (fun l' site' args' hmem =>
    howner l' site' args' (List.mem_append_left _ hmem)) hw₁ l
  have h₂ := World.run_logger (fun l' site' args' hmem => howner l' site' args' (by
    rcases List.mem_append.1 hmem with hmem | hmem
    · exact List.mem_append_left _ hmem
    · exact List.mem_append_right _ (List.mem_singleton.1 hmem ▸ List.mem_cons_self))) hw₂' l
  have hall := World.run_logger howner h l
  have hconforms := hconforms l
  simp only [actionsOn, List.flatMap_append, List.flatMap_cons, List.flatMap_nil, WorldAction.on,
    if_true, List.append_nil, List.singleton_append] at h₁ h₂ hall hconforms
  exact row_of_session hR ho hconforms h₁ h₂ hall hid hsize hkept

end Ids

/-! ## Programs that use live loggers -/

/-- Loggers are used while they are alive; `alive` says so of those constructed before. -/
def Lifecycle {S : Type} : List Bool → List (WorldAction S) → Prop
  | _, [] => True
  | alive, .create :: actions => Lifecycle (alive ++ [true]) actions
  | alive, .log l _ _ :: actions => alive[l]? = some true ∧ Lifecycle alive actions
  | alive, .flush l :: actions => alive[l]? = some true ∧ Lifecycle alive actions
  | alive, .destroy l :: actions => alive[l]? = some true ∧ Lifecycle (alive.set l false) actions

section Packer

variable {S : Type} [DecidableEq S] {n m r : Nat}

theorem set_of_getElem? {alive : List Bool} {l : Nat} (h : alive[l]? = some true) :
    alive.set l true = alive := by
  obtain ⟨hl, hget⟩ := List.getElem?_eq_some_iff.1 h
  rw [← hget, List.set_getElem_self]

omit [DecidableEq S] in
theorem World.loggers_of_alive {w : World S (Packer n m r)} {l : Nat}
    (h : (w.loggers.map Prod.snd)[l]? = some true) : ∃ lg, w.loggers[l]? = some (lg, true) := by
  rw [List.getElem?_map, Option.map_eq_some_iff] at h
  obtain ⟨⟨lg, alive⟩, hlg, rfl⟩ := h
  exact ⟨lg, hlg⟩

/-- With `packer`, a program that uses live loggers only runs to its end. -/
theorem World.run_isSome (hn : 1 ≤ n) (hm : 2 ≤ m) (hr : 1 ≤ r) (sites : S → CallSite)
    (actions : List (WorldAction S)) {w : World S (Packer n m r)}
    (h : Lifecycle (w.loggers.map Prod.snd) actions) : ∃ w', w.run sites actions = .ok w' := by
  have hlog (statics : Statics S) (lg : Logger (Packer n m r)) (site : S) (args : List Arg) :
      ∃ res, binaryLog statics lg site (sites site).formatString args = .ok res := by
    obtain ⟨lg', hlg'⟩ := Packer.run_isSome hn hm hr lg
      (siteCalls (fun s => (sites s).formatString) statics lg.formatStringIndex site args)
    exact ⟨_, (binaryLog_eq (fun s => (sites s).formatString) statics lg site args).trans
      (by rw [hlg']; rfl)⟩
  have hflush (lg : Logger (Packer n m r)) : ∃ lg', lg.flush = .ok lg' := by
    obtain ⟨lg', hlg'⟩ := Packer.run_isSome hn hm hr lg [.flush]
    simp only [Logger.run, List.foldlM_cons, bind_eq_ok] at hlg'
    obtain ⟨lg₁, hflush, -⟩ := hlg'
    exact ⟨lg₁, hflush⟩
  induction actions generalizing w with
  | nil => exact ⟨w, rfl⟩
  | cons action actions ih =>
    have hstep : ∃ w₁, w.step sites action = .ok w₁ ∧
        Lifecycle (w₁.loggers.map Prod.snd) actions := by
      cases action with
      | create => exact ⟨_, rfl, by simpa [Lifecycle] using h⟩
      | log l site args =>
        obtain ⟨lg, hlg⟩ := World.loggers_of_alive h.1
        obtain ⟨w₁, hw₁, halive⟩ := World.use_of_alive true
          (f := fun lg => binaryLog w.statics lg site (sites site).formatString args) hlg
          (hlog w.statics lg site args)
        exact ⟨w₁, hw₁, by rw [halive, set_of_getElem? h.1]; exact h.2⟩
      | flush l =>
        obtain ⟨lg, hlg⟩ := World.loggers_of_alive h.1
        obtain ⟨lg', hlg'⟩ := hflush lg
        obtain ⟨w₁, hw₁, halive⟩ := World.use_of_alive true
          (f := fun lg => lg.flush.map (fun lg => (w.statics, lg))) hlg ⟨_, by rw [hlg']; rfl⟩
        exact ⟨w₁, hw₁, by rw [halive, set_of_getElem? h.1]; exact h.2⟩
      | destroy l =>
        obtain ⟨lg, hlg⟩ := World.loggers_of_alive h.1
        obtain ⟨lg₁, hlg₁⟩ := hflush lg
        obtain ⟨lg₂, hlg₂⟩ := hflush lg₁
        obtain ⟨w₁, hw₁, halive⟩ := World.use_of_alive false
          (f := fun lg => lg.destroy.map (fun lg => (w.statics, lg))) hlg
          ⟨_, by rw [Logger.destroy, hlg₁, ok_bind, hlg₂]; rfl⟩
        exact ⟨w₁, hw₁, by rw [halive]; exact h.2⟩
    obtain ⟨w₁, hw₁, hrest⟩ := hstep
    obtain ⟨w', hw'⟩ := ih hrest
    exact ⟨w', by rw [World.run, List.foldlM_cons, hw₁, ok_bind]; exact hw'⟩

/-- Loggers that are live when used, call sites that each stay with one logger, at most 256 of them
    on a logger: every id written to the log of a logger is the number of its call site's row in the
    index of the same logger. A run on `packer` returns; on `ringbuffer_packer` it may abort. -/
theorem ids_name_own_rows {N M K : Nat} (hn : 1 ≤ n) (hm : 2 ≤ m) (hr : 1 ≤ r)
    (sites : S → CallSite) (actions : List (WorldAction S)) (hlive : Lifecycle [] actions)
    (hone : OneLogger actions)
    (hconforms : ∀ l, Conforms sites (executions (actionsOn l actions))) :
    (∃ w : World S (Packer n m r), World.run sites .start actions = .ok w ∧
      IdsNameOwnRows Packer.observation sites actions w) ∧
    (∀ w : World S (RingbufferPacker N M K), World.run sites .start actions = .ok w →
      IdsNameOwnRows RingbufferPacker.observation sites actions w) := by
  constructor
  · obtain ⟨w, hw⟩ := World.run_isSome (w := .start) hn hm hr sites actions hlive
    exact ⟨w, hw,
      idsNameOwnRows_of_run Packer.refinement Packer.observation_sound hone hconforms hw⟩
  · intro w hw
    exact idsNameOwnRows_of_run RingbufferPacker.refinement RingbufferPacker.observation_sound hone
      hconforms hw

end Packer

/-- Two call sites without arguments. -/
def plainSites : Bool → CallSite
  | true => ⟨.literal [65], []⟩
  | false => ⟨.literal [66], []⟩

/-- Two loggers, a call site each; the first one is destroyed on the way. -/
def twoLoggers : List (WorldAction Bool) :=
  [.create, .log 0 true [], .create, .log 1 false [], .destroy 0, .log 1 false []]

/-- Both loggers write ids of their own rows. -/
theorem ids_name_own_rows_two :
    ∃ w : World Bool (Packer 1 2 1), World.run plainSites .start twoLoggers = .ok w ∧
      IdsNameOwnRows Packer.observation plainSites twoLoggers w := by
  refine (ids_name_own_rows (n := 1) (m := 2) (r := 1) (N := 0) (M := 0) (K := 0) (by decide)
    (by decide) (by decide) plainSites twoLoggers (by simp [twoLoggers, Lifecycle]) ?_ ?_).1
  · have howner : ∀ l site args, .log l site args ∈ twoLoggers → l = if site then 0 else 1 := by
      intro l site args h
      simp [twoLoggers] at h
      rcases h with ⟨rfl, rfl, -⟩ | ⟨rfl, rfl, -⟩ <;> rfl
    intro l l' site args args' h h'
    exact (howner l site args h).trans (howner l' site args' h').symm
  · intro l
    have hargs : ∀ x ∈ executions (actionsOn l twoLoggers), x.2 = [] := by
      rcases l with _ | _ | l
      · decide
      · decide
      · exact fun x hx => absurd hx List.not_mem_nil
    refine ⟨fun x hx => ?_, fun x _ => ?_, fun x hx => ?_, fun x hx => ?_, ?_⟩
    · rw [hargs x hx]
      cases x.1 <;> rfl
    · cases x.1 <;> decide
    · rw [hargs x hx]
      exact Nat.zero_le _
    · rw [hargs x hx]
      simp
    · rcases l with _ | _ | l
      · decide
      · decide
      · exact Nat.zero_le _

/-- A call site without arguments. -/
def oneSite : Unit → CallSite := fun _ => ⟨.literal [65], []⟩

/-- The second logger gets the id of a row that only the first one has. -/
theorem ids_name_foreign_row :
    ∃ w : World Unit (Packer 1048576 32 32),
      World.run oneSite .start ([.create, .create, .log 0 () []] ++ [.log 1 () []]) = .ok w ∧
      ¬ IdsNameOwnRows Packer.observation oneSite
        ([.create, .create, .log 0 () []] ++ [.log 1 () []]) w := by
  have hruns := World.run_isSome (S := Unit) (n := 1048576) (m := 32) (r := 32) (w := .start)
    (by decide) (by decide) (by decide) oneSite
  obtain ⟨w₁, hw₁⟩ := hruns [.create, .create, .log 0 () []] (by simp [Lifecycle, World.start])
  obtain ⟨w, hw⟩ := hruns ([.create, .create, .log 0 () []] ++ [.log 1 () []])
    (by simp [Lifecycle, World.start])
  have hstep := hw
  rw [World.run, List.foldlM_append, ← World.run, hw₁, ok_bind, List.foldlM_cons] at hstep
  obtain ⟨w₂, hw₂, hend⟩ := bind_eq_ok.1 hstep
  obtain rfl := Except.ok.inj hend
  have hempty : ((World.run (σ := Packer 1048576 32 32) oneSite
      .start [.create, .create, .log 0 () []]).toOption.all (fun w =>
        (w.logger 1).packer.logFile.contents.length == 0)) = true := by decide
  have hwritten : ((World.run (σ := Packer 1048576 32 32) oneSite
      .start ([.create, .create, .log 0 () []] ++ [.log 1 () []])).toOption.all (fun w =>
        (w.logger 1).packer.logFile.contents == [0, 0]
          && (w.logger 1).packer.indexFile.contents == [])) = true := by decide
  rw [hw₁] at hempty
  rw [hw] at hwritten
  simp only [Except.toOption, Option.all_some, Bool.and_eq_true, beq_iff_eq] at hempty hwritten
  refine ⟨w₂, hw, fun hown => ?_⟩
  have hwrites : WritesId Packer.observation w₁ w₂ 1 [] 0 := by
    refine ⟨by decide, ?_, ?_⟩
    · show (w₂.logger 1).packer.logFile.contents.length
        = (w₁.logger 1).packer.logFile.contents.length + 2
      rw [hwritten.1, hempty]
      rfl
    · show [0, 0] <:+ (w₂.logger 1).packer.logFile.contents
      rw [hwritten.1]
  obtain ⟨table, row, hparse, hrow, -⟩ := hown _ 1 () [] [] w₁ w₂ 0 rfl hw₁ hw₂ hwrites
  change parse (w₂.logger 1).packer.indexFile.contents = _ at hparse
  rw [hwritten.2] at hparse
  obtain rfl := Option.some.inj hparse
  exact absurd hrow (by simp)

end BinaryLog
