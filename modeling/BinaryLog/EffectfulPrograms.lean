import BinaryLog.Effects
import BinaryLog.RoundTrip

set_option autoImplicit false

/-! # What a program with effectful arguments logs, and what is read back

`ArgExpr.observe` runs a program on a recorder in place of its logger. The expansion of the macro
stays as it is: a call site has a static, and its first execution evaluates the arguments once
before. But ids are numbers without a width, there are no buffers and no files, and what a statement
hands to `log` is put on record under the call site's name.

The program with its logger follows it (`Simulates`): it registers the call sites in the order of
their first executions and logs what is put on record, and the unpacker prints the record exactly
where the format can tell the entries apart (`effects_recovered_iff`). -/

namespace BinaryLog

open Simulation Runs Firsts

/-! ## Programs on a recorder -/

/-- A program and its recorder: its memory, the call sites registered so far in their order, and the
    entries and flushes so far. -/
structure Recorder (τ S : Type) where
  memory : τ
  seen : List S
  record : List (Event (S × List Arg))

section Observe

variable {τ S : Type} [DecidableEq S]

/-- One execution of `BINARY_LOG` at `site` on the recorder, for a way to evaluate its argument
    list. -/
def observeWith (observeArgs : List S → Recorder τ S → Option (List Arg × Recorder τ S))
    (busy : List S) (site : S) (st : Recorder τ S) : Option (Recorder τ S) :=
  if site ∈ st.seen then do
    let (args, st) ← observeArgs busy st
    some { st with record := st.record ++ [.item (site, args)] }
  else if site ∈ busy then none
  else do
    -- the initialiser: only the types and the constants of these values reach the row
    let (_, st) ← observeArgs (site :: busy) st
    let (args, st) ← observeArgs busy { st with seen := st.seen ++ [site] }
    some { st with record := st.record ++ [.item (site, args)] }

mutual

/-- Evaluate an expression on the recorder. -/
def ArgExpr.observe (busy : List S) : ArgExpr τ S → Recorder τ S → Option (Arg × Recorder τ S)
  | .value arg, st => some (arg, st)
  | .step update next, st =>
      ArgExpr.observe busy (next st.memory) { st with memory := update st.memory }
  | .log site args next, st => do
      let st ← observeWith (fun busy st => observeArgs busy args st) busy site st
      ArgExpr.observe busy next st
  | .flush next, st => ArgExpr.observe busy next { st with record := st.record ++ [.mark] }

/-- Evaluate the arguments of a call on the recorder. -/
def observeArgs (busy : List S) :
    List (ArgExpr τ S) → Recorder τ S → Option (List Arg × Recorder τ S)
  | [], st => some ([], st)
  | e :: es, st => do
      let (arg, st) ← ArgExpr.observe busy e st
      let (args, st) ← observeArgs busy es st
      some (arg :: args, st)

end

/-- The entries as calls: the number of a call site is its place in `sites`. -/
def numberedCalls (sites : List S) (trace : List (Event (S × List Arg))) : List (Event Call) :=
  trace.map (Event.map (fun x => ⟨sites.idxOf x.1, x.2⟩))

def Recorder.calls (st : Recorder τ S) : List (Event Call) := numberedCalls st.seen st.record

end Observe

/-! ## Types -/

section Typed

variable {τ S : Type}

mutual

/-- The values of the expression are all accepted by `P`, and those of the arguments of the
    statements in it by the rows `proto` of their call sites. -/
def ArgExpr.Typed (proto : S → List IndexArg) (P : Arg → Prop) : ArgExpr τ S → Prop
  | .value arg => P arg
  | .step _ next => ∀ memory, ArgExpr.Typed proto P (next memory)
  | .log site args next => TypedArgs proto (proto site) args ∧ ArgExpr.Typed proto P next
  | .flush next => ArgExpr.Typed proto P next

/-- As many arguments as the row has, each with the type, the constness and the constant that the
    row has for it, and strings that fit their length field. -/
def TypedArgs (proto : S → List IndexArg) : List IndexArg → List (ArgExpr τ S) → Prop
  | [], [] => True
  | p :: ps, e :: es =>
      ArgExpr.Typed proto (fun arg => arg.indexArg = p ∧ arg.value.Fits) e ∧ TypedArgs proto ps es
  | _, _ => False

end

end Typed

/-! ## Registered call sites -/

section Grows

variable {τ S : Type}

/-- Call sites stay registered, and those in `busy` are not registered meanwhile. -/
structure Recorder.Grows (busy : List S) (st st' : Recorder τ S) : Prop where
  seen : st.seen <+: st'.seen
  busy : ∀ site ∈ busy, site ∉ st.seen → site ∉ st'.seen

theorem Recorder.Grows.of_seen {busy : List S} {st st' : Recorder τ S} (h : st'.seen = st.seen) :
    st.Grows busy st' :=
  ⟨h ▸ List.prefix_rfl, fun _ _ hsite => h ▸ hsite⟩

theorem Recorder.Grows.trans {busy : List S} {st st₁ st₂ : Recorder τ S} (h : st.Grows busy st₁)
    (h' : st₁.Grows busy st₂) : st.Grows busy st₂ :=
  ⟨h.seen.trans h'.seen, fun site hbusy hsite => h'.busy site hbusy (h.busy site hbusy hsite)⟩

theorem Recorder.Grows.length_le {busy : List S} {st st' : Recorder τ S} (h : st.Grows busy st') :
    st.seen.length ≤ st'.seen.length := h.seen.length_le

variable [DecidableEq S]

/-- The number of a registered call site stays. -/
theorem Recorder.Grows.idxOf_eq {busy : List S} {st st' : Recorder τ S} (h : st.Grows busy st')
    {site : S} (hsite : site ∈ st.seen) : st'.seen.idxOf site = st.seen.idxOf site := by
  obtain ⟨more, hmore⟩ := h.seen
  rw [← hmore, List.idxOf_append_of_mem hsite]

/-- An execution that is defined is a later one, or the first one with its two evaluations. -/
theorem observeWith_cases
    {observeArgs : List S → Recorder τ S → Option (List Arg × Recorder τ S)} {busy : List S}
    {site : S} {st st' : Recorder τ S} (h : observeWith observeArgs busy site st = some st') :
    (site ∈ st.seen ∧ ∃ args st₁, observeArgs busy st = some (args, st₁) ∧
      st' = { st₁ with record := st₁.record ++ [.item (site, args)] }) ∨
    (site ∉ st.seen ∧ site ∉ busy ∧ ∃ first st₁ args st₂,
      observeArgs (site :: busy) st = some (first, st₁) ∧
      observeArgs busy { st₁ with seen := st₁.seen ++ [site] } = some (args, st₂) ∧
      st' = { st₂ with record := st₂.record ++ [.item (site, args)] }) := by
  unfold observeWith at h
  split at h
  · next hsite =>
    simp only [Option.bind_eq_bind, Option.bind_eq_some_iff, Option.some.injEq, Prod.exists] at h
    obtain ⟨args, st₁, hargs, rfl⟩ := h
    exact .inl ⟨hsite, args, st₁, hargs, rfl⟩
  · next hsite =>
    split at h
    · exact absurd h (by simp)
    · next hbusy =>
      simp only [Option.bind_eq_bind, Option.bind_eq_some_iff, Option.some.injEq, Prod.exists] at h
      obtain ⟨first, st₁, hfirst, args, st₂, hargs, rfl⟩ := h
      exact .inr ⟨hsite, hbusy, first, st₁, args, st₂, hfirst, hargs, rfl⟩

theorem grows_observeWith {observeArgs : List S → Recorder τ S → Option (List Arg × Recorder τ S)}
    (hargs : ∀ busy st args st', observeArgs busy st = some (args, st') → st.Grows busy st')
    {busy : List S} {site : S} {st st' : Recorder τ S}
    (h : observeWith observeArgs busy site st = some st') : st.Grows busy st' := by
  rcases observeWith_cases h with ⟨-, args, st₁, hobserve, rfl⟩ |
    ⟨-, hbusy, first, st₁, args, st₂, hfirst, hsecond, rfl⟩
  · exact (hargs _ _ _ _ hobserve).trans (.of_seen rfl)
  · have hgrows := hargs _ _ _ _ hfirst
    have hregister : st.Grows busy { st₁ with seen := st₁.seen ++ [site] } := by
      refine ⟨hgrows.seen.trans (List.prefix_append _ _), ?_⟩
      intro other hother hnew hmem
      rcases List.mem_append.1 hmem with hmem | hmem
      · exact hgrows.busy other (List.mem_cons_of_mem _ hother) hnew hmem
      · exact hbusy (List.mem_singleton.1 hmem ▸ hother)
    exact hregister.trans ((hargs _ _ _ _ hsecond).trans (.of_seen rfl))

theorem grows_observeArgs {es : List (ArgExpr τ S)}
    (h : ∀ e ∈ es, ∀ busy st arg st', ArgExpr.observe busy e st = some (arg, st') →
      st.Grows busy st')
    {busy : List S} {st st' : Recorder τ S} {args : List Arg}
    (hobserve : observeArgs busy es st = some (args, st')) : st.Grows busy st' := by
  induction es generalizing st args with
  | nil =>
    obtain ⟨-, rfl⟩ := Prod.mk.inj (Option.some.inj hobserve)
    exact .of_seen rfl
  | cons e es ih =>
    simp only [observeArgs, Option.bind_eq_bind, Option.bind_eq_some_iff, Option.some.injEq,
      Prod.exists, Prod.mk.injEq] at hobserve
    obtain ⟨arg, st₁, hfirst, args', st₂, hrest, -, rfl⟩ := hobserve
    exact (h e List.mem_cons_self _ _ _ _ hfirst).trans
      (ih (fun e' he' => h e' (List.mem_cons_of_mem _ he')) hrest)

theorem grows_observe {e : ArgExpr τ S} {busy : List S} {st st' : Recorder τ S} {arg : Arg}
    (h : ArgExpr.observe busy e st = some (arg, st')) : st.Grows busy st' := by
  induction e using ArgExpr.induct generalizing busy st st' arg with
  | value arg =>
    obtain ⟨-, rfl⟩ := Prod.mk.inj (Option.some.inj h)
    exact .of_seen rfl
  | step update next ih =>
    have hrest := ih st.memory h
    exact ⟨hrest.seen, hrest.busy⟩
  | log site args next hargs hnext =>
    simp only [ArgExpr.observe, Option.bind_eq_bind, Option.bind_eq_some_iff] at h
    obtain ⟨st₁, hstatement, hrest⟩ := h
    exact (grows_observeWith (fun _ _ _ _ hobserve =>
      grows_observeArgs (fun e he _ _ _ _ => hargs e he) hobserve) hstatement).trans (hnext hrest)
  | flush next ih =>
    have hrest := ih h
    exact ⟨hrest.seen, hrest.busy⟩

end Grows

/-! ## With a logger -/

section Simulates

variable {τ S σ : Type} [DecidableEq S] [PackerClass σ] {format : S → CString}
  {proto : S → List IndexArg}

/-- The row of a call site. -/
def siteRow (format : S → CString) (proto : S → List IndexArg) (site : S) : IndexEntry :=
  ⟨(format site).bytes, proto site⟩

/-- The program with the logger is where the program on the recorder is, and its logger has gone
    through `ops`: it has registered the call sites in order and logged what is on record. -/
structure Simulates (format : S → CString) (proto : S → List IndexArg) (st : Recorder τ S)
    (m : Machine τ S σ) (ops : List Op) : Prop where
  memory : m.memory = st.memory
  run : Logger.run .fresh ops = .ok m.logger
  numbered : Numbered st.seen m.statics m.logger.formatStringIndex
  rows : (registrations ops).map Registration.row = st.seen.map (siteRow format proto)
  fits : ∀ reg ∈ registrations ops, ∀ arg ∈ reg.args, arg.value.Fits
  calls : callEvents ops = st.calls
  typed : ∀ x ∈ items st.record, x.1 ∈ st.seen ∧ x.2.map Arg.indexArg = proto x.1 ∧
    ∀ arg ∈ x.2, arg.value.Fits

theorem Simulates.start (memory : τ) : Simulates format proto (⟨memory, [], []⟩ : Recorder τ S)
    (⟨memory, fun _ => none, .fresh, []⟩ : Machine τ S σ) [] :=
  ⟨rfl, rfl, .start, rfl, fun _ h => absurd h List.not_mem_nil, rfl,
    fun _ h => absurd h List.not_mem_nil⟩

theorem Simulates.flush {st : Recorder τ S} {m : Machine τ S σ} {ops : List Op}
    (h : Simulates format proto st m ops) {lg : Logger σ} (hflush : m.logger.flush = .ok lg) :
    Simulates format proto { st with record := st.record ++ [.mark] } { m with logger := lg }
      (ops ++ [.flush]) where
  memory := h.memory
  run := by
    rw [Logger.run_concat, h.run, ok_bind]
    exact hflush
  numbered := by
    have hcounter := Logger.formatStringIndex_of_flush hflush
    exact ⟨h.numbered.old, h.numbered.new, hcounter.trans h.numbered.counter⟩
  rows := by
    rw [registrations_append, List.map_append, h.rows]
    exact List.append_nil _
  fits := by
    rw [registrations_append]
    simpa [registrations] using h.fits
  calls := by
    rw [callEvents_append, h.calls, Recorder.calls, Recorder.calls, numberedCalls, numberedCalls,
      List.map_append]
    rfl
  typed := by
    rw [items_append]
    simpa [items] using h.typed

theorem Simulates.log {st : Recorder τ S} {m : Machine τ S σ} {ops : List Op}
    (h : Simulates format proto st m ops) {site : S} (hsite : site ∈ st.seen)
    (hlength : st.seen.length ≤ 256) {args : List Arg}
    (hargs : args.map Arg.indexArg = proto site ∧ ∀ arg ∈ args, arg.value.Fits) {lg : Logger σ}
    (hlog : m.logger.log (st.seen.idxOf site) args = .ok lg) :
    Simulates format proto { st with record := st.record ++ [.item (site, args)] }
      { m with logger := lg, entries := m.entries ++ [(site, args)] }
      (ops ++ [.log (st.seen.idxOf site) args]) where
  memory := h.memory
  run := by
    rw [Logger.run_concat, h.run, ok_bind]
    exact hlog
  numbered := by
    have hcounter := Logger.formatStringIndex_of_log hlog
    exact ⟨h.numbered.old, h.numbered.new, hcounter.trans h.numbered.counter⟩
  rows := by
    rw [registrations_append, List.map_append, h.rows]
    exact List.append_nil _
  fits := by
    rw [registrations_append]
    simpa [registrations] using h.fits
  calls := by
    have hplace := List.idxOf_lt_length_iff.2 hsite
    rw [callEvents_append, h.calls, callEvents_log _ _ (by omega), Recorder.calls, Recorder.calls,
      numberedCalls, numberedCalls, List.map_append]
    rfl
  typed := by
    intro x hx
    rw [items_append, List.mem_append] at hx
    rcases hx with hx | hx
    · exact h.typed x hx
    · obtain rfl := List.mem_singleton.1 hx
      exact ⟨hsite, hargs⟩

theorem Simulates.register {st : Recorder τ S} {m : Machine τ S σ} {ops : List Op}
    (h : Simulates format proto st m ops) {site : S} (hsite : site ∉ st.seen)
    (hlength : st.seen.length < 256) {args : List Arg}
    (hargs : args.map Arg.indexArg = proto site ∧ ∀ arg ∈ args, arg.value.Fits) {lg : Logger σ}
    {id : UInt8} (hindex : m.logger.logIndex (format site) args = .ok (lg, id)) :
    id.toNat = (st.seen ++ [site]).idxOf site ∧
      Simulates format proto { st with seen := st.seen ++ [site] }
        { m with logger := lg, statics := Function.update m.statics site (some id.toNat) }
        (ops ++ [.logIndex (format site) args]) := by
  obtain ⟨hcounter, hid⟩ := Logger.formatStringIndex_of_logIndex hindex
  have hnext := h.numbered.next_toNat hlength
  have hregister := h.numbered.register hsite hlength
  simp only [registered, h.numbered.new site hsite] at hregister
  refine ⟨?_, h.memory, ?_, ?_, ?_, ?_, ?_, ?_⟩
  · rw [hid, hnext, List.idxOf_append_of_notMem hsite, List.idxOf_cons_self]
    rfl
  · rw [Logger.run_concat, h.run, ok_bind, Logger.step, hindex]
    rfl
  · rw [hid]
    exact ⟨hregister.old, hregister.new, hcounter.trans hregister.counter⟩
  · rw [registrations_append, List.map_append, h.rows, List.map_append]
    show _ ++ [Registration.row ⟨format site, args⟩] = _
    rw [Registration.row, hargs.1]
    rfl
  · intro reg hreg
    rw [registrations_append, List.mem_append] at hreg
    rcases hreg with hreg | hreg
    · exact h.fits reg hreg
    · obtain rfl := List.mem_singleton.1 hreg
      exact hargs.2
  · rw [callEvents_append, h.calls]
    refine (List.append_nil _).trans (List.map_congr_left (fun e he => ?_))
    cases e with
    | mark => rfl
    | item x =>
      -- numbers of registered call sites do not change
      have hmem : x ∈ items st.record := mem_items.2 he
      rw [Event.map, Event.map, List.idxOf_append_of_mem (h.typed x hmem).1]
  · intro x hx
    obtain ⟨hseen, htyped⟩ := h.typed x hx
    exact ⟨List.mem_append_left _ hseen, htyped⟩

/-- What evaluates the arguments of one call simulates what observes them. -/
def SimulatesArgs (format : S → CString) (proto : S → List IndexArg) (ps : List IndexArg)
    (observeArgs : List S → Recorder τ S → Option (List Arg × Recorder τ S))
    (evalArgs : List S → Machine τ S σ → Except Fault (List (Nat × Arg) × Machine τ S σ)) : Prop :=
  ∀ ⦃busy st args st' m ops⦄, observeArgs busy st = some (args, st') → st'.seen.length ≤ 256 →
    Simulates format proto st m ops → (args.map Arg.indexArg = ps ∧ ∀ arg ∈ args, arg.value.Fits) ∧
      ∃ values m' ops', evalArgs busy m = .ok (values, m') ∧ values.map Prod.snd = args ∧
        Simulates format proto st' m' ops'

theorem simulates_executeWith (hσ : Reliable σ) {site : S}
    {observeArgs : List S → Recorder τ S → Option (List Arg × Recorder τ S)}
    {evalArgs : List S → Machine τ S σ → Except Fault (List (Nat × Arg) × Machine τ S σ)}
    (hgrows : ∀ busy st args st', observeArgs busy st = some (args, st') → st.Grows busy st')
    (hargs : SimulatesArgs format proto (proto site) observeArgs evalArgs) {busy : List S}
    {st st' : Recorder τ S} (hobserve : observeWith observeArgs busy site st = some st')
    (hlength : st'.seen.length ≤ 256) {m : Machine τ S σ} {ops : List Op}
    (h : Simulates format proto st m ops) :
    ∃ evaluated m' ops', executeWith format evalArgs busy site m = .ok (evaluated, m') ∧
      Simulates format proto st' m' ops' := by
  rcases observeWith_cases hobserve with ⟨hsite, args, st₁, hvalues, rfl⟩ |
    ⟨hsite, hbusy, first, st₁, args, st₂, hfirst, hsecond, rfl⟩
  · obtain ⟨htyped, values, m₁, ops₁, heval, rfl, h₁⟩ := hargs hvalues hlength h
    have hgrows₁ := hgrows _ _ _ _ hvalues
    obtain ⟨lg, hlog⟩ := hσ.log m₁.logger (st₁.seen.idxOf site) (values.map Prod.snd)
    have hstatic := h.numbered.old site hsite
    -- the static keeps the number of the first execution
    rw [← hgrows₁.idxOf_eq hsite] at hstatic
    simp only [executeWith, hstatic, heval, ok_bind, Machine.log, hlog]
    exact ⟨_, _, _, rfl, h₁.log (hgrows₁.seen.subset hsite) hlength htyped hlog⟩
  · have hgrows₁ := hgrows _ _ _ _ hfirst
    have hgrows₂ := hgrows _ _ _ _ hsecond
    have hlength₁ : st₁.seen.length < 256 := by
      have hle := hgrows₂.length_le.trans hlength
      rw [List.length_append, List.length_singleton] at hle
      omega
    obtain ⟨htyped₁, values₁, m₁, ops₁, heval₁, rfl, h₁⟩ := hargs hfirst hlength₁.le h
    -- evaluating the arguments has not registered this call site
    have hnew := hgrows₁.busy site List.mem_cons_self hsite
    obtain ⟨lg, id, hindex⟩ := hσ.logIndex m₁.logger (format site) (values₁.map Prod.snd)
    obtain ⟨hid, hregistered⟩ := h₁.register hnew hlength₁ htyped₁ hindex
    obtain ⟨htyped₂, values₂, m₂, ops₂, heval₂, rfl, h₂⟩ := hargs hsecond hlength hregistered
    have hseen : site ∈ st₁.seen ++ [site] := List.mem_append_right _ (List.mem_singleton.2 rfl)
    have hplace : id.toNat = st₂.seen.idxOf site := hid.trans (hgrows₂.idxOf_eq hseen).symm
    obtain ⟨lg', hlog⟩ := hσ.log m₂.logger (st₂.seen.idxOf site) (values₂.map Prod.snd)
    have hstatic := h.numbered.new site hsite
    rw [hplace] at heval₂
    simp only [executeWith, hstatic, if_neg hbusy, heval₁, ok_bind, Machine.register, hindex,
      heval₂, Machine.log, hplace, hlog]
    exact ⟨_, _, _, rfl, h₂.log (hgrows₂.seen.subset hseen) hlength htyped₂ hlog⟩

theorem simulates_evalArgs {es : List (ArgExpr τ S)}
    (h : ∀ e ∈ es, ∀ (P : Arg → Prop) busy (st : Recorder τ S) arg st' (m : Machine τ S σ) ops,
      e.Typed proto P → ArgExpr.observe busy e st = some (arg, st') → st'.seen.length ≤ 256 →
      Simulates format proto st m ops →
      P arg ∧ ∃ m' ops', ArgExpr.eval format busy e m = .ok (arg, m') ∧
        Simulates format proto st' m' ops')
    {ps : List IndexArg} (htyped : TypedArgs proto ps es) (i : Nat) :
    SimulatesArgs (σ := σ) format proto ps (fun busy st => observeArgs busy es st)
      (fun busy m => evalArgs format busy i es m) := by
  intro busy st args st' m ops hobserve hlength hsim
  induction es generalizing ps i st args m ops with
  | nil =>
    obtain ⟨rfl, rfl⟩ := Prod.mk.inj (Option.some.inj hobserve)
    cases ps with
    | nil => exact ⟨⟨rfl, fun _ hnil => absurd hnil List.not_mem_nil⟩, [], m, ops, rfl, rfl, hsim⟩
    | cons p ps => exact absurd htyped (by simp [TypedArgs])
  | cons e es ih =>
    cases ps with
    | nil => exact absurd htyped (by simp [TypedArgs])
    | cons p ps =>
      obtain ⟨hhead, htail⟩ := htyped
      simp only [observeArgs, Option.bind_eq_bind, Option.bind_eq_some_iff, Option.some.injEq,
        Prod.exists, Prod.mk.injEq] at hobserve
      obtain ⟨arg, st₁, hfirst, rest, st₂, hrest, rfl, rfl⟩ := hobserve
      have hgrows := grows_observeArgs (fun e _ _ _ _ _ => grows_observe) hrest
      obtain ⟨⟨hindex, hfits⟩, m₁, ops₁, heval, h₁⟩ := h e List.mem_cons_self _ _ _ _ _ _ _ hhead
        hfirst (hgrows.length_le.trans hlength) hsim
      obtain ⟨⟨hindices, hallFit⟩, values, m₂, ops₂, hevals, rfl, h₂⟩ :=
        ih (fun e' he' => h e' (List.mem_cons_of_mem _ he')) htail (i + 1) hrest h₁
      refine ⟨⟨by rw [List.map_cons, hindex, hindices], ?_⟩, (i, arg) :: values, m₂, ops₂, ?_, rfl,
        h₂⟩
      · intro arg' harg'
        rcases List.mem_cons.1 harg' with rfl | harg'
        · exact hfits
        · exact hallFit arg' harg'
      · simp only [evalArgs, heval, ok_bind, hevals]

theorem simulates_eval (hσ : Reliable σ) {e : ArgExpr τ S} {P : Arg → Prop} {busy : List S}
    {st st' : Recorder τ S} {arg : Arg} {m : Machine τ S σ} {ops : List Op}
    (htyped : e.Typed proto P) (hobserve : ArgExpr.observe busy e st = some (arg, st'))
    (hlength : st'.seen.length ≤ 256) (h : Simulates format proto st m ops) :
    P arg ∧ ∃ m' ops', ArgExpr.eval format busy e m = .ok (arg, m') ∧
      Simulates format proto st' m' ops' := by
  induction e using ArgExpr.induct generalizing P busy st st' arg m ops with
  | value arg =>
    obtain ⟨rfl, rfl⟩ := Prod.mk.inj (Option.some.inj hobserve)
    exact ⟨htyped, m, ops, rfl, h⟩
  | step update next ih =>
    have hupdated : Simulates format proto { st with memory := update st.memory }
        { m with memory := update st.memory } ops :=
      ⟨rfl, h.run, h.numbered, h.rows, h.fits, h.calls, h.typed⟩
    simp only [ArgExpr.eval, h.memory]
    exact ih st.memory (htyped st.memory) hobserve hlength hupdated
  | log site args next hargs hnext =>
    obtain ⟨htypedArgs, htypedNext⟩ := htyped
    simp only [ArgExpr.observe, Option.bind_eq_bind, Option.bind_eq_some_iff] at hobserve
    obtain ⟨st₁, hstatement, hrest⟩ := hobserve
    have hgrows (busy : List S) (st : Recorder τ S) (values : List Arg) (st' : Recorder τ S)
        (hvalues : observeArgs busy args st = some (values, st')) : st.Grows busy st' :=
      grows_observeArgs (fun e _ _ _ _ _ => grows_observe) hvalues
    have hsimulates : SimulatesArgs (σ := σ) format proto (proto site)
        (fun busy st => observeArgs busy args st) (fun busy m => evalArgs format busy 0 args m) :=
      simulates_evalArgs (fun e he _ _ _ _ _ _ _ h₁ h₂ h₃ h₄ => hargs e he h₁ h₂ h₃ h₄) htypedArgs 0
    obtain ⟨evaluated, m₁, ops₁, hexecute, h₁⟩ := simulates_executeWith hσ hgrows hsimulates
      hstatement ((grows_observe hrest).length_le.trans hlength) h
    obtain ⟨hP, m₂, ops₂, heval, h₂⟩ := hnext htypedNext hrest hlength h₁
    refine ⟨hP, m₂, ops₂, ?_, h₂⟩
    simp only [ArgExpr.eval, hexecute, ok_bind, heval]
  | flush next ih =>
    obtain ⟨lg, hflush⟩ := hσ.flush m.logger
    obtain ⟨hP, m₁, ops₁, heval, h₁⟩ := ih htyped hobserve hlength (h.flush hflush)
    refine ⟨hP, m₁, ops₁, ?_, h₁⟩
    simp only [ArgExpr.eval, hflush, ok_bind, heval]

end Simulates

/-! ## What is read back -/

section Recovered

variable {τ S σ : Type} [DecidableEq S] [PackerClass σ]

/-- A program from the construction of its logger to the end of its destruction: the memory and the
    logger it leaves. -/
def ArgExpr.runMain (format : S → CString) (e : ArgExpr τ S) (memory : τ) :
    Except Fault (τ × Logger σ) := do
  let (_, m) ← ArgExpr.eval format [] e ⟨memory, fun _ => none, .fresh, []⟩
  let lg ← m.logger.destroy
  .ok (m.memory, lg)

/-- The entries in print: the number of the call site, its format string, and the values. -/
def printedEntries (format : S → CString) (sites : List S) (trace : List (Event (S × List Arg))) :
    List LogEntry :=
  (items trace).map (fun x => ⟨sites.idxOf x.1, (format x.1).bytes, x.2.map Arg.typedValue⟩)

def Recorder.printed (format : S → CString) (st : Recorder τ S) : List LogEntry :=
  printedEntries format st.seen st.record

/-- The runs can be told apart from their records: a flush cuts only runs of the first call site, a
    record can hold the lengths, and the pieces are unambiguous. -/
def RunsReadable (es : List (Event Call)) : Prop :=
  CutsOnlyZero (pieces es) ∧ (∀ p ∈ pieces es, p.length < 2 ^ 64) ∧
    Unambiguous ((pieces es).map (List.map Call.index))

instance (es : List (Event Call)) : Decidable (RunsReadable es) := by
  unfold RunsReadable; infer_instance

variable {format : S → CString} {proto : S → List IndexArg} {st : Recorder τ S}
  {m : Machine τ S σ} {ops : List Op}

theorem Simulates.items_eq (h : Simulates format proto st m ops) :
    BinaryLog.calls ops = (items st.record).map (fun x => ⟨st.seen.idxOf x.1, x.2⟩) := by
  rw [BinaryLog.calls, h.calls, Recorder.calls, numberedCalls, items_map]

theorem Simulates.wellTyped (h : Simulates format proto st m ops)
    (hrows : ∀ site, (format site).bytes.length ≤ 65535 ∧ (proto site).length ≤ 255) :
    WellTyped ops := by
  constructor
  · intro reg hreg
    obtain ⟨site, -, hsite⟩ := List.mem_map.1 (h.rows ▸ List.mem_map_of_mem hreg)
    have hformat : (format site).bytes = reg.formatString.bytes :=
      congrArg IndexEntry.formatString hsite
    have hargs : proto site = reg.args.map Arg.indexArg := congrArg IndexEntry.args hsite
    refine ⟨hformat ▸ (hrows site).1, ?_, fun arg harg _ => h.fits reg hreg arg harg⟩
    have hlength := (hrows site).2
    rwa [hargs, List.length_map] at hlength
  · intro c hc
    rw [h.items_eq] at hc
    obtain ⟨x, hx, rfl⟩ := List.mem_map.1 hc
    obtain ⟨hseen, hindex, hfits⟩ := h.typed x hx
    have hplace : (st.seen.map (siteRow format proto))[st.seen.idxOf x.1]?
        = some (siteRow format proto x.1) := by
      rw [List.getElem?_map, List.getElem?_idxOf hseen, Option.map_some]
    rw [← h.rows, List.getElem?_map, Option.map_eq_some_iff] at hplace
    obtain ⟨reg, hreg, hrow⟩ := hplace
    refine ⟨reg, hreg, ?_, hfits⟩
    rw [hindex]
    exact (congrArg IndexEntry.args hrow).symm

theorem Simulates.printed_eq (h : Simulates format proto st m ops) :
    (BinaryLog.calls ops).map (Call.printed (rowTable ops)) = st.printed format := by
  rw [h.items_eq, List.map_map, Recorder.printed, printedEntries]
  refine List.map_congr_left (fun x hx => ?_)
  obtain ⟨hseen, -⟩ := h.typed x hx
  simp only [Function.comp_apply, Call.printed, rowTable, h.rows, List.getElem?_map,
    List.getElem?_idxOf hseen, Option.map_some, Option.getD_some, siteRow]

/-- The unpacker prints what was recorded exactly if its runs are readable. -/
theorem Simulates.unpack_iff (h : Simulates format proto st m ops)
    (hrows : ∀ site, (format site).bytes.length ≤ 65535 ∧ (proto site).length ≤ 255) :
    (∃ rest, (finalFiles ops).unpack = some (st.printed format, rest)) ↔
      RunsReadable st.calls := by
  have htyped := h.wellTyped hrows
  have hrecover := recover_finalFiles_iff htyped
  rw [Files.Recover, and_iff_right htyped.parse_index, h.printed_eq, h.calls, legible_iff,
    and_assoc] at hrecover
  exact hrecover

/-- A program whose statements have arguments with effects, nested statements among them, and that
    registers at most 256 call sites: with any buffer sizes (the runlength buffer at least ten
    bytes) it ends as on a recorder, and the unpacker prints the record exactly if the runs of the
    call sites can be told apart. -/
theorem effects_recovered_iff {n k r : Nat} (hn : 1 ≤ n) (hk : 2 ≤ k) (hr : 10 ≤ r)
    (format : S → CString) (proto : S → List IndexArg)
    (hrows : ∀ site, (format site).bytes.length ≤ 65535 ∧ (proto site).length ≤ 255)
    (e : ArgExpr τ S) (memory : τ) (htyped : e.Typed proto (fun _ => True)) (arg : Arg)
    (st : Recorder τ S) (hobserve : e.observe [] ⟨memory, [], []⟩ = some (arg, st))
    (hsites : st.seen.length ≤ 256) :
    ∃ lg : Logger (Packer n k r), e.runMain format memory = .ok (st.memory, lg) ∧
      ((∃ rest, lg.packer.files.unpack = some (st.printed format, rest)) ↔
        RunsReadable st.calls) := by
  have hpos : 1 ≤ r := by omega
  have hstart : Simulates (σ := Packer n k r) format proto ⟨memory, [], []⟩ _ [] := .start memory
  obtain ⟨-, m, ops, heval, h⟩ :=
    simulates_eval (Packer.reliable hn hk hpos) htyped hobserve hsites hstart
  obtain ⟨lg, hlg⟩ := Packer.run_isSome hn hk hpos m.logger [.flush, .flush]
  have hrun : Logger.run .fresh (ops ++ [.flush] ++ [.flush]) = .ok lg := by
    rw [List.append_assoc, Logger.run_append, h.run]
    exact hlg
  refine ⟨lg, ?_, ?_⟩
  · simp only [ArgExpr.runMain, heval, ok_bind, Logger.destroy_eq, hlg, h.memory]
  · rw [Packer.files_of_run_flush hr hrun, finalFiles_concat_flush]
    exact h.unpack_iff hrows

end Recovered

/-- Two executions of a statement whose argument logs and counts. -/
def countTwice : ArgExpr Nat Bool :=
  .log true [loggedIncrement false]
    (.log true [loggedIncrement false] (.value (.dynamic (.uint8 0))))

def countFormat : Bool → CString
  | true => .literal [123, 125]
  | false => .literal [43]

def countProto : Bool → List IndexArg
  | true => [⟨some .typeUint8, false, []⟩]
  | false => []

/-- The first of the two counts twice, so the second value is 2, and the nested statement has logged
    three times. -/
example : ∃ lg : Logger (Packer 1 2 10), countTwice.runMain countFormat 0 = .ok (3, lg) ∧
      ∃ rest, lg.packer.files.unpack = some
        ([⟨0, [43], []⟩, ⟨0, [43], []⟩, ⟨1, [123, 125], [(.typeUint8, [1])]⟩, ⟨0, [43], []⟩,
          ⟨1, [123, 125], [(.typeUint8, [2])]⟩], rest) := by
  have htyped : countTwice.Typed countProto (fun _ => True) := by
    simp [countTwice, loggedIncrement, ArgExpr.Typed, TypedArgs, countProto, Arg.indexArg,
      Arg.isConstant, Arg.value, ArgValue.uint8, ArgValue.getArgType, ArgValue.cppType,
      CppType.getArgType, ScalarType.getArgType, ArgValue.Fits]
  obtain ⟨lg, hlg, hiff⟩ := effects_recovered_iff (n := 1) (k := 2) (r := 10) le_rfl le_rfl le_rfl
    countFormat countProto (fun site => by cases site <;> decide) countTwice 0 htyped
    (.dynamic (.uint8 0))
    ⟨3, [false, true], [.item (false, []), .item (false, []), .item (true, [.dynamic (.uint8 1)]),
      .item (false, []), .item (true, [.dynamic (.uint8 2)])]⟩ rfl (by decide)
  exact ⟨lg, hlg, hiff.2 (by decide)⟩

end BinaryLog
