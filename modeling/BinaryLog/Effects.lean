import BinaryLog.Agreement
import Mathlib.Data.List.Nodup

set_option autoImplicit false

/-! # Arguments with side effects

`BINARY_LOG` expands its arguments into two calls: the initialiser of the call site's static hands
them to `log_index`, the statement behind it to `log`. The first execution evaluates them twice.

An argument expression is a tree of the things it does, one after another: it reads and changes the
memory of the program, executes `BINARY_LOG` statements of its own, flushes the logger, and has a
value in the end. The arguments of a call are evaluated from left to right (C++ leaves the order to
the compiler). -/

namespace BinaryLog

open Simulation

/-! ## Expressions -/

/-- An argument expression over a memory `τ`, in a program with call sites `S`. -/
inductive ArgExpr (τ S : Type) where
  /-- Nothing more to do. -/
  | value (arg : Arg)
  /-- Change the memory, and go on with what was read from it before. -/
  | step (update : τ → τ) (next : τ → ArgExpr τ S)
  /-- Execute the `BINARY_LOG` statement at a call site. -/
  | log (site : S) (args : List (ArgExpr τ S)) (next : ArgExpr τ S)
  /-- `logger.flush()`. -/
  | flush (next : ArgExpr τ S)

theorem ArgExpr.induct {τ S : Type} {P : ArgExpr τ S → Prop} (value : ∀ arg, P (.value arg))
    (step : ∀ update next, (∀ memory, P (next memory)) → P (.step update next))
    (log : ∀ site args next, (∀ e ∈ args, P e) → P next → P (.log site args next))
    (flush : ∀ next, P next → P (.flush next)) (e : ArgExpr τ S) : P e := by
  refine @ArgExpr.rec τ S P (fun es => ∀ e ∈ es, P e) value step log flush ?_ ?_ e
  · intro e he
    exact absurd he List.not_mem_nil
  · intro e es hhead htail e' he'
    rcases List.mem_cons.1 he' with rfl | he'
    · exact hhead
    · exact htail e' he'

section Separate

variable {τ S : Type}

mutual

/-- The expression executes no statement of a site in `busy`, nor does an argument execute the
    statement it belongs to. -/
def ArgExpr.Separate (busy : List S) : ArgExpr τ S → Prop
  | .value _ => True
  | .step _ next => ∀ memory, ArgExpr.Separate busy (next memory)
  | .log site args next =>
      site ∉ busy ∧ SeparateArgs (site :: busy) args ∧ ArgExpr.Separate busy next
  | .flush next => ArgExpr.Separate busy next

def SeparateArgs (busy : List S) : List (ArgExpr τ S) → Prop
  | [] => True
  | e :: es => ArgExpr.Separate busy e ∧ SeparateArgs busy es

end

theorem separateArgs_iff {busy : List S} {es : List (ArgExpr τ S)} :
    SeparateArgs busy es ↔ ∀ e ∈ es, ArgExpr.Separate busy e := by
  induction es with
  | nil => simp [SeparateArgs]
  | cons e es ih => simp [SeparateArgs, ih]

theorem ArgExpr.Separate.of_subset {e : ArgExpr τ S} {busy busy' : List S}
    (h : ArgExpr.Separate busy' e) (hsub : busy ⊆ busy') : ArgExpr.Separate busy e := by
  induction e using ArgExpr.induct generalizing busy busy' with
  | value arg => exact trivial
  | step update next ih =>
    intro memory
    exact ih memory (h memory) hsub
  | log site args next hargs hnext =>
    obtain ⟨hsite, hseparate, hrest⟩ := h
    refine ⟨fun hmem => hsite (hsub hmem), ?_, hnext hrest hsub⟩
    rw [separateArgs_iff] at hseparate ⊢
    intro e he
    exact hargs e he (hseparate e he) (List.cons_subset_cons site hsub)
  | flush next ih => exact ih h hsub

end Separate

/-! ## Machines -/

/-- A program that uses one logger: its memory, the statics of its call sites and the logger, and
    on the side the entries that were logged so far. -/
structure Machine (τ S σ : Type) where
  memory : τ
  statics : Statics S
  logger : Logger σ
  entries : List (S × List Arg)

section Machine

variable {τ S σ : Type}

/-- The same program state, up to the logger and the ids of the rows. -/
structure Machine.Agree (st₁ st₂ : Machine τ S σ) : Prop where
  memory : st₁.memory = st₂.memory
  entries : st₁.entries = st₂.entries
  statics : ∀ site, (st₁.statics site).isSome = (st₂.statics site).isSome

/-- The program state of a later execution: the static of the site is initialised by then. -/
structure Machine.Later (site : S) (st later : Machine τ S σ) : Prop where
  memory : st.memory = later.memory
  entries : st.entries = later.entries
  statics : ∀ other, other ≠ site → (st.statics other).isSome = (later.statics other).isSome
  initialised : (later.statics site).isSome

theorem Machine.Later.agree {site : S} {st later : Machine τ S σ} (h : st.Later site later)
    (hstatic : (st.statics site).isSome) : st.Agree later := by
  refine ⟨h.memory, h.entries, ?_⟩
  intro other
  by_cases hother : other = site
  · rw [hother, hstatic, h.initialised]
  · exact h.statics other hother

end Machine

section Eval

variable {τ S σ : Type} [PackerClass σ]

/-- `log`, for the static's id and the values of the arguments. -/
def Machine.log (st : Machine τ S σ) (site : S) (pos : Nat) (args : List Arg) :
    Except Fault (Machine τ S σ) := do
  let lg ← st.logger.log pos args
  .ok { st with logger := lg, entries := st.entries ++ [(site, args)] }

theorem Machine.log_eq_ok {st st' : Machine τ S σ} {site : S} {pos : Nat} {args : List Arg}
    (h : st.log site pos args = .ok st') :
    ∃ lg, st' = { st with logger := lg, entries := st.entries ++ [(site, args)] } := by
  obtain ⟨lg, -, hst⟩ := bind_eq_ok.1 h
  exact ⟨lg, (Except.ok.inj hst).symm⟩

theorem Machine.Agree.log {st₁ st₂ st₁' st₂' : Machine τ S σ} (h : st₁.Agree st₂) {site : S}
    {pos₁ pos₂ : Nat} {args : List Arg} (h₁ : st₁.log site pos₁ args = .ok st₁')
    (h₂ : st₂.log site pos₂ args = .ok st₂') : st₁'.Agree st₂' := by
  obtain ⟨lg₁, rfl⟩ := Machine.log_eq_ok h₁
  obtain ⟨lg₂, rfl⟩ := Machine.log_eq_ok h₂
  exact ⟨h.memory, by rw [h.entries], h.statics⟩

variable [DecidableEq S] (format : S → CString)

/-- `log_index`, and the initialisation of the static with the id it returns. -/
def Machine.register (st : Machine τ S σ) (site : S) (args : List Arg) :
    Except Fault (Nat × Machine τ S σ) := do
  let (lg, id) ← st.logger.logIndex (format site) args
  .ok (id.toNat,
    { st with logger := lg, statics := Function.update st.statics site (some id.toNat) })

/-- One execution of `BINARY_LOG` at `site`, for a way to evaluate its argument list, which gives
    each value with its position. Returns the positions in the order of evaluation. The statics of
    the sites in `busy` are being initialised; to come by one of these again is undefined. -/
def executeWith
    (evalArgs : List S → Machine τ S σ → Except Fault (List (Nat × Arg) × Machine τ S σ))
    (busy : List S) (site : S) (st : Machine τ S σ) : Except Fault (List Nat × Machine τ S σ) :=
  match st.statics site with
  | some pos => do
      let (args, st) ← evalArgs busy st
      let st ← st.log site pos (args.map Prod.snd)
      .ok (args.map Prod.fst, st)
  | none =>
      if site ∈ busy then .error .undefinedBehaviour
      else do
        -- the initialiser
        let (args, st) ← evalArgs (site :: busy) st
        let (pos, st) ← st.register format site (args.map Prod.snd)
        -- the same expressions once more
        let (args', st) ← evalArgs busy st
        let st ← st.log site pos (args'.map Prod.snd)
        .ok (args.map Prod.fst ++ args'.map Prod.fst, st)

mutual

/-- Evaluate an expression. -/
def ArgExpr.eval (busy : List S) : ArgExpr τ S → Machine τ S σ → Except Fault (Arg × Machine τ S σ)
  | .value arg, st => .ok (arg, st)
  | .step update next, st =>
      ArgExpr.eval busy (next st.memory) { st with memory := update st.memory }
  | .log site args next, st => do
      let (_, st) ← executeWith format (fun busy st => evalArgs busy 0 args st) busy site st
      ArgExpr.eval busy next st
  | .flush next, st => do
      let lg ← st.logger.flush
      ArgExpr.eval busy next { st with logger := lg }

/-- Evaluate the arguments of a call, the first of them at position `i`. -/
def evalArgs (busy : List S) (i : Nat) :
    List (ArgExpr τ S) → Machine τ S σ → Except Fault (List (Nat × Arg) × Machine τ S σ)
  | [], st => .ok ([], st)
  | e :: es, st => do
      let (arg, st) ← ArgExpr.eval busy e st
      let (args, st) ← evalArgs busy (i + 1) es st
      .ok ((i, arg) :: args, st)

end

/-- `BINARY_LOG(logger, format site, args...)`. -/
def execute (busy : List S) (site : S) (args : List (ArgExpr τ S)) (st : Machine τ S σ) :
    Except Fault (List Nat × Machine τ S σ) :=
  executeWith format (fun busy st => evalArgs format busy 0 args st) busy site st

/-! ## What one execution does -/

variable {format}

theorem Machine.register_eq_ok {st st' : Machine τ S σ} {site : S} {args : List Arg} {pos : Nat}
    (h : st.register format site args = .ok (pos, st')) :
    ∃ lg, st' =
      { st with logger := lg, statics := Function.update st.statics site (some pos) } := by
  obtain ⟨⟨lg, id⟩, -, hst⟩ := bind_eq_ok.1 h
  obtain ⟨rfl, rfl⟩ := Prod.mk.inj (Except.ok.inj hst)
  exact ⟨lg, rfl⟩

/-- An execution that returns is a later one, or the first one with its two evaluations. -/
theorem executeWith_cases
    {evalArgs : List S → Machine τ S σ → Except Fault (List (Nat × Arg) × Machine τ S σ)}
    {busy : List S} {site : S} {st st' : Machine τ S σ} {evaluated : List Nat}
    (h : executeWith format evalArgs busy site st = .ok (evaluated, st')) :
    (∃ pos args st₁, st.statics site = some pos ∧ evalArgs busy st = .ok (args, st₁) ∧
      st₁.log site pos (args.map Prod.snd) = .ok st' ∧ evaluated = args.map Prod.fst) ∨
    (∃ args st₁ pos st₂ args' st₃, st.statics site = none ∧ site ∉ busy ∧
      evalArgs (site :: busy) st = .ok (args, st₁) ∧
      st₁.register format site (args.map Prod.snd) = .ok (pos, st₂) ∧
      evalArgs busy st₂ = .ok (args', st₃) ∧ st₃.log site pos (args'.map Prod.snd) = .ok st' ∧
      evaluated = args.map Prod.fst ++ args'.map Prod.fst) := by
  unfold executeWith at h
  cases hstatic : st.statics site with
  | some pos =>
    simp only [hstatic, bind_eq_ok, Prod.exists, Except.ok.injEq, Prod.mk.injEq] at h
    obtain ⟨args, st₁, hargs, st₂, hlog, rfl, rfl⟩ := h
    exact .inl ⟨pos, args, st₁, rfl, hargs, hlog, rfl⟩
  | none =>
    simp only [hstatic] at h
    split at h
    · exact absurd h (by simp)
    · next hbusy =>
      simp only [bind_eq_ok, Prod.exists, Except.ok.injEq, Prod.mk.injEq] at h
      obtain ⟨args, st₁, hargs, pos, st₂, hregister, args', st₃, hargs', st₄, hlog, rfl, rfl⟩ := h
      exact .inr ⟨args, st₁, pos, st₂, args', st₃, rfl, hbusy, hargs, hregister, hargs', hlog, rfl⟩

/-- The arguments are evaluated in order, each of them once. -/
theorem positions_of_evalArgs {busy : List S} {i : Nat} {es : List (ArgExpr τ S)}
    {st st' : Machine τ S σ} {args : List (Nat × Arg)}
    (h : evalArgs format busy i es st = .ok (args, st')) :
    args.map Prod.fst = List.range' i es.length := by
  induction es generalizing i st args with
  | nil =>
    rw [evalArgs, Except.ok.injEq, Prod.mk.injEq] at h
    obtain ⟨rfl, -⟩ := h
    rfl
  | cons e es ih =>
    simp only [evalArgs, bind_eq_ok, Prod.exists, Except.ok.injEq, Prod.mk.injEq] at h
    obtain ⟨arg, st₁, -, args', st₂, hargs, rfl, rfl⟩ := h
    rw [List.map_cons, ih hargs, List.length_cons, List.range'_succ]

/-! ## Agreement

Memory and entries do not depend on what the logger has written nor on the ids in the statics: only
which of the statics are initialised counts. -/

/-- What is run ends in agreement, and with the same result, if it starts in agreement. -/
def Reproducible {α : Type} (run : List S → Machine τ S σ → Except Fault (α × Machine τ S σ)) :
    Prop :=
  ∀ ⦃busy₁ busy₂ st₁ st₂ a₁ a₂ st₁' st₂'⦄, st₁.Agree st₂ → run busy₁ st₁ = .ok (a₁, st₁') →
    run busy₂ st₂ = .ok (a₂, st₂') → a₁ = a₂ ∧ st₁'.Agree st₂'

theorem Machine.Agree.register {st₁ st₂ st₁' st₂' : Machine τ S σ} (h : st₁.Agree st₂) {site : S}
    {pos₁ pos₂ : Nat} {args : List Arg} (h₁ : st₁.register format site args = .ok (pos₁, st₁'))
    (h₂ : st₂.register format site args = .ok (pos₂, st₂')) : st₁'.Agree st₂' := by
  obtain ⟨lg₁, rfl⟩ := Machine.register_eq_ok h₁
  obtain ⟨lg₂, rfl⟩ := Machine.register_eq_ok h₂
  refine ⟨h.memory, h.entries, ?_⟩
  intro site'
  by_cases hsite : site' = site
  · simp only [hsite, Function.update_self, Option.isSome_some]
  · simp only [Function.update_of_ne hsite]
    exact h.statics site'

theorem Reproducible.executeWith
    {evalArgs : List S → Machine τ S σ → Except Fault (List (Nat × Arg) × Machine τ S σ)}
    (h : Reproducible evalArgs) (site : S) :
    Reproducible (fun busy st => executeWith format evalArgs busy site st) := by
  intro busy₁ busy₂ st₁ st₂ evaluated₁ evaluated₂ st₁' st₂' hagree h₁ h₂
  have hstatic := hagree.statics site
  rcases executeWith_cases h₁ with ⟨pos₁, args₁, mid₁, hsome₁, hargs₁, hlog₁, rfl⟩ |
    ⟨args₁, mid₁, pos₁, reg₁, args₁', end₁, hnone₁, -, hargs₁, hreg₁, hargs₁', hlog₁, rfl⟩
  · rcases executeWith_cases h₂ with ⟨pos₂, args₂, mid₂, -, hargs₂, hlog₂, rfl⟩ |
      ⟨args₂, mid₂, pos₂, reg₂, args₂', end₂, hnone₂, -⟩
    · obtain ⟨rfl, hmid⟩ := h hagree hargs₁ hargs₂
      exact ⟨rfl, hmid.log hlog₁ hlog₂⟩
    · rw [hsome₁, hnone₂] at hstatic
      exact absurd hstatic (by simp)
  · rcases executeWith_cases h₂ with ⟨pos₂, args₂, mid₂, hsome₂, -⟩ |
      ⟨args₂, mid₂, pos₂, reg₂, args₂', end₂, -, -, hargs₂, hreg₂, hargs₂', hlog₂, rfl⟩
    · rw [hnone₁, hsome₂] at hstatic
      exact absurd hstatic (by simp)
    · obtain ⟨rfl, hmid⟩ := h hagree hargs₁ hargs₂
      obtain ⟨rfl, hend⟩ := h (hmid.register hreg₁ hreg₂) hargs₁' hargs₂'
      exact ⟨rfl, hend.log hlog₁ hlog₂⟩

theorem reproducible_evalArgs {es : List (ArgExpr τ S)}
    (h : ∀ e ∈ es, Reproducible (fun busy st => ArgExpr.eval (σ := σ) format busy e st)) (i : Nat) :
    Reproducible (fun busy st => evalArgs (σ := σ) format busy i es st) := by
  induction es generalizing i with
  | nil =>
    intro busy₁ busy₂ st₁ st₂ a₁ a₂ st₁' st₂' hagree h₁ h₂
    simp only [evalArgs, Except.ok.injEq, Prod.mk.injEq] at h₁ h₂
    obtain ⟨rfl, rfl⟩ := h₁
    obtain ⟨rfl, rfl⟩ := h₂
    exact ⟨rfl, hagree⟩
  | cons e es ih =>
    intro busy₁ busy₂ st₁ st₂ a₁ a₂ st₁' st₂' hagree h₁ h₂
    simp only [evalArgs, bind_eq_ok, Prod.exists, Except.ok.injEq, Prod.mk.injEq] at h₁ h₂
    obtain ⟨arg₁, mid₁, harg₁, args₁, end₁, hargs₁, rfl, rfl⟩ := h₁
    obtain ⟨arg₂, mid₂, harg₂, args₂, end₂, hargs₂, rfl, rfl⟩ := h₂
    obtain ⟨rfl, hmid⟩ := h e List.mem_cons_self hagree harg₁ harg₂
    obtain ⟨rfl, hend⟩ :=
      ih (fun e' he' => h e' (List.mem_cons_of_mem _ he')) (i + 1) hmid hargs₁ hargs₂
    exact ⟨rfl, hend⟩

theorem reproducible_eval (e : ArgExpr τ S) :
    Reproducible (fun busy st => ArgExpr.eval (σ := σ) format busy e st) := by
  induction e using ArgExpr.induct with
  | value arg =>
    intro busy₁ busy₂ st₁ st₂ a₁ a₂ st₁' st₂' hagree h₁ h₂
    simp only [ArgExpr.eval, Except.ok.injEq, Prod.mk.injEq] at h₁ h₂
    obtain ⟨rfl, rfl⟩ := h₁
    obtain ⟨rfl, rfl⟩ := h₂
    exact ⟨rfl, hagree⟩
  | step update next ih =>
    intro busy₁ busy₂ st₁ st₂ a₁ a₂ st₁' st₂' hagree h₁ h₂
    simp only [ArgExpr.eval] at h₁ h₂
    rw [← hagree.memory] at h₂
    have hupdated : Machine.Agree { st₁ with memory := update st₁.memory }
        { st₂ with memory := update st₁.memory } := ⟨rfl, hagree.entries, hagree.statics⟩
    exact ih st₁.memory hupdated h₁ h₂
  | log site args next hargs hnext =>
    intro busy₁ busy₂ st₁ st₂ a₁ a₂ st₁' st₂' hagree h₁ h₂
    simp only [ArgExpr.eval, bind_eq_ok, Prod.exists] at h₁ h₂
    obtain ⟨evaluated₁, mid₁, hexec₁, hrest₁⟩ := h₁
    obtain ⟨evaluated₂, mid₂, hexec₂, hrest₂⟩ := h₂
    obtain ⟨-, hmid⟩ := (reproducible_evalArgs hargs 0).executeWith site hagree hexec₁ hexec₂
    exact hnext hmid hrest₁ hrest₂
  | flush next ih =>
    intro busy₁ busy₂ st₁ st₂ a₁ a₂ st₁' st₂' hagree h₁ h₂
    simp only [ArgExpr.eval, bind_eq_ok] at h₁ h₂
    obtain ⟨lg₁, -, hrest₁⟩ := h₁
    obtain ⟨lg₂, -, hrest₂⟩ := h₂
    have hflushed : Machine.Agree { st₁ with logger := lg₁ } { st₂ with logger := lg₂ } :=
      ⟨hagree.memory, hagree.entries, hagree.statics⟩
    exact ih hflushed hrest₁ hrest₂

/-! ## Every execution returns -/

/-- What is run returns from every state. -/
def Returns {α : Type} (run : Machine τ S σ → Except Fault (α × Machine τ S σ)) : Prop :=
  ∀ st, ∃ a st', run st = .ok (a, st')

/-- A logger whose members always return: `packer`, whatever its buffer sizes. -/
structure Reliable (σ : Type) [PackerClass σ] : Prop where
  logIndex : ∀ (lg : Logger σ) (formatString : CString) (args : List Arg),
    ∃ lg' id, lg.logIndex formatString args = .ok (lg', id)
  log : ∀ (lg : Logger σ) (pos : Nat) (args : List Arg), ∃ lg', lg.log pos args = .ok lg'
  flush : ∀ lg : Logger σ, ∃ lg', lg.flush = .ok lg'

theorem executeWith_isSome (hσ : Reliable σ)
    {evalArgs : List S → Machine τ S σ → Except Fault (List (Nat × Arg) × Machine τ S σ)}
    {busy : List S} {site : S} (hsite : site ∉ busy) (hbusy : Returns (evalArgs busy))
    (hinit : Returns (evalArgs (site :: busy))) :
    Returns (executeWith format evalArgs busy site) := by
  intro st
  unfold executeWith
  cases hstatic : st.statics site with
  | some pos =>
    obtain ⟨args, st₁, hargs⟩ := hbusy st
    obtain ⟨lg, hlog⟩ := hσ.log st₁.logger pos (args.map Prod.snd)
    simp only [hargs, ok_bind, Machine.log, hlog]
    exact ⟨_, _, rfl⟩
  | none =>
    obtain ⟨args, st₁, hargs⟩ := hinit st
    obtain ⟨lg, id, hindex⟩ := hσ.logIndex st₁.logger (format site) (args.map Prod.snd)
    obtain ⟨args', st₂, hargs'⟩ := hbusy
      { st₁ with logger := lg, statics := Function.update st₁.statics site (some id.toNat) }
    obtain ⟨lg', hlog⟩ := hσ.log st₂.logger id.toNat (args'.map Prod.snd)
    simp only [if_neg hsite, hargs, ok_bind, Machine.register, hindex, hargs', Machine.log, hlog]
    exact ⟨_, _, rfl⟩

theorem returns_evalArgs {busy : List S} {es : List (ArgExpr τ S)}
    (h : ∀ e ∈ es, Returns (ArgExpr.eval (σ := σ) format busy e)) (i : Nat) :
    Returns (evalArgs (σ := σ) format busy i es) := by
  induction es generalizing i with
  | nil =>
    intro st
    exact ⟨[], st, rfl⟩
  | cons e es ih =>
    intro st
    obtain ⟨arg, st₁, harg⟩ := h e List.mem_cons_self st
    obtain ⟨args, st₂, hargs⟩ := ih (fun e' he' => h e' (List.mem_cons_of_mem _ he')) (i + 1) st₁
    refine ⟨(i, arg) :: args, st₂, ?_⟩
    simp only [evalArgs, harg, ok_bind, hargs]

theorem returns_execute (hσ : Reliable σ) {busy : List S} {site : S} {args : List (ArgExpr τ S)}
    (h : ∀ e ∈ args, ∀ busy, ArgExpr.Separate busy e →
      Returns (ArgExpr.eval (σ := σ) format busy e))
    (hsite : site ∉ busy) (hseparate : SeparateArgs (site :: busy) args) :
    Returns (execute (σ := σ) format busy site args) := by
  rw [separateArgs_iff] at hseparate
  have hinit : Returns (evalArgs (σ := σ) format (site :: busy) 0 args) :=
    returns_evalArgs (fun e he => h e he _ (hseparate e he)) 0
  have hbusy : Returns (evalArgs (σ := σ) format busy 0 args) :=
    returns_evalArgs
      (fun e he => h e he _ ((hseparate e he).of_subset (List.subset_cons_self site busy))) 0
  exact executeWith_isSome hσ hsite hbusy hinit

theorem returns_eval (hσ : Reliable σ) {e : ArgExpr τ S} {busy : List S}
    (h : ArgExpr.Separate busy e) : Returns (ArgExpr.eval (σ := σ) format busy e) := by
  induction e using ArgExpr.induct generalizing busy with
  | value arg =>
    intro st
    exact ⟨arg, st, rfl⟩
  | step update next ih =>
    intro st
    exact ih st.memory (h st.memory) _
  | log site args next hargs hnext =>
    obtain ⟨hsite, hseparate, hrest⟩ := h
    intro st
    have hstatement : Returns (execute (σ := σ) format busy site args) :=
      returns_execute hσ (fun e he _ => hargs e he) hsite hseparate
    obtain ⟨evaluated, st₁, hexecute⟩ := hstatement st
    obtain ⟨arg, st₂, heval⟩ := hnext hrest st₁
    refine ⟨arg, st₂, ?_⟩
    rw [execute] at hexecute
    simp only [ArgExpr.eval, hexecute, ok_bind, heval]
  | flush next ih =>
    intro st
    obtain ⟨lg, hlg⟩ := hσ.flush st.logger
    obtain ⟨arg, st₁, heval⟩ := ih h { st with logger := lg }
    refine ⟨arg, st₁, ?_⟩
    simp only [ArgExpr.eval, hlg, ok_bind, heval]

/-! ## Undisturbed programs -/

/-- An execution that returned from `st` in `st'` has evaluated each argument exactly once, and has
    left the memory and the entries that a later execution from the same program state leaves. -/
structure Undisturbed (format : S → CString) (busy : List S) (site : S) (args : List (ArgExpr τ S))
    (st : Machine τ S σ) (evaluated : List Nat) (st' : Machine τ S σ) : Prop where
  once : ∀ i < args.length, evaluated.count i = 1
  same : ∀ later evaluated' later', st.Later site later →
    execute format busy site args later = .ok (evaluated', later') →
    st'.memory = later'.memory ∧ st'.entries = later'.entries

/-- A later execution evaluates each argument once. -/
theorem Undisturbed.of_initialised {busy : List S} {site : S} {args : List (ArgExpr τ S)}
    {st st' : Machine τ S σ} {evaluated : List Nat}
    (h : execute format busy site args st = .ok (evaluated, st'))
    (hstatic : (st.statics site).isSome) :
    Undisturbed format busy site args st evaluated st' := by
  constructor
  · intro i hi
    rcases executeWith_cases h with ⟨pos, values, st₁, -, hargs, -, rfl⟩ |
      ⟨_, _, _, _, _, _, hnone, -⟩
    · rw [positions_of_evalArgs hargs]
      exact List.count_eq_one_of_mem List.nodup_range' (by simpa [List.mem_range'] using hi)
    · rw [hnone] at hstatic
      exact absurd hstatic (by simp)
  · intro later evaluated' later' hlater h'
    have hargs : Reproducible (fun busy st => evalArgs (σ := σ) format busy 0 args st) :=
      reproducible_evalArgs (fun e _ => reproducible_eval e) 0
    obtain ⟨-, hagree⟩ := hargs.executeWith site (hlater.agree hstatic) h h'
    exact ⟨hagree.memory, hagree.entries⟩

theorem execute_nil {busy : List S} {site : S} {st st' : Machine τ S σ} {evaluated : List Nat}
    (h : execute format busy site [] st = .ok (evaluated, st')) :
    st'.memory = st.memory ∧ st'.entries = st.entries ++ [(site, [])] := by
  rcases executeWith_cases h with ⟨pos, values, st₁, -, hargs, hlog, -⟩ |
    ⟨values, st₁, pos, st₂, values', st₃, -, -, hargs, hregister, hargs', hlog, -⟩
  · obtain ⟨rfl, rfl⟩ := Prod.mk.inj (Except.ok.inj hargs)
    obtain ⟨lg, rfl⟩ := Machine.log_eq_ok hlog
    exact ⟨rfl, rfl⟩
  · obtain ⟨rfl, rfl⟩ := Prod.mk.inj (Except.ok.inj hargs)
    obtain ⟨lg, rfl⟩ := Machine.register_eq_ok hregister
    obtain ⟨rfl, rfl⟩ := Prod.mk.inj (Except.ok.inj hargs')
    obtain ⟨lg', rfl⟩ := Machine.log_eq_ok hlog
    exact ⟨rfl, rfl⟩

/-- Without arguments there is nothing to evaluate twice. -/
theorem Undisturbed.of_nil {busy : List S} {site : S} {st st' : Machine τ S σ}
    {evaluated : List Nat} (h : execute format busy site [] st = .ok (evaluated, st')) :
    Undisturbed format busy site [] st evaluated st' := by
  constructor
  · intro i hi
    exact absurd hi (Nat.not_lt_zero i)
  · intro later evaluated' later' hlater h'
    obtain ⟨hmemory, hentries⟩ := execute_nil h
    obtain ⟨hmemory', hentries'⟩ := execute_nil h'
    rw [hmemory, hentries, hmemory', hentries', hlater.memory, hlater.entries]
    exact ⟨rfl, rfl⟩

/-- The first execution evaluates every argument twice. -/
theorem count_of_first {busy : List S} {site : S} {args : List (ArgExpr τ S)}
    {st st' : Machine τ S σ} {evaluated : List Nat}
    (h : execute format busy site args st = .ok (evaluated, st')) (hstatic : st.statics site = none)
    {i : Nat} (hi : i < args.length) : evaluated.count i = 2 := by
  have hmem : i ∈ List.range' 0 args.length := by simpa [List.mem_range'] using hi
  have hone : (List.range' 0 args.length).count i = 1 :=
    List.count_eq_one_of_mem List.nodup_range' hmem
  rcases executeWith_cases h with ⟨pos, values, st₁, hsome, -⟩ |
    ⟨values, st₁, pos, st₂, values', st₃, -, -, hargs, -, hargs', -, rfl⟩
  · rw [hstatic] at hsome
    exact absurd hsome (by simp)
  · rw [List.count_append, positions_of_evalArgs hargs, positions_of_evalArgs hargs', hone]

/-! ## Arguments without side effects -/

variable (format)

theorem evalArgs_values (busy : List S) (i : Nat) (args : List Arg) (st : Machine τ S σ) :
    ∃ values, evalArgs format busy i (args.map ArgExpr.value) st = .ok (values, st) ∧
      values.map Prod.snd = args := by
  induction args generalizing i with
  | nil => exact ⟨[], rfl, rfl⟩
  | cons arg args ih =>
    obtain ⟨values, hvalues, hargs⟩ := ih (i + 1)
    refine ⟨(i, arg) :: values, ?_, by rw [List.map_cons, hargs]⟩
    simp only [List.map_cons, evalArgs, ArgExpr.eval, ok_bind, hvalues]

/-- For arguments that just have a value, the statement is `binaryLog`. -/
theorem execute_values {busy : List S} {site : S} (hsite : site ∉ busy) (args : List Arg)
    (st : Machine τ S σ) :
    (execute format busy site (args.map ArgExpr.value) st).map
        (fun res => (res.2.statics, res.2.logger))
      = binaryLog st.statics st.logger site (format site) args := by
  unfold execute executeWith binaryLog
  cases hstatic : st.statics site with
  | some pos =>
    obtain ⟨values, hvalues, hargs⟩ := evalArgs_values format busy 0 args st
    simp only [hvalues, ok_bind, hargs, Machine.log]
    cases st.logger.log pos args <;> rfl
  | none =>
    obtain ⟨values, hvalues, hargs⟩ := evalArgs_values format (site :: busy) 0 args st
    simp only [if_neg hsite, hvalues, ok_bind, hargs, Machine.register]
    cases st.logger.logIndex (format site) args with
    | error f => rfl
    | ok res =>
      obtain ⟨lg, id⟩ := res
      obtain ⟨values', hvalues', hargs'⟩ := evalArgs_values format busy 0 args
        { st with logger := lg, statics := Function.update st.statics site (some id.toNat) }
      simp only [ok_bind, hvalues', hargs', Machine.log]
      cases lg.log id.toNat args <;> rfl

end Eval

/-- `packer` has no member that fails. -/
theorem Packer.reliable {n m r : Nat} (hn : 1 ≤ n) (hm : 2 ≤ m) (hr : 1 ≤ r) :
    Reliable (Packer n m r) where
  logIndex lg formatString args := by
    obtain ⟨lg', hrun⟩ := Packer.run_isSome hn hm hr lg [.logIndex formatString args]
    simp only [Logger.run, List.foldlM_cons, List.foldlM_nil, Logger.step, bind_eq_ok, map_eq_ok,
      pure_eq_ok] at hrun
    obtain ⟨_, ⟨⟨lg₁, id⟩, hindex, -⟩, -⟩ := hrun
    exact ⟨lg₁, id, hindex⟩
  log lg pos args := by
    obtain ⟨lg', hrun⟩ := Packer.run_isSome hn hm hr lg [.log pos args]
    simp only [Logger.run, List.foldlM_cons, List.foldlM_nil, Logger.step, bind_eq_ok] at hrun
    obtain ⟨lg₁, hlog, -⟩ := hrun
    exact ⟨lg₁, hlog⟩
  flush lg := by
    obtain ⟨lg', hrun⟩ := Packer.run_isSome hn hm hr lg [.flush]
    simp only [Logger.run, List.foldlM_cons, List.foldlM_nil, Logger.step, bind_eq_ok] at hrun
    obtain ⟨lg₁, hflush, -⟩ := hrun
    exact ⟨lg₁, hflush⟩

/-- An execution of a statement leaves the program undisturbed exactly if the static of its call
    site is initialised, or there are no arguments. With `packer` every execution returns. -/
theorem execution_undisturbed_iff {τ S : Type} [DecidableEq S] (format : S → CString) :
    (∀ (σ : Type) [PackerClass σ] (busy : List S) (site : S) (args : List (ArgExpr τ S))
      (st st' : Machine τ S σ) (evaluated : List Nat),
      execute format busy site args st = .ok (evaluated, st') →
      (Undisturbed format busy site args st evaluated st' ↔
        (st.statics site).isSome ∨ args = [])) ∧
    (∀ (n m r : Nat), 1 ≤ n → 2 ≤ m → 1 ≤ r → ∀ (busy : List S) (site : S)
      (args : List (ArgExpr τ S)), site ∉ busy → SeparateArgs (site :: busy) args →
      ∀ st : Machine τ S (Packer n m r), ∃ evaluated st',
        execute format busy site args st = .ok (evaluated, st')) := by
  constructor
  · intro σ _ busy site args st st' evaluated h
    constructor
    · intro hundisturbed
      by_contra hneither
      obtain ⟨hstatic, hargs⟩ := not_or.1 hneither
      have hnone : st.statics site = none := by simpa using hstatic
      have hpos : 0 < args.length := List.length_pos_iff.2 hargs
      have htwo := count_of_first h hnone hpos
      rw [hundisturbed.once 0 hpos] at htwo
      exact absurd htwo (by decide)
    · rintro (hstatic | rfl)
      · exact .of_initialised h hstatic
      · exact .of_nil h
  · intro n m r hn hm hr busy site args hsite hseparate st
    have hσ := Packer.reliable hn hm hr
    exact returns_execute hσ (fun e _ _ he => returns_eval hσ he) hsite hseparate st

/-- A call of a function that logs at `site` and returns `i++`, for the one variable `i`. -/
def loggedIncrement (site : Bool) : ArgExpr Nat Bool :=
  .log site [] (.step (fun i => i + 1) (fun i => .value (.dynamic (.uint8 (UInt8.ofNat i)))))

/-- The program before anything was logged, with `i = 0`. -/
def counter (statics : Statics Bool) : Machine Nat Bool (Packer 1 2 1) := ⟨0, statics, .fresh, []⟩

/-- With its static initialised, the statement at `true` counts once. -/
theorem execution_undisturbed_later :
    ∃ evaluated st', execute (fun _ => .literal [123, 125]) [] true [loggedIncrement false]
        (counter (Function.update (fun _ => none) true (some 0))) = .ok (evaluated, st') ∧
      Undisturbed (fun _ => .literal [123, 125]) [] true [loggedIncrement false]
        (counter (Function.update (fun _ => none) true (some 0))) evaluated st' := by
  have hseparate : SeparateArgs [true] [loggedIncrement false] :=
    separateArgs_iff.2 (by simp [loggedIncrement, ArgExpr.Separate, SeparateArgs])
  obtain ⟨hiff, hreturns⟩ :=
    execution_undisturbed_iff (τ := Nat) (fun _ : Bool => .literal [123, 125])
  obtain ⟨evaluated, st', h⟩ := hreturns 1 2 1 le_rfl le_rfl le_rfl [] true [loggedIncrement false]
    (by simp) hseparate (counter (Function.update (fun _ => none) true (some 0)))
  exact ⟨evaluated, st', h, (hiff _ _ _ _ _ _ _ h).2 (.inl rfl)⟩

/-- On its first execution it counts twice, and the nested statement logs twice. -/
theorem first_execution_counts_twice :
    ∃ st' later', execute (fun _ => .literal [123, 125]) [] true [loggedIncrement false]
        (counter (fun _ => none)) = .ok ([0, 0], st') ∧
      st'.memory = 2 ∧ st'.entries.map Prod.fst = [false, false, true] ∧
      (counter (fun _ => none)).Later true
        (counter (Function.update (fun _ => none) true (some 0))) ∧
      execute (fun _ => .literal [123, 125]) [] true [loggedIncrement false]
        (counter (Function.update (fun _ => none) true (some 0))) = .ok ([0], later') ∧
      later'.memory = 1 ∧ later'.entries.map Prod.fst = [false, true] ∧
      ¬ Undisturbed (fun _ => .literal [123, 125]) [] true [loggedIncrement false]
        (counter (fun _ => none)) [0, 0] st' := by
  refine ⟨_, _, rfl, rfl, rfl, ⟨rfl, rfl, ?_, rfl⟩, rfl, rfl, rfl, ?_⟩
  · intro other hother
    simp only [counter, Function.update_of_ne hother]
  · intro hundisturbed
    exact absurd (hundisturbed.once 0 (by decide)) (by decide)

end BinaryLog
