import BinaryLog.EffectfulPrograms

set_option autoImplicit false

/-! # Logging instead of printing

`ArgExpr.plain` is a program that has no logger: in the place of `BINARY_LOG` it has a statement that
evaluates its arguments, once, and prints them at once. With the logger the first execution of a
call site evaluates them twice, and what is printed comes out of three files.

Both are the same where it makes no difference to evaluate the arguments of a statement once more
(`ArgExpr.Repeatable`): the program ends in the same memory, and the unpacker prints what the other
program has printed, exactly where the format can tell the entries apart
(`logged_as_printed_iff`). -/

namespace BinaryLog

open Runs Firsts

/-! ## Programs without a logger -/

/-- What it comes to to evaluate an expression, or all arguments of a statement: the value, the
    memory that is left, and the entries printed on the way, with the flushes between them. -/
structure Printed (τ S α : Type) where
  value : α
  memory : τ
  trace : List (Event (S × List Arg))

section Plain

variable {τ S : Type}

mutual

/-- The program with statements that print at once. -/
def ArgExpr.plain : ArgExpr τ S → τ → Printed τ S Arg
  | .value arg, memory => ⟨arg, memory, []⟩
  | .step update next, memory => ArgExpr.plain (next memory) (update memory)
  | .log site args next, memory =>
      let printed := plainArgs args memory
      let rest := ArgExpr.plain next printed.memory
      ⟨rest.value, rest.memory, printed.trace ++ .item (site, printed.value) :: rest.trace⟩
  | .flush next, memory =>
      let rest := ArgExpr.plain next memory
      ⟨rest.value, rest.memory, .mark :: rest.trace⟩

/-- The arguments of a statement, from left to right. -/
def plainArgs : List (ArgExpr τ S) → τ → Printed τ S (List Arg)
  | [], memory => ⟨[], memory, []⟩
  | e :: es, memory =>
      let first := ArgExpr.plain e memory
      let rest := plainArgs es first.memory
      ⟨first.value :: rest.value, rest.memory, first.trace ++ rest.trace⟩

end

/-- To evaluate the arguments once more finds the same values, leaves the memory as it is, and
    prints and flushes nothing. -/
def Again (args : List (ArgExpr τ S)) : Prop :=
  ∀ memory, plainArgs args (plainArgs args memory).memory
    = ⟨(plainArgs args memory).value, (plainArgs args memory).memory, []⟩

mutual

/-- It makes no difference to evaluate the arguments of a statement in the program once more. -/
def ArgExpr.Repeatable : ArgExpr τ S → Prop
  | .value _ => True
  | .step _ next => ∀ memory, ArgExpr.Repeatable (next memory)
  | .log _ args next => Again args ∧ RepeatableArgs args ∧ ArgExpr.Repeatable next
  | .flush next => ArgExpr.Repeatable next

def RepeatableArgs : List (ArgExpr τ S) → Prop
  | [] => True
  | e :: es => ArgExpr.Repeatable e ∧ RepeatableArgs es

end

theorem repeatableArgs_iff {es : List (ArgExpr τ S)} :
    RepeatableArgs es ↔ ∀ e ∈ es, e.Repeatable := by
  induction es with
  | nil => simp [RepeatableArgs]
  | cons e es ih => simp [RepeatableArgs, ih]

variable [DecidableEq S]

/-- The call sites in the order of their first entries. -/
def Printed.sites {α : Type} (p : Printed τ S α) : List S := keys Prod.fst [] (items p.trace)

/-- What is printed, with the number of the call site. -/
def Printed.entries {α : Type} (format : S → CString) (p : Printed τ S α) : List LogEntry :=
  printedEntries format p.sites p.trace

/-- The entries as calls. -/
def Printed.calls {α : Type} (p : Printed τ S α) : List (Event Call) :=
  numberedCalls p.sites p.trace

/-! ## The same on a recorder -/

/-- The recorder behind what is printed. -/
def Recorder.after {α : Type} (st : Recorder τ S) (p : Printed τ S α) : Recorder τ S :=
  ⟨p.memory, keys Prod.fst st.seen (items p.trace), st.record ++ p.trace⟩

/-- What evaluates the arguments of one call on the recorder does what is done without one. -/
def ObservesPlain (args : List (ArgExpr τ S)) (busy : List S) : Prop :=
  ∀ st : Recorder τ S, observeArgs busy args st
    = some ((plainArgs args st.memory).value, st.after (plainArgs args st.memory))

theorem Recorder.after_nil {α : Type} (st : Recorder τ S) (value : α) (memory : τ) :
    st.after ⟨value, memory, []⟩ = { st with memory := memory } := by
  simp [after, items]

/-- An execution of a statement with repeatable arguments, the first one or a later one. -/
theorem observeWith_eq_plain {args : List (ArgExpr τ S)} {busy : List S} {site : S}
    (hagain : Again args) (hlater : ObservesPlain args busy)
    (hfirst : ObservesPlain args (site :: busy)) (hsite : site ∉ busy) (st : Recorder τ S) :
    observeWith (fun busy st => observeArgs busy args st) busy site st
      = some (st.after ⟨(plainArgs args st.memory).value, (plainArgs args st.memory).memory,
          (plainArgs args st.memory).trace
            ++ [.item (site, (plainArgs args st.memory).value)]⟩) := by
  have hone := hlater st
  have hinit := hfirst st
  have htwice := hagain st.memory
  generalize plainArgs args st.memory = p at *
  have hafter : st.after ⟨p.value, p.memory, p.trace ++ [.item (site, p.value)]⟩
      = ⟨p.memory, keys Prod.fst (st.after p).seen [(site, p.value)],
          (st.after p).record ++ [.item (site, p.value)]⟩ := by
    rw [Recorder.after, items_append, keys_append, ← List.append_assoc]
    rfl
  unfold observeWith
  by_cases hseen : site ∈ st.seen
  · have hmem : site ∈ (st.after p).seen := List.mem_append_left _ hseen
    rw [hafter, keys_of_mem Prod.fst hmem, keys_nil, if_pos hseen]
    simp only [hone, Option.bind_eq_bind, Option.bind_some]
    rfl
  · -- the initialiser has executed other call sites only
    have hnew : site ∉ (st.after p).seen :=
      (grows_observeArgs (fun e _ _ _ _ _ => grows_observe) hinit).busy site List.mem_cons_self
        hseen
    have hsecond (seen : List S) : observeArgs busy args ⟨p.memory, seen, (st.after p).record⟩
        = some (p.value, ⟨p.memory, seen, (st.after p).record⟩) := by
      rw [hlater, htwice, Recorder.after_nil]
    have hmemory : (st.after p).memory = p.memory := rfl
    rw [hafter, keys_of_notMem Prod.fst hnew, keys_nil, if_neg hseen, if_neg hsite]
    simp only [hinit, hmemory, hsecond, Option.bind_eq_bind, Option.bind_some]

/-- Going on from where an expression has left the recorder. -/
theorem Recorder.after_after {α β γ : Type} (st : Recorder τ S) (p : Printed τ S α)
    (q : Printed τ S β) (value : γ) :
    (st.after p).after q = st.after ⟨value, q.memory, p.trace ++ q.trace⟩ := by
  simp only [after, items_append, keys_append, List.append_assoc]

theorem observesPlain {es : List (ArgExpr τ S)} {busy : List S}
    (h : ∀ e ∈ es, ∀ st : Recorder τ S, e.observe busy st
      = some ((e.plain st.memory).value, st.after (e.plain st.memory))) :
    ObservesPlain es busy := by
  induction es with
  | nil =>
    intro st
    rw [observeArgs, plainArgs, Recorder.after_nil]
  | cons e es ih =>
    intro st
    have hrest := ih (fun e' he' => h e' (List.mem_cons_of_mem _ he')) (st.after (e.plain st.memory))
    have hmemory : (st.after (e.plain st.memory)).memory = (e.plain st.memory).memory := rfl
    rw [hmemory, st.after_after _ _ (plainArgs (e :: es) st.memory).value] at hrest
    rw [observeArgs, h e List.mem_cons_self st]
    simp only [Option.bind_eq_bind, Option.bind_some, hrest]
    rfl

/-- A program whose arguments may be evaluated once more does on a recorder what it does without a
    logger. -/
theorem observe_eq_plain {e : ArgExpr τ S} {busy : List S} (hrepeatable : e.Repeatable)
    (hseparate : e.Separate busy) (st : Recorder τ S) :
    e.observe busy st = some ((e.plain st.memory).value, st.after (e.plain st.memory)) := by
  induction e using ArgExpr.induct generalizing busy st with
  | value arg => rw [ArgExpr.observe, ArgExpr.plain, Recorder.after_nil]
  | step update next ih =>
    exact ih st.memory (hrepeatable st.memory) (hseparate st.memory)
      { st with memory := update st.memory }
  | log site args next hargs hnext =>
    obtain ⟨hagain, hrepeatableArgs, hrepeatableNext⟩ := hrepeatable
    obtain ⟨hsite, hseparateArgs, hseparateNext⟩ := hseparate
    rw [repeatableArgs_iff] at hrepeatableArgs
    rw [separateArgs_iff] at hseparateArgs
    have hfirst : ObservesPlain args (site :: busy) := observesPlain
      (fun e he st => hargs e he (hrepeatableArgs e he) (hseparateArgs e he) st)
    have hlater : ObservesPlain args busy := observesPlain (fun e he st =>
      hargs e he (hrepeatableArgs e he)
        ((hseparateArgs e he).of_subset (List.subset_cons_self site busy)) st)
    rw [ArgExpr.observe, observeWith_eq_plain hagain hlater hfirst hsite st]
    simp only [Option.bind_eq_bind, Option.bind_some]
    rw [hnext hrepeatableNext hseparateNext, Recorder.after_after _ _ _ (next.plain _).value,
      List.append_assoc]
    rfl
  | flush next ih =>
    rw [ArgExpr.observe, ih hrepeatable hseparate]
    show some (_, Recorder.mk _ _ (st.record ++ [.mark] ++ _)) = _
    rw [List.append_assoc]
    rfl

end Plain

/-- A value that is computed and logged at its first use, and kept in the memory then. -/
def cached : ArgExpr Nat Bool :=
  .step id (fun
    | 0 => .log false [] (.step (fun _ => 1) (fun _ => .value (.dynamic (.uint8 1))))
    | i + 1 => .value (.dynamic (.uint8 (UInt8.ofNat (i + 1)))))

/-- Two statements that log it. -/
def cachedTwice : ArgExpr Nat Bool :=
  .log true [cached] (.log true [cached] (.value (.dynamic (.uint8 0))))

/-- Without a logger the statements that count print 0 and 1, and leave 2. -/
example : (countTwice.plain 0).memory = 2 ∧ (countTwice.plain 0).entries countFormat
    = [⟨0, [43], []⟩, ⟨1, [123, 125], [(.typeUint8, [0])]⟩, ⟨0, [43], []⟩,
      ⟨1, [123, 125], [(.typeUint8, [1])]⟩] := by decide

end BinaryLog
