import Mathlib.Data.List.Infix

set_option autoImplicit false

/-! # Computations that print before they fail

`Option` forgets what a program has done by the time it fails. `Printing ε α` keeps it: the items
printed so far and the value, or no value if the computation has been stopped by an error.
`outcome` is the view of `Option` again, and it goes through binds (`outcome_bind`).

`ContinuedBy R t t'` says that `t'` does the same as `t` for as long as `t` goes on, which is what
can be said of a reader given more to read. -/

universe u v w

/-- The items printed, and the value unless an error has stopped the computation. -/
structure Printing (ε : Type u) (α : Type v) where
  output : List ε
  value : Option α

namespace Printing

variable {ε : Type u} {α β : Type v}

/-- Print one item. -/
def print (e : ε) : Printing ε PUnit.{v + 1} := ⟨[e], some ⟨⟩⟩

/-- A computation that prints nothing. -/
def ofOption (a : Option α) : Printing ε α := ⟨[], a⟩

/-- After an error nothing is printed. -/
def bind (t : Printing ε α) (f : α → Printing ε β) : Printing ε β :=
  match t.value with
  | none => ⟨t.output, none⟩
  | some a => ⟨t.output ++ (f a).output, (f a).value⟩

instance : Monad (Printing.{u, v} ε) where
  pure a := ⟨[], some a⟩
  bind := bind

/-- The value with all that was printed; nothing if there was an error. -/
def outcome (t : Printing ε α) : Option (List ε × α) := t.value.map (fun a => (t.output, a))

/-! ## Bind -/

theorem bind_of_none {t : Printing ε α} (h : t.value = none) (f : α → Printing ε β) :
    (t >>= f) = ⟨t.output, none⟩ := by
  show t.bind f = _
  rw [bind, h]

theorem bind_of_some {t : Printing ε α} {a : α} (h : t.value = some a) (f : α → Printing ε β) :
    (t >>= f) = ⟨t.output ++ (f a).output, (f a).value⟩ := by
  show t.bind f = _
  rw [bind, h]

@[simp] theorem output_pure (a : α) : (pure a : Printing ε α).output = [] := rfl

@[simp] theorem value_pure (a : α) : (pure a : Printing ε α).value = some a := rfl

/-- A computation whose value is changed at the end. -/
theorem bind_pure_eq (t : Printing ε α) (f : α → β) :
    (t >>= fun a => pure (f a)) = ⟨t.output, t.value.map f⟩ := by
  cases h : t.value with
  | none => rw [bind_of_none h, Option.map_none]
  | some a => rw [bind_of_some h, output_pure, value_pure, List.append_nil, Option.map_some]

@[simp] theorem ofOption_some_bind (a : α) (f : α → Printing ε β) :
    ((ofOption (some a) : Printing ε α) >>= f) = f a := rfl

@[simp] theorem ofOption_none_bind (f : α → Printing ε β) :
    ((ofOption none : Printing ε α) >>= f) = ofOption none := rfl

/-- What has been printed stays printed. -/
theorem output_prefix_bind (t : Printing ε α) (f : α → Printing ε β) :
    t.output <+: (t >>= f).output := by
  cases h : t.value with
  | none => rw [bind_of_none h]
  | some a =>
    rw [bind_of_some h]
    exact List.prefix_append _ _

/-! ## Without the output of failed computations -/

@[simp] theorem outcome_pure (a : α) : (pure a : Printing ε α).outcome = some ([], a) := rfl

theorem outcome_bind (t : Printing ε α) (f : α → Printing ε β) :
    (t >>= f).outcome
      = t.outcome.bind (fun r => (f r.2).outcome.map (fun s => (r.1 ++ s.1, s.2))) := by
  cases h : t.value with
  | none =>
    rw [bind_of_none h, outcome, outcome, h]
    rfl
  | some a =>
    rw [bind_of_some h, outcome, outcome, h, Option.map_some, Option.bind_some, outcome,
      Option.map_map]
    rfl

theorem outcome_ofOption_bind (a : Option α) (f : α → Printing ε β) :
    ((ofOption a : Printing ε α) >>= f).outcome = a.bind (fun a => (f a).outcome) := by
  cases a <;> rfl

theorem outcome_print_bind (e : ε) (f : PUnit.{v + 1} → Printing ε β) :
    (print e >>= f).outcome = (f ⟨⟩).outcome.map (fun s => (e :: s.1, s.2)) := by
  rw [outcome_bind]
  rfl

/-! ## More to read -/

variable {α' β' : Type w}

/-- `t'` does what `t` does, for as long as `t` goes on. -/
def ContinuedBy (R : α → α' → Prop) (t : Printing ε α) (t' : Printing ε α') : Prop :=
  match t.value with
  | none => t.output <+: t'.output
  | some a => t'.output = t.output ∧ ∃ a' ∈ t'.value, R a a'

variable {R : α → α' → Prop} {t : Printing ε α} {t' : Printing ε α'}

theorem ContinuedBy.pure {a : α} {a' : α'} (h : R a a') :
    (Pure.pure a : Printing ε α).ContinuedBy R (Pure.pure a') := ⟨rfl, a', rfl, h⟩

theorem continuedBy_ofOption {a : Option α} {a' : Option α'}
    (h : ∀ b ∈ a, ∃ b' ∈ a', R b b') :
    (ofOption a : Printing ε α).ContinuedBy R (ofOption a') := by
  cases a with
  | none => exact List.nil_prefix
  | some b => exact ⟨rfl, h b rfl⟩

theorem continuedBy_print {R : PUnit.{v + 1} → PUnit.{w + 1} → Prop} (h : R ⟨⟩ ⟨⟩) (e : ε) :
    (print e).ContinuedBy R (print e) := ⟨rfl, ⟨⟩, rfl, h⟩

/-- Where `t` has failed, `t'` may go on with anything. -/
theorem ContinuedBy.bind {S : β → β' → Prop} (h : t.ContinuedBy R t') {f : α → Printing ε β}
    {f' : α' → Printing ε β'} (hf : ∀ a a', R a a' → (f a).ContinuedBy S (f' a')) :
    (t >>= f).ContinuedBy S (t' >>= f') := by
  unfold ContinuedBy at h
  cases ht : t.value with
  | none =>
    rw [ht] at h
    rw [bind_of_none ht]
    exact List.IsPrefix.trans h (output_prefix_bind t' f')
  | some a =>
    rw [ht] at h
    obtain ⟨houtput, a', ha', hR⟩ := h
    have hrest := hf a a' hR
    rw [bind_of_some ht, bind_of_some ha', houtput]
    unfold ContinuedBy at hrest ⊢
    split at hrest
    · next hnone =>
      rw [hnone]
      exact List.prefix_append_right_inj _ |>.2 hrest
    · next b hb =>
      rw [hb]
      exact ⟨congrArg _ hrest.1, hrest.2⟩

/-- The outputs of two continuations, if the first has no value to compare. -/
theorem ContinuedBy.output_prefix_bind (h : t.ContinuedBy R t') {f : α → Printing ε β}
    {f' : α' → Printing ε β'} (hf : ∀ a a', R a a' → (f a).output <+: (f' a').output) :
    (t >>= f).output <+: (t' >>= f').output := by
  unfold ContinuedBy at h
  cases ht : t.value with
  | none =>
    rw [ht] at h
    rw [bind_of_none ht]
    exact List.IsPrefix.trans h (Printing.output_prefix_bind t' f')
  | some a =>
    rw [ht] at h
    obtain ⟨houtput, a', ha', hR⟩ := h
    rw [bind_of_some ht, bind_of_some ha', houtput]
    exact List.prefix_append_right_inj _ |>.2 (hf a a' hR)

end Printing
