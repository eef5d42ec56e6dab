import Mathlib.Data.List.Induction

set_option autoImplicit false

/-! # Simulating a fallible program by a total one

A concrete step `σ → ι → Except ε σ` may fault; its abstract counterpart `α → ι → α` cannot. Two
separate facts relate them: `Tracks` (a concrete step that succeeds is matched by the abstract one)
and `Progress` (the concrete step succeeds whenever the abstract result still fits the budget `G`).
Both lift from one step to a whole run (`List.foldlM` against `List.foldl`). -/

namespace Simulation

universe u v

/-! ## Peeling a bind of `Except` -/

section Except

variable {ε : Type u} {α β : Type v}

@[simp] theorem ok_bind (a : α) (f : α → Except ε β) : (Except.ok a >>= f) = f a := rfl

@[simp] theorem error_bind (e : ε) (f : α → Except ε β) :
    ((Except.error e : Except ε α) >>= f) = .error e := rfl

@[simp] theorem pure_eq_ok (a : α) : (pure a : Except ε α) = .ok a := rfl

/-- The inversion every fallible function is taken apart with. -/
theorem bind_eq_ok {x : Except ε α} {f : α → Except ε β} {b : β} :
    (x >>= f) = .ok b ↔ ∃ a, x = .ok a ∧ f a = .ok b := by
  cases x with
  | error e => simp
  | ok a => simp

theorem map_eq_ok {x : Except ε α} {f : α → β} {b : β} :
    x.map f = .ok b ↔ ∃ a, x = .ok a ∧ f a = b := by
  cases x with
  | error e => simp [Except.map]
  | ok a => simp [Except.map]

end Except

/-- Read a missing result as the fault `e`. -/
def orFault {ε : Type u} {α : Type v} (e : ε) : Option α → Except ε α
  | some a => .ok a
  | none => .error e

@[simp] theorem orFault_eq_ok {ε : Type u} {α : Type v} {e : ε} {x : Option α} {a : α} :
    orFault e x = .ok a ↔ x = some a := by
  cases x <;> simp [orFault]

/-! ## Tracking and progress -/

section Step

variable {ε σ α ι : Type u}
variable (R : σ → α → Prop) (G : α → Prop)

/-- Every successful concrete step is matched by the abstract one. -/
def Tracks (step : σ → ι → Except ε σ) (astep : α → ι → α) : Prop :=
  ∀ s a i s', R s a → step s i = .ok s' → R s' (astep a i)

/-- The concrete step succeeds as long as the abstract result is within the budget `G`. -/
def Progress (step : σ → ι → Except ε σ) (astep : α → ι → α) : Prop :=
  ∀ s a i, R s a → G (astep a i) → ∃ s', step s i = .ok s'

/-- A budget that is met after a step was met before it. -/
def Antitone (astep : α → ι → α) : Prop :=
  ∀ a i, G (astep a i) → G a

variable {R G}
variable {step : σ → ι → Except ε σ} {astep : α → ι → α}

theorem Antitone.foldl (hG : Antitone G astep) (is : List ι) {a : α}
    (h : G (is.foldl astep a)) : G a := by
  induction is generalizing a with
  | nil => exact h
  | cons i is ih => exact hG a i (ih h)

theorem Tracks.foldlM (ht : Tracks R step astep) {s s' : σ} {a : α} {is : List ι}
    (hR : R s a) (hrun : is.foldlM step s = .ok s') : R s' (is.foldl astep a) := by
  induction is generalizing s a with
  | nil =>
    simp only [List.foldlM_nil, pure_eq_ok, Except.ok.injEq] at hrun
    exact hrun ▸ hR
  | cons i is ih =>
    simp only [List.foldlM_cons, bind_eq_ok] at hrun
    obtain ⟨s₁, hs₁, hrest⟩ := hrun
    exact ih (ht s a i s₁ hR hs₁) hrest

theorem Progress.foldlM (hp : Progress R G step astep) (ht : Tracks R step astep)
    (hG : Antitone G astep) (is : List ι) {s : σ} {a : α} (hR : R s a)
    (hroom : G (is.foldl astep a)) : ∃ s', is.foldlM step s = .ok s' := by
  induction is generalizing s a with
  | nil => exact ⟨s, rfl⟩
  | cons i is ih =>
    obtain ⟨s₁, hs₁⟩ := hp s a i hR (hG.foldl is hroom)
    obtain ⟨s', hs'⟩ := ih (ht s a i s₁ hR hs₁) hroom
    exact ⟨s', by simp only [List.foldlM_cons, hs₁, ok_bind, hs']⟩

end Step

/-- A property kept by every step that succeeds is kept by every run that succeeds. -/
theorem foldlM_preserved {ε σ ι : Type u} {P : σ → Prop} {step : σ → ι → Except ε σ}
    (hstep : ∀ s i s', P s → step s i = .ok s' → P s') {is : List ι} {s s' : σ} (hs : P s)
    (hrun : is.foldlM step s = .ok s') : P s' := by
  induction is generalizing s with
  | nil => exact Except.ok.inj hrun ▸ hs
  | cons i is ih =>
    simp only [List.foldlM_cons, bind_eq_ok] at hrun
    obtain ⟨s₁, hs₁, hrest⟩ := hrun
    exact ih (hstep s i s₁ hs hs₁) hrest

/-- Steps that always succeed make up runs that always succeed. -/
theorem exists_foldlM {ε σ ι : Type u} {step : σ → ι → Except ε σ}
    (hstep : ∀ s i, ∃ s', step s i = .ok s') (is : List ι) (s : σ) :
    ∃ s', is.foldlM step s = .ok s' := by
  induction is generalizing s with
  | nil => exact ⟨s, rfl⟩
  | cons i is ih =>
    obtain ⟨s₁, hs₁⟩ := hstep s i
    obtain ⟨s', hs'⟩ := ih s₁
    exact ⟨s', by rw [List.foldlM_cons, hs₁, ok_bind, hs']⟩

/-! ## Results up to one fault -/

section YieldsOr

variable {ε α β ι : Type u} {e : ε}

/-- The computation returns a value with `P`, or fails with the fault `e`; no other fault. -/
def YieldsOr (e : ε) (P : α → Prop) : Except ε α → Prop
  | .ok a => P a
  | .error f => f = e

theorem YieldsOr.bind {P : α → Prop} {Q : β → Prop} {x : Except ε α} {f : α → Except ε β}
    (hx : YieldsOr e P x) (hf : ∀ a, P a → YieldsOr e Q (f a)) : YieldsOr e Q (x >>= f) := by
  cases x with
  | error f => exact hx
  | ok a => exact hf a hx

theorem YieldsOr.map {P : β → Prop} {x : Except ε α} {f : α → β}
    (hx : YieldsOr e (fun a => P (f a)) x) : YieldsOr e P (x.map f) := by
  cases x with
  | error f => exact hx
  | ok a => exact hx

theorem YieldsOr.imp {P Q : α → Prop} {x : Except ε α} (hx : YieldsOr e P x)
    (h : ∀ a, P a → Q a) : YieldsOr e Q x := by
  cases x with
  | error f => exact hx
  | ok a => exact h a hx

theorem YieldsOr.of_ok {P : α → Prop} {x : Except ε α} {a : α} (hx : YieldsOr e P x)
    (h : x = .ok a) : P a := by
  rw [h] at hx
  exact hx

theorem YieldsOr.eq_of_error {P : α → Prop} {x : Except ε α} {f : ε} (hx : YieldsOr e P x)
    (h : x = .error f) : f = e := by
  rw [h] at hx
  exact hx

/-- An invariant that may mention the inputs read so far. -/
theorem YieldsOr.foldlM {step : α → ι → Except ε α} {I : List ι → α → Prop} {a : α} (is : List ι)
    (hstart : I [] a)
    (hstep : ∀ pre i post, is = pre ++ i :: post → ∀ b, I pre b →
      YieldsOr e (I (pre ++ [i])) (step b i)) : YieldsOr e (I is) (is.foldlM step a) := by
  induction is using List.reverseRecOn with
  | nil => exact hstart
  | append_singleton is i ih =>
    have hpre := ih (fun pre j post h => hstep pre j (post ++ [i]) (by rw [h]; simp))
    rw [List.foldlM_append]
    refine hpre.bind (fun b hb => ?_)
    rw [List.foldlM_cons]
    refine (hstep is i [] rfl b hb).bind (fun c hc => ?_)
    exact hc

end YieldsOr

end Simulation
