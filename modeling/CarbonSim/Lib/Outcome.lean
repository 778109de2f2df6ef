import Mathlib.Tactic.Common

/-!
# Postconditions of computations that may fail

`Outcome r post fault` says what is known of the result `r` of a computation in `Except`: a value
satisfies `post`, a failure satisfies `fault`. With `fault` always false it says that the computation
cannot fail, with `fault` always true it is partial correctness (`Yields`), so one proof about a
function gives both its safety and its effect.
-/

namespace CarbonSim

/-- A value satisfies `post`, a failure satisfies `fault`. -/
def Outcome {ε : Type} {α : Type} (r : Except ε α) (post : α → Prop) (fault : ε → Prop) :
    Prop :=
  match r with
  | .ok a => post a
  | .error e => fault e

/-- Fail with `e` unless `p` holds. -/
def require {ε : Type} (p : Prop) [Decidable p] (e : ε) : Except ε Unit :=
  if p then .ok () else .error e

/-- Take the value of an option, or fail with `e`. -/
def fetch {ε : Type} {α : Type} (x : Option α) (e : ε) : Except ε α :=
  match x with
  | some a => .ok a
  | none => .error e

/-- A computation after a check succeeds if the check does and the computation does. -/
theorem require_bind_eq_ok {ε β : Type} {p : Prop} [Decidable p] {e : ε} {f : Unit → Except ε β}
    {b : β} : (require p e >>= f) = .ok b ↔ p ∧ f () = .ok b := by
  unfold require
  by_cases hp : p
  · rw [if_pos hp]
    exact ⟨fun hb ↦ ⟨hp, hb⟩, fun hb ↦ hb.2⟩
  · rw [if_neg hp]
    exact ⟨fun hb ↦ (nomatch hb), fun hb ↦ absurd hb.1 hp⟩

namespace Outcome

variable {ε α β : Type} {post post' : α → Prop} {fault fault' : ε → Prop} {e : ε} {r : Except ε α}
  {f : α → Except ε β} {q : β → Prop} {m : α → Prop}

@[simp] theorem pure_iff {a : α} : Outcome (pure a : Except ε α) post fault ↔ post a := Iff.rfl

theorem mono (h : Outcome r post fault) (hp : ∀ a, post a → post' a)
    (hf : ∀ e, fault e → fault' e) : Outcome r post' fault' := by
  cases r with
  | ok a => exact hp a h
  | error e => exact hf e h

theorem imp (h : Outcome r post fault) (hp : ∀ a, post a → post' a) : Outcome r post' fault :=
  h.mono hp fun _ hf ↦ hf

theorem mono_fault (h : Outcome r post fault) (hf : ∀ e, fault e → fault' e) :
    Outcome r post fault' := h.mono (fun _ ha ↦ ha) hf

/-- Nothing is known of the result. -/
theorem unknown : Outcome r (fun _ ↦ True) fun _ ↦ True := by
  cases r <;> trivial

/-- The result itself is remembered. -/
theorem value : Outcome r (fun a ↦ r = .ok a) fun e ↦ r = .error e := by
  cases r <;> rfl

/-- A result that is known under a condition only. -/
theorem provided {p : Prop} (h : p → Outcome r post fun _ ↦ False) :
    Outcome r (fun a ↦ p → post a) fun _ ↦ ¬ p := by
  by_cases hp : p
  · exact (h hp).mono (fun _ ha _ ↦ ha) fun _ hf ↦ hf.elim
  · exact unknown.mono (fun _ _ hp' ↦ absurd hp' hp) fun _ _ ↦ hp

/-- Sequencing: what follows may assume the postcondition of what comes first. -/
theorem bind (h : Outcome r m fault) (hf : ∀ a, m a → Outcome (f a) q fault) :
    Outcome (r >>= f) q fault := by
  cases r with
  | ok a => exact hf a h
  | error e => exact h

/-- Sequencing, where the faults of what comes first are among those of the whole. -/
theorem bind_mono (h : Outcome r m fault') (hfault : ∀ e, fault' e → fault e)
    (hf : ∀ a, m a → Outcome (f a) q fault) : Outcome (r >>= f) q fault :=
  (h.mono_fault hfault).bind hf

/-- A check followed by a computation. -/
theorem require_bind {p : Prop} [Decidable p] {f : Unit → Except ε β}
    (hp : p → Outcome (f ()) q fault) (hf : ¬ p → fault e) :
    Outcome (require p e >>= f) q fault := by
  unfold require
  split_ifs with h
  · exact hp h
  · exact hf h

/-- A check that passes. -/
theorem require_pos {p : Prop} [Decidable p] {f : Unit → Except ε β} (hp : p)
    (h : Outcome (f ()) q fault) : Outcome (require p e >>= f) q fault :=
  require_bind (fun _ ↦ h) fun hn ↦ absurd hp hn

/-- A lookup followed by a computation. -/
theorem fetch_bind {x : Option α} (hp : ∀ a, x = some a → Outcome (f a) q fault)
    (hf : x = none → fault e) : Outcome (fetch x e >>= f) q fault := by
  cases x with
  | some a => exact hp a rfl
  | none => exact hf rfl

theorem of_eq_ok {a : α} (h : Outcome r post fault) (hr : r = .ok a) : post a := by
  rw [hr] at h
  exact h

/-- What never fails returns. -/
theorem exists_ok (h : Outcome r post fault) (hf : ∀ e, ¬ fault e) :
    ∃ a, r = .ok a ∧ post a := by
  cases r with
  | ok a => exact ⟨a, rfl, h⟩
  | error e => exact absurd h (hf e)

theorem of_eq_error (h : Outcome r post fault) (hr : r = .error e) : fault e := by
  rw [hr] at h
  exact h

/-- A computation that returns has returned from its first part. -/
theorem bind_eq_ok {b : β} (h : r >>= f = .ok b) : ∃ a, r = .ok a ∧ f a = .ok b := by
  cases r with
  | ok a => exact ⟨a, rfl, h⟩
  | error e => cases h

/-- A mapped result comes from a result. -/
theorem map_eq_ok {f : α → β} {b : β} (h : f <$> r = .ok b) :
    ∃ a, r = .ok a ∧ f a = b := by
  cases r with
  | ok a => exact ⟨a, rfl, Except.ok.inj h⟩
  | error e => cases h

theorem map_eq_error {f : α → β} (h : f <$> r = .error e) : r = .error e := by
  cases r with
  | ok a => cases h
  | error e' => exact congrArg _ (Except.error.inj h)

theorem mapError_eq_ok {ε' : Type} {g : ε → ε'} {a : α}
    (h : r.mapError g = .ok a) : r = .ok a := by
  cases r with
  | ok b => exact congrArg _ (Except.ok.inj h)
  | error e => cases h

theorem mapError_eq_error {ε' : Type} {g : ε → ε'} {e' : ε'}
    (h : r.mapError g = .error e') : ∃ e, r = .error e ∧ g e = e' := by
  cases r with
  | ok b => cases h
  | error e => exact ⟨e, rfl, Except.error.inj h⟩

end Outcome

/-- Partial correctness: a value satisfies `post`, and nothing is said of a failure. -/
abbrev Yields {ε α : Type} (r : Except ε α) (post : α → Prop) : Prop := Outcome r post fun _ ↦ True

namespace Yields

variable {ε α β : Type} {r : Except ε α} {e : ε} {post : β → Prop} {m m' : α → Prop}

theorem mono (h : Yields r m) (hm : ∀ a, m a → m' a) : Yields r m' :=
  Outcome.mono h hm fun _ _ ↦ trivial

/-- Nothing is known of what comes first. -/
theorem skip {f : α → Except ε β} (hf : ∀ a, Yields (f a) post) : Yields (r >>= f) post :=
  Outcome.bind Outcome.unknown fun a _ ↦ hf a

/-- What follows may use that what comes first has returned. -/
theorem after {f : α → Except ε β} (hf : ∀ a, r = .ok a → Yields (f a) post) :
    Yields (r >>= f) post := Outcome.bind_mono Outcome.value (fun _ _ ↦ trivial) hf

theorem check {p : Prop} [Decidable p] {f : Unit → Except ε β} (hp : p → Yields (f ()) post) :
    Yields (require p e >>= f) post := Outcome.require_bind hp fun _ ↦ trivial

theorem lookup {x : Option α} {f : α → Except ε β} (hp : ∀ a, x = some a → Yields (f a) post) :
    Yields (fetch x e >>= f) post := Outcome.fetch_bind hp fun _ ↦ trivial

end Yields

end CarbonSim
