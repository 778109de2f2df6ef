import CarbonSim.Lib.Outcome
import Mathlib.Data.List.Basic

/-!
# Runs whose inputs meet a condition

A machine that takes one input after another and may fail, and the states that it reaches when each
input meets a condition on the state that it finds. An invariant of such runs is kept by the inputs
that meet the condition; a run is exhibited by carrying it out.
-/

namespace CarbonSim

structure Machine (State Input Error : Type) where
  start : State
  step : State → Input → Except Error State

namespace Machine

variable {State Input Error : Type} (M : Machine State Input Error) (Meets : State → Input → Prop)

/-- The states of the runs whose inputs all meet the condition. -/
inductive Reached : State → Prop
  | start : Reached M.start
  | step {s s' : State} {e : Input} (hs : Reached s) (hmeets : Meets s e)
      (hstep : M.step s e = .ok s') : Reached s'

variable {M Meets} {s s' : State}

/-- What holds at the start and is kept by the inputs that meet the condition holds throughout. -/
theorem Reached.invariant {Inv : State → Prop} (hs : Reached M Meets s) (hstart : Inv M.start)
    (hkeep : ∀ s e s', Inv s → Meets s e → M.step s e = .ok s' → Inv s') : Inv s := by
  induction hs with
  | start => exact hstart
  | step _ hmeets hstep ih => exact hkeep _ _ _ ih hmeets hstep

variable (M) in
/-- Carry out the inputs one after another. -/
def exec : State → List Input → Except Error State
  | s, [] => .ok s
  | s, e :: rest => do
    let s ← M.step s e
    exec s rest

variable (M Meets) in
/-- The inputs meet the condition where they are carried out. -/
def AllMeet [∀ s e, Decidable (Meets s e)] : State → List Input → Bool
  | _, [] => true
  | s, e :: rest =>
    decide (Meets s e) && match M.step s e with
      | .ok s => AllMeet s rest
      | .error _ => true

/-- What every input keeps is kept by a run. -/
theorem exec_keeps {P : State → Prop} (hkeep : ∀ s e s', P s → M.step s e = .ok s' → P s')
    (hp : P s)
    (es : List Input) (hexec : M.exec s es = .ok s') : P s' := by
  induction es generalizing s with
  | nil =>
    cases hexec
    exact hp
  | cons e rest ih =>
    obtain ⟨s₁, hstep, hexec⟩ := Outcome.bind_eq_ok hexec
    exact ih (hkeep s e s₁ hp hstep) hexec

theorem Reached.exec [∀ s e, Decidable (Meets s e)] (h : Reached M Meets s) (es : List Input)
    (hmeet : M.AllMeet Meets s es = true) (hexec : M.exec s es = .ok s') : Reached M Meets s' := by
  induction es generalizing s with
  | nil =>
    cases hexec
    exact h
  | cons e rest ih =>
    unfold AllMeet at hmeet
    obtain ⟨hmeets, hrest⟩ := (Bool.and_eq_true _ _).mp hmeet
    obtain ⟨s₁, hstep, hexec⟩ := Outcome.bind_eq_ok hexec
    rw [hstep] at hrest
    exact ih (h.step (of_decide_eq_true hmeets) hstep) hrest hexec

/-- Inputs that meet the condition wherever they are carried out. -/
theorem Reached.exec_of_forall (h : Reached M Meets s) (es : List Input)
    (hmeet : ∀ e ∈ es, ∀ s, Meets s e) (hexec : M.exec s es = .ok s') : Reached M Meets s' := by
  induction es generalizing s with
  | nil =>
    cases hexec
    exact h
  | cons e rest ih =>
    obtain ⟨s₁, hstep, hexec⟩ := Outcome.bind_eq_ok hexec
    refine ih (h.step (hmeet e List.mem_cons_self s) hstep) (fun e' he' ↦ ?_) hexec
    exact hmeet e' (List.mem_cons_of_mem e he')

end Machine

end CarbonSim
