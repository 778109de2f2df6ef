import CarbonSim.Directory.DirectoryCache

/-!
# The faults of a directory entry

The operations of a sharer list fail only with the assertions of the directory schemes; in
particular none of them is the assertion of DRAM about an address it has not been asked for.
-/

namespace CarbonSim.Directory

/-- The computation does not fail with the assertion of DRAM. -/
def NoDramFault {α : Type} (r : Except Fault α) : Prop :=
  Outcome r (fun _ ↦ True) fun e ↦ e ≠ .noDramData

namespace NoDramFault

variable {α β : Type}

theorem pure (a : α) : NoDramFault (Pure.pure a : Except Fault α) := trivial

theorem bind {r : Except Fault α} {f : α → Except Fault β} (h : NoDramFault r)
    (hf : ∀ a, NoDramFault (f a)) : NoDramFault (r >>= f) :=
  Outcome.bind h fun a _ ↦ hf a

theorem require_bind {p : Prop} [Decidable p] {e : Fault} {f : Unit → Except Fault β}
    (he : e ≠ .noDramData) (hf : NoDramFault (f ())) : NoDramFault (require p e >>= f) :=
  Outcome.require_bind (fun _ ↦ hf) fun _ ↦ he

theorem fetch {x : Option α} {e : Fault} (he : e ≠ .noDramData) :
    NoDramFault (fetch x e) := by
  cases x with
  | some a => trivial
  | none => exact he

theorem branch {p : Prop} [Decidable p] {r r' : Except Fault α} (h : NoDramFault r)
    (h' : NoDramFault r') : NoDramFault (if p then r else r') := by
  split_ifs
  · exact h
  · exact h'

end NoDramFault

section Operations

open NoDramFault

section

variable (b : BitVector)

include b

theorem BitVector.at?_noDramFault (i : ℤ) : NoDramFault (b.at? i) :=
  require_bind (by decide) trivial

theorem BitVector.set_noDramFault (i : ℤ) : NoDramFault (b.set i) :=
  bind (b.at?_noDramFault i) fun _ ↦ trivial

theorem BitVector.clear_noDramFault (i : ℤ) : NoDramFault (b.clear i) :=
  bind (b.at?_noDramFault i) fun _ ↦ trivial

theorem BitVector.setNew_noDramFault (i : ℤ) : NoDramFault (b.setNew i) :=
  bind (b.at?_noDramFault i) fun _ ↦ require_bind (by decide) (b.set_noDramFault i)

theorem BitVector.clearOld_noDramFault (i : ℤ) : NoDramFault (b.clearOld i) :=
  bind (b.at?_noDramFault i) fun _ ↦ require_bind (by decide) (b.clear_noDramFault i)

theorem BitVector.sharersList_noDramFault : NoDramFault b.sharersList :=
  require_bind (by decide) trivial

end

theorem Limited.addSharer_noDramFault (l : Limited) (i : ℤ) : NoDramFault (l.addSharer i) := by
  refine require_bind (by decide) ?_
  split <;> trivial

theorem Limited.removeSharer_noDramFault (l : Limited) (i : ℤ) : NoDramFault (l.removeSharer i) :=
  bind (NoDramFault.fetch (by decide)) fun _ ↦ trivial

theorem Limited.sharersList_noDramFault (l : Limited) : NoDramFault l.sharersList :=
  require_bind (by decide) trivial

theorem migrate_noDramFault (n : ℕ) (l : List ℤ) (b : BitVector) :
    NoDramFault (migrate n l b) := by
  induction l generalizing b with
  | nil => trivial
  | cons x xs ih =>
    unfold migrate
    exact branch (ih b) (require_bind (by decide) (bind (b.set_noDramFault x) fun b ↦ ih b))

namespace Sharers

theorem hasSharer_noDramFault (x : Sharers) (i : ℤ) : NoDramFault (x.hasSharer i) := by
  match x with
  | .fullMap b | .limitless _ _ (some b) => exact b.at?_noDramFault i
  | .limitedNoBroadcast _ | .limitedBroadcast _ _ _ _ | .ackwise _ _ _ | .limitless _ _ none => trivial

theorem addSharer_noDramFault (x : Sharers) (i : ℤ) : NoDramFault (x.addSharer i) := by
  match x with
  | .fullMap b | .limitless _ _ (some b) => exact bind (b.setNew_noDramFault i) fun _ ↦ trivial
  | .limitedNoBroadcast l => exact bind (l.addSharer_noDramFault i) fun _ ↦ trivial
  | .limitedBroadcast l _ _ _ | .ackwise l _ _ =>
    exact branch trivial (bind (l.addSharer_noDramFault i) fun _ ↦
      branch trivial (require_bind (by decide) trivial))
  | .limitless l n none =>
    exact bind (l.addSharer_noDramFault i) fun _ ↦ branch trivial (bind (migrate_noDramFault n _ _)
      fun b ↦ bind (b.set_noDramFault i) fun _ ↦ require_bind (by decide) trivial)

theorem removeSharer_noDramFault (x : Sharers) (i : ℤ) (r : Bool) :
    NoDramFault (x.removeSharer i r) := by
  match x with
  | .fullMap b | .limitless _ _ (some b) =>
    exact require_bind (by decide) (bind (b.clearOld_noDramFault i) fun _ ↦ trivial)
  | .limitedNoBroadcast l | .limitless l _ none =>
    exact require_bind (by decide) (bind (l.removeSharer_noDramFault i) fun _ ↦ trivial)
  | .limitedBroadcast l _ _ _ =>
    have hreply (l : Limited) (n : ℕ) (g : Bool) (k : ℤ) : NoDramFault (if r then do
          require (g = true) .replyExpected
          if k - 1 = 0 then
            require (l.numTracked = 0) .trackedCount
            return .limitedBroadcast l n false 0
          else return .limitedBroadcast l n true (k - 1)
        else return .limitedBroadcast l n g k : Except Fault Sharers) :=
      branch (require_bind (by decide) (branch (require_bind (by decide) (pure _)) (pure _)))
        (pure _)
    exact branch (NoDramFault.bind (pure _) fun l ↦ hreply l _ _ _)
      (NoDramFault.bind (l.removeSharer_noDramFault i) fun l ↦ hreply l _ _ _)
  | .ackwise l _ _ =>
    exact require_bind (by decide) (branch (require_bind (by decide)
      (branch (bind (l.removeSharer_noDramFault i) fun _ ↦ trivial) trivial))
      (bind (l.removeSharer_noDramFault i) fun _ ↦ trivial))

theorem getSharersList_noDramFault (x : Sharers) : NoDramFault x.getSharersList := by
  match x with
  | .fullMap b | .limitless _ _ (some b) => exact bind b.sharersList_noDramFault fun _ ↦ trivial
  | .limitedNoBroadcast l | .limitedBroadcast l _ _ _ | .ackwise l _ _ | .limitless l _ none =>
    exact bind l.sharersList_noDramFault fun _ ↦ trivial

theorem oneSharer_noDramFault (x : Sharers) (index : ℕ → ℕ) : NoDramFault (x.oneSharer index) := by
  refine bind x.getSharersList_noDramFault fun r ↦ ?_
  have hno : Fault.noSharer ≠ Fault.noDramData := by decide
  obtain ⟨all, list⟩ := r
  cases list with
  | nil => cases x <;> first | exact hno | trivial
  | cons z zs => cases x <;> exact .fetch hno

end Sharers

end Operations

/-! ### Faults of an entry whose sharer list is exact -/

/-- A fault that only an inexact sharer list can cause, and that is not the assertion of DRAM. -/
def Tolerated (listed : Prop) (e : Fault) : Prop := ¬ listed ∧ e ≠ .noDramData

theorem NoDramFault.tolerated {α : Type} {listed : Prop} {r : Except Fault α} {post : α → Prop}
    (h : NoDramFault r) (h' : Outcome r post fun _ ↦ ¬ listed) :
    Outcome r post (Tolerated listed) := by
  cases r with
  | ok a => exact h'
  | error e => exact ⟨h', h⟩

end CarbonSim.Directory
