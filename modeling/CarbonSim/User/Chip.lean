import Mathlib.Data.List.Find
import Mathlib.Logic.Function.Basic

/-!
# The registry of virtual channels

`Chip` hands out the ids of virtual channels and finds them again by the name of the channel. The key
of its map is only the first character of the name, so it keeps the names apart exactly as long as
their first characters differ.
-/

namespace CarbonSim.User

/-- The bytes of a `string`. -/
abbrev Name := List UInt8

/-- `name_arg.c_str()[0]`, the terminating zero for the empty name. -/
def key (name : Name) : UInt8 := name.headD 0

structure Chip where
  nextVcId : ℕ
  activeVirtualChannels : UInt8 → Option ℕ

structure VirtualChannel where
  id : ℕ
  active : Bool
  deriving DecidableEq

namespace Chip

def maxVirtualChannels : ℕ := 1024

def start : Chip := ⟨10, fun _ ↦ none⟩

/-- The id is `none` where the source returns -1. -/
def registerVirtualChannel (c : Chip) (name : Name) : Option ℕ × Chip :=
  if c.nextVcId < maxVirtualChannels then
    (some c.nextVcId, ⟨c.nextVcId + 1,
      Function.update c.activeVirtualChannels (key name) (some c.nextVcId)⟩)
  else (none, c)

def findVcId (c : Chip) (name : Name) : Option ℕ :=
  (c.activeVirtualChannels (key name)).filter (· ≠ 0)

def createFromRegistered (c : Chip) (name : Name) : Option VirtualChannel :=
  (c.findVcId name).map fun id ↦ ⟨id, false⟩

/-- Registers names, the latest first, and keeps the successful registrations. -/
def registerAll : List Name → Chip × List (Name × ℕ)
  | [] => (start, [])
  | name :: names =>
    match (registerAll names).1.registerVirtualChannel name with
    | (some id, c) => (c, (name, id) :: (registerAll names).2)
    | (none, c) => (c, (registerAll names).2)

/-- The map holds, for each key, the latest registration of a name with this key. -/
structure Records (c : Chip) (registered : List (Name × ℕ)) : Prop where
  next_pos : 0 < c.nextVcId
  id_pos : ∀ e ∈ registered, 0 < e.2
  id_lt : ∀ e ∈ registered, e.2 < c.nextVcId
  id_inj : ∀ e ∈ registered, ∀ e' ∈ registered, e.2 = e'.2 → e = e'
  latest : ∀ k, c.activeVirtualChannels k =
    (registered.find? fun e ↦ key e.1 = k).map Prod.snd

variable {c : Chip} {registered : List (Name × ℕ)}

theorem Records.register (h : Records c registered) (name : Name) :
    Records ⟨c.nextVcId + 1, Function.update c.activeVirtualChannels (key name) (some c.nextVcId)⟩
      ((name, c.nextVcId) :: registered) where
  next_pos := Nat.succ_pos _
  id_pos := List.forall_mem_cons.2 ⟨h.next_pos, h.id_pos⟩
  id_lt := List.forall_mem_cons.2 ⟨Nat.lt_succ_self _, fun e he ↦ Nat.lt_succ_of_lt (h.id_lt e he)⟩
  id_inj := by
    have hnew : ∀ e ∈ registered, e.2 ≠ c.nextVcId := fun e he ↦ (h.id_lt e he).ne
    intro e he e' he' heq
    rcases List.mem_cons.mp he with rfl | hold <;> rcases List.mem_cons.mp he' with rfl | hold'
    · rfl
    · exact absurd heq.symm (hnew e' hold')
    · exact absurd heq (hnew e hold)
    · exact h.id_inj e hold e' hold' heq
  latest := by
    intro k
    by_cases hk : key name = k
    · subst hk
      simp
    · simp [Ne.symm hk, hk, h.latest k]

theorem registerAll_records (names : List Name) :
    Records (registerAll names).1 (registerAll names).2 := by
  induction names with
  | nil => exact ⟨by decide, by simp [registerAll], by simp [registerAll], by simp [registerAll],
      by simp [registerAll, start]⟩
  | cons name names ih =>
    rw [registerAll, registerVirtualChannel]
    split_ifs
    · exact ih.register name
    · exact ih

/-- What is found is the latest registration of a name with the same first character. -/
theorem Records.found (h : Records c registered) (name : Name) :
    c.createFromRegistered name =
      (registered.find? fun e ↦ key e.1 = key name).map fun e ↦ ⟨e.2, false⟩ := by
  rw [createFromRegistered, findVcId, h.latest]
  cases hfind : registered.find? fun e ↦ key e.1 = key name with
  | none => rfl
  | some e => simp [(h.id_pos e (List.mem_of_find?_eq_some hfind)).ne']

/-- The lookup is right for a name exactly if the latest registration under its first character is
one of this name, or there is none. -/
theorem Records.found_iff (h : Records c registered) (name : Name) :
    c.createFromRegistered name =
        ((registered.find? fun e ↦ e.1 = name).map fun e ↦ ⟨e.2, false⟩) ↔
      ∀ e, (registered.find? fun e ↦ key e.1 = key name) = some e → e.1 = name := by
  rw [h.found]
  constructor
  · intro heq e hlast
    rw [hlast, Option.map_some] at heq
    obtain ⟨e', hname, hid⟩ := Option.map_eq_some_iff.mp heq.symm
    have hsame := h.id_inj e' (List.mem_of_find?_eq_some hname) e (List.mem_of_find?_eq_some hlast)
      (congrArg VirtualChannel.id hid)
    have hmatch := List.find?_some hname
    rw [decide_eq_true_iff, hsame] at hmatch
    exact hmatch
  · intro hlatest
    cases hlast : registered.find? fun e ↦ key e.1 = key name with
    | none =>
      have hnone : ∀ e ∈ registered, ¬ e.1 = name := fun e he heq ↦
        List.find?_eq_none.mp hlast e he (decide_eq_true (congrArg key heq))
      rw [List.find?_eq_none.mpr fun e he ↦ by simpa using hnone e he]
    | some e =>
      -- nothing before it has the character, so nothing before it has the name
      obtain ⟨-, before, after, hsplit, hbefore⟩ := List.find?_eq_some_iff_append.mp hlast
      have hfirst : (registered.find? fun e ↦ e.1 = name) = some e := by
        refine List.find?_eq_some_iff_append.mpr
          ⟨decide_eq_true (hlatest e hlast), before, after, hsplit, fun e' he' ↦ ?_⟩
        have hother := hbefore e' he'
        simp only [Bool.not_eq_true', decide_eq_false_iff_not] at hother ⊢
        exact fun heq ↦ hother (congrArg key heq)
      rw [hfirst]

/-- A registration that succeeds gives a new id. A name is found with its latest registration, and
not found without one, exactly if no other name is the latest one registered under its first
character. When the ids have run out, a registration fails and changes nothing. -/
theorem registry_by_name (names : List Name) :
    (∀ name id, ((registerAll names).1.registerVirtualChannel name).1 = some id →
      ∀ e ∈ (registerAll names).2, e.2 ≠ id) ∧
    (∀ name, (registerAll names).1.createFromRegistered name =
        (((registerAll names).2.find? fun e ↦ e.1 = name).map fun e ↦ ⟨e.2, false⟩) ↔
      ∀ e, ((registerAll names).2.find? fun e ↦ key e.1 = key name) = some e → e.1 = name) ∧
    (maxVirtualChannels ≤ (registerAll names).1.nextVcId → ∀ name,
      (registerAll names).1.registerVirtualChannel name = (none, (registerAll names).1)) := by
  have h := registerAll_records names
  refine ⟨fun name id hid e he ↦ ?_, h.found_iff, fun hmax name ↦ if_neg (by omega)⟩
  rw [registerVirtualChannel] at hid
  split_ifs at hid
  rw [← Option.some.inj hid]
  exact (h.id_lt e he).ne

/-- The channel "ab" is found again when "ac" has been registered before it. -/
theorem registry_by_name_latest :
    (registerAll [[97, 98], [97, 99]]).1.createFromRegistered [97, 98] = some ⟨11, false⟩ :=
  ((registry_by_name [[97, 98], [97, 99]]).2.1 [97, 98]).mpr (by decide)

/-- After the registration of "ab" the channel "ac" is found, with the id of "ab". -/
theorem registry_first_character :
    (registerAll [[97, 98]]).1.createFromRegistered [97, 99] = some ⟨10, false⟩ := by
  decide

end Chip

end CarbonSim.User
