import Mathlib.Data.List.Basic

/-!
# Messages read from a stream in pieces

A message is read as a sequence of blocks: the stage that the reader is in says how long the next block
is, and a full block leads to another stage or completes the message. The reader takes the bytes of a
block in any number of pieces. `Reads` is the invariant of such a reader: what it holds of a block and
what it has not read are the rest of one message, followed by whole messages.
-/

namespace CarbonSim

open List

/-- A format of messages. -/
structure Framing (Byte Stage Msg : Type) where
  start : Stage
  want : Stage → ℕ
  next : Stage → List Byte → Stage ⊕ Msg

namespace Framing

variable {Byte Stage Msg : Type} (F : Framing Byte Stage Msg) {piece : List Byte}

/-- The bytes are those of the message, from a stage on. -/
inductive Parses : Stage → List Byte → Msg → Prop
  | last {stage : Stage} {block : List Byte} {m : Msg} (hlength : block.length = F.want stage)
      (hnext : F.next stage block = .inr m) : Parses stage block m
  | more {stage stage' : Stage} {block rest : List Byte} {m : Msg}
      (hlength : block.length = F.want stage) (hnext : F.next stage block = .inl stage')
      (hpos : 0 < F.want stage') (hrest : Parses stage' rest m) : Parses stage (block ++ rest) m

/-- A reader in a stage with the part of the block that it has. -/
structure Reader (Byte Stage : Type) where
  stage : Stage
  got : List Byte

def idle : Reader Byte Stage := ⟨F.start, []⟩

/-- The reader takes a piece of the block, and the message if that is complete. -/
def feed (r : Reader Byte Stage) (piece : List Byte) : Reader Byte Stage × Option Msg :=
  if (r.got ++ piece).length < F.want r.stage then (⟨r.stage, r.got ++ piece⟩, none)
  else
    match F.next r.stage (r.got ++ piece) with
    | .inl stage => (⟨stage, []⟩, none)
    | .inr m => (F.idle, some m)

/-- The reader is in the first of the messages, or it has read none of them. -/
structure Reads (encode : Msg → List Byte) (r : Reader Byte Stage) (unread : List Byte)
    (msgs : List Msg) : Prop where
  short : r.got.length < F.want r.stage
  idle : msgs = [] → r = F.idle ∧ unread = []
  busy : ∀ m rest, msgs = m :: rest →
    ∃ bytes, F.Parses r.stage bytes m ∧ r.got ++ unread = bytes ++ rest.flatMap encode

variable {F} {encode : Msg → List Byte} {r : Reader Byte Stage} {unread : List Byte}
  {msgs : List Msg}

theorem Parses.block_le {stage : Stage} {bytes : List Byte} {m : Msg} (h : F.Parses stage bytes m) :
    F.want stage ≤ bytes.length := by
  cases h with
  | last hlength _ => exact Nat.le_of_eq hlength.symm
  | more hlength _ _ _ =>
    rw [length_append, hlength]
    exact Nat.le_add_right _ _

theorem reads_idle (hstart : 0 < F.want F.start) : F.Reads encode F.idle [] [] where
  short := hstart
  idle _ := ⟨rfl, rfl⟩
  busy _ _ h := nomatch h

/-- A reader between two messages. -/
theorem reads_start (hstart : 0 < F.want F.start)
    (hencode : ∀ m ∈ msgs, F.Parses F.start (encode m) m) :
    F.Reads encode F.idle (msgs.flatMap encode) msgs where
  short := hstart
  idle h := ⟨rfl, by rw [h]; rfl⟩
  busy m rest h := by
    subst h
    exact ⟨encode m, hencode m mem_cons_self, rfl⟩

/-- A message is added to the stream. -/
theorem Reads.send (h : F.Reads encode r unread msgs) {m : Msg} (hm : F.Parses F.start (encode m) m) :
    F.Reads encode r (unread ++ encode m) (msgs ++ [m]) := by
  refine ⟨h.short, fun hnil ↦ absurd hnil (by simp), fun m' rest heq ↦ ?_⟩
  cases msgs with
  | nil =>
    obtain ⟨rfl, rfl⟩ := h.idle rfl
    cases heq
    exact ⟨encode m, hm, by simp [Framing.idle]⟩
  | cons m₁ rest₁ =>
    have heq' : m₁ :: (rest₁ ++ [m]) = m' :: rest := heq
    obtain ⟨rfl, rfl⟩ := List.cons.inj heq'
    obtain ⟨bytes, hparses, hbytes⟩ := h.busy m₁ rest₁ rfl
    refine ⟨bytes, hparses, ?_⟩
    rw [← append_assoc, hbytes, append_assoc, flatMap_append, flatMap_singleton]

/-- Inside a message the rest of the block is in the stream: the reader is not held up. -/
theorem Reads.available (h : F.Reads encode r unread msgs) (hbusy : msgs ≠ []) :
    F.want r.stage ≤ r.got.length + unread.length := by
  cases msgs with
  | nil => exact absurd rfl hbusy
  | cons m rest =>
    obtain ⟨bytes, hparses, hbytes⟩ := h.busy m rest rfl
    have hlength := congrArg List.length hbytes
    rw [length_append, length_append] at hlength
    have hblock := hparses.block_le
    omega

/-- A piece that does not fill the block. -/
theorem feed_short (h : (r.got ++ piece).length < F.want r.stage) :
    F.feed r piece = (⟨r.stage, r.got ++ piece⟩, none) := if_pos h

/-- A piece that fills the block. -/
theorem feed_full (h : ¬ (r.got ++ piece).length < F.want r.stage) :
    F.feed r piece = match F.next r.stage (r.got ++ piece) with
      | .inl stage => (⟨stage, []⟩, none)
      | .inr m => (F.idle, some m) := if_neg h

/-- The messages come out one after another, whatever the pieces are. -/
theorem Reads.feed (h : F.Reads encode r (piece ++ unread) msgs)
    (hstart : 0 < F.want F.start) (hencode : ∀ m ∈ msgs, F.Parses F.start (encode m) m)
    (hpiece : piece ≠ []) (hfit : r.got.length + piece.length ≤ F.want r.stage) :
    ((F.feed r piece).2 = none ∧ F.Reads encode (F.feed r piece).1 unread msgs) ∨
      ∃ m rest, msgs = m :: rest ∧ F.feed r piece = (F.idle, some m) ∧
        F.Reads encode F.idle unread rest := by
  cases msgs with
  | nil =>
    have hnil := (h.idle rfl).2
    exact absurd (append_eq_nil_iff.mp hnil).1 hpiece
  | cons m rest =>
    obtain ⟨bytes, hparses, hbytes⟩ := h.busy m rest rfl
    rw [← append_assoc] at hbytes
    by_cases hshort : (r.got ++ piece).length < F.want r.stage
    · rw [feed_short hshort]
      refine .inl ⟨rfl, hshort, nofun, fun m' rest' heq ↦ ?_⟩
      obtain ⟨rfl, rfl⟩ := List.cons.inj heq
      exact ⟨bytes, hparses, hbytes⟩
    · have hlength : (r.got ++ piece).length = F.want r.stage := by
        rw [length_append] at hshort ⊢
        omega
      rw [feed_full hshort]
      cases hparses with
      | last hblock hnext =>
        -- the block is the rest of the message
        obtain ⟨hgot, hunread⟩ := append_inj hbytes (hlength.trans hblock.symm)
        rw [hgot, hnext, hunread]
        refine .inr ⟨m, rest, rfl, rfl, reads_start hstart fun m' hm' ↦ ?_⟩
        exact hencode m' (mem_cons_of_mem m hm')
      | more hblock hnext hpos hrest =>
        have hsplit := hbytes.trans (append_assoc ..)
        obtain ⟨hgot, hunread⟩ := append_inj hsplit (hlength.trans hblock.symm)
        rw [hgot, hnext, hunread]
        refine .inl ⟨rfl, hpos, nofun, fun m' rest' heq ↦ ?_⟩
        obtain ⟨rfl, rfl⟩ := List.cons.inj heq
        exact ⟨_, hrest, rfl⟩

end Framing

end CarbonSim
