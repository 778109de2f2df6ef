import Mathlib.Algebra.Group.Int.Defs
import Mathlib.Algebra.Group.Nat.Defs
import CarbonSim.Lib.Framing

/-!
# Packets on the sockets

A packet is its length, its tag and its data. The length and the tag are 32 bits wide, with the lowest
byte first; the tag is signed. The update thread reads the three one after another.
-/

namespace CarbonSim.Transport

/-- The bytes of a 32-bit word. -/
def bytesOf (n : ℕ) : List UInt8 :=
  [UInt8.ofNat n, UInt8.ofNat (n / 2 ^ 8), UInt8.ofNat (n / 2 ^ 16), UInt8.ofNat (n / 2 ^ 24)]

/-- The word of some bytes. -/
def wordOf : List UInt8 → ℕ
  | [] => 0
  | b :: rest => b.toNat + 2 ^ 8 * wordOf rest

theorem wordOf_bytesOf {n : ℕ} (hn : n < 2 ^ 32) : wordOf (bytesOf n) = n := by
  simp only [bytesOf, wordOf, UInt8.toNat_ofNat']
  omega

/-- A signed word, and back. -/
def toWord (tag : ℤ) : ℕ := (tag % 2 ^ 32).toNat

def ofWord (n : ℕ) : ℤ := if n < 2 ^ 31 then n else n - 2 ^ 32

theorem toWord_lt (tag : ℤ) : toWord tag < 2 ^ 32 := by
  unfold toWord
  omega

theorem ofWord_toWord {tag : ℤ} (hlow : -2 ^ 31 ≤ tag) (hhigh : tag < 2 ^ 31) :
    ofWord (toWord tag) = tag := by
  unfold ofWord toWord
  split_ifs <;> omega

structure Packet where
  tag : ℤ
  data : List UInt8
  deriving DecidableEq

/-- Length, Tag, Data. -/
def Packet.encode (pkt : Packet) : List UInt8 :=
  bytesOf pkt.data.length ++ (bytesOf (toWord pkt.tag) ++ pkt.data)

/-- The calls of `Socket::recv` in `updateBufferLists`, with what was received before. -/
inductive Stage
  | length
  | tag (length : ℕ)
  | data (length : ℕ) (tag : ℤ)
  deriving DecidableEq, Repr

/-- How `updateBufferLists` reads a packet. -/
def packetFormat : Framing UInt8 Stage Packet where
  start := .length
  want
    | .length => 4
    | .tag _ => 4
    | .data length _ => length
  next
    | .length, block => .inl (.tag (wordOf block))
    | .tag length, block => .inl (.data length (ofWord (wordOf block)))
    | .data _ tag, block => .inr ⟨tag, block⟩

/-- The packets that the format can carry: a packet without data would be read for ever. -/
structure Packet.Fits (pkt : Packet) : Prop where
  nonempty : 0 < pkt.data.length
  short : pkt.data.length < 2 ^ 32
  low : -2 ^ 31 ≤ pkt.tag
  high : pkt.tag < 2 ^ 31

/-- What is written is read back. -/
theorem Packet.Fits.parses {pkt : Packet} (h : pkt.Fits) :
    packetFormat.Parses .length pkt.encode pkt := by
  have htag : packetFormat.next .length (bytesOf pkt.data.length) = .inl (.tag pkt.data.length) := by
    show Sum.inl (Stage.tag (wordOf (bytesOf pkt.data.length))) = _
    rw [wordOf_bytesOf h.short]
  have hdata : packetFormat.next (.tag pkt.data.length) (bytesOf (toWord pkt.tag)) =
      .inl (.data pkt.data.length pkt.tag) := by
    show Sum.inl (Stage.data pkt.data.length (ofWord (wordOf (bytesOf (toWord pkt.tag))))) = _
    rw [wordOf_bytesOf (toWord_lt pkt.tag), ofWord_toWord h.low h.high]
  refine .more rfl htag (show 0 < 4 by decide) (.more rfl hdata h.nonempty (.last rfl rfl))

end CarbonSim.Transport
