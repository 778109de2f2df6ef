import Mathlib.Data.List.Basic
import Mathlib.Data.List.Pairwise
import Mathlib.Order.Lattice

/-!
# First-fit booking of free time

A resource that serves one customer at a time remembers when it is free as a list of half-open
intervals in increasing order. A customer that arrives at time `t` and needs the resource for
`p` is booked in the first interval with room for it, from the later of its arrival and the
start of the interval on. What is left of that interval to either side of the slot stays in the
list when it is at least `least` long and is forgotten otherwise.

`serve_eq_some` says once what a booking does to the list, and everything else is read off it:
the list stays in order (`Separated.serve`), the slot is the earliest one the list admits
(`serve_le`), the slot was free before (`Free.of_slot`), and only time outside the slot is free
afterwards (`Free.of_serve`). A history of bookings is then free of conflicts
(`Clear.serve`), whatever intervals are forgotten on the way (`Clear.subset`).
-/

namespace CarbonSim.FirstFit

open List

/-- A half-open interval of time, from its first instant up to and not including its second. -/
abbrev Interval := ℕ × ℕ

/-- The earliest time at which an arrival at `t` can start in an interval. -/
def start (t : ℕ) (iv : Interval) : ℕ := max iv.1 t

/-- The interval has room for `p` from the earliest possible start on. -/
def Fits (t p : ℕ) (iv : Interval) : Prop := start t iv + p ≤ iv.2

instance (t p : ℕ) (iv : Interval) : Decidable (Fits t p iv) :=
  inferInstanceAs (Decidable (_ ≤ _))

/-- A remainder stays when it is long enough. -/
def keep (least : ℕ) (iv : Interval) : List Interval :=
  if least ≤ iv.2 - iv.1 then [iv] else []

/-- A remainder that is too short to stay. -/
def shed (least : ℕ) (iv : Interval) : List Interval :=
  if least ≤ iv.2 - iv.1 then [] else [iv]

/-- What stays of an interval when the slot from `b` to `e` is cut out of it. -/
def pieces (least b e : ℕ) (iv : Interval) : List Interval :=
  keep least (iv.1, b) ++ keep least (e, iv.2)

/-- Book the first interval with room: the start of the slot, and the intervals that stay. -/
def serve (least t p : ℕ) : List Interval → Option (ℕ × List Interval)
  | [] => none
  | iv :: rest =>
    if Fits t p iv then some (start t iv, pieces least (start t iv) (start t iv + p) iv ++ rest)
    else (serve least t p rest).map fun booked ↦ (booked.1, iv :: booked.2)

/-- The intervals are in increasing order with a gap between any two, and each is long enough. -/
structure Separated (least : ℕ) (l : List Interval) : Prop where
  apart : l.Pairwise fun a b ↦ a.2 < b.1
  long : ∀ iv ∈ l, iv.1 + least ≤ iv.2

/-- The instant lies in one of the intervals. -/
def Free (l : List Interval) (x : ℕ) : Prop := ∃ iv ∈ l, iv.1 ≤ x ∧ x < iv.2

/-- No instant of the booked slots is free. -/
def Clear (l : List Interval) (slots : List Interval) : Prop :=
  ∀ slot ∈ slots, ∀ x, slot.1 ≤ x → x < slot.2 → ¬Free l x

section Keeping

variable {least : ℕ} {iv jv : Interval}

theorem mem_keep : jv ∈ keep least iv ↔ jv = iv ∧ least ≤ iv.2 - iv.1 := by
  unfold keep
  split <;> simp_all

theorem keep_of_le (h : least ≤ iv.2 - iv.1) : keep least iv = [iv] := if_pos h

theorem keep_of_lt (h : iv.2 - iv.1 < least) : keep least iv = [] :=
  if_neg (Nat.not_le.mpr h)

theorem length_keep_le (least : ℕ) (iv : Interval) : (keep least iv).length ≤ 1 := by
  unfold keep
  split <;> simp

/-- A piece lies in the interval it was cut from and does not meet the slot. -/
theorem mem_pieces {b e : ℕ} (hb : iv.1 ≤ b) (he : e ≤ iv.2) (h : jv ∈ pieces least b e iv) :
    (jv = (iv.1, b) ∨ jv = (e, iv.2)) ∧ jv.1 + least ≤ jv.2 := by
  rw [pieces, mem_append, mem_keep, mem_keep] at h
  rcases h with ⟨rfl, hlong⟩ | ⟨rfl, hlong⟩
  · exact ⟨.inl rfl, by simp only at hlong ⊢; omega⟩
  · exact ⟨.inr rfl, by simp only at hlong ⊢; omega⟩

end Keeping

section Serving

variable {least t p b : ℕ} {l l' : List Interval}

/-- What a booking does: it splits the list at the first interval with room, and puts what stays
of that interval in its place. -/
theorem serve_eq_some (h : serve least t p l = some (b, l')) :
    ∃ front iv back, l = front ++ iv :: back ∧ (∀ jv ∈ front, ¬Fits t p jv) ∧ Fits t p iv ∧
      b = start t iv ∧ l' = front ++ (pieces least b (b + p) iv ++ back) := by
  induction l generalizing l' with
  | nil => cases h
  | cons iv rest ih =>
    unfold serve at h
    split at h
    next hfits =>
      cases h
      exact ⟨[], iv, rest, rfl, by simp, hfits, rfl, rfl⟩
    next hfits =>
      obtain ⟨⟨b', rest'⟩, hrest, hpair⟩ := Option.map_eq_some_iff.mp h
      cases hpair
      obtain ⟨front, jv, back, hsplit, hfront, hjv, hb, hstay⟩ := ih hrest
      refine ⟨iv :: front, jv, back, congrArg _ hsplit, ?_, hjv, hb, congrArg _ hstay⟩
      intro kv hkv
      rcases mem_cons.mp hkv with rfl | hkv
      · exact hfits
      · exact hfront kv hkv

/-- The first interval with room is the one that is booked. -/
theorem serve_of_first (least : ℕ) {front : List Interval} {iv : Interval}
    (back : List Interval) (hfront : ∀ jv ∈ front, ¬Fits t p jv) (hfits : Fits t p iv) :
    serve least t p (front ++ iv :: back) = some (start t iv,
      front ++ (pieces least (start t iv) (start t iv + p) iv ++ back)) := by
  induction front with
  | nil => exact if_pos hfits
  | cons jv front ih =>
    have ih := ih fun kv hkv ↦ hfront kv (mem_cons_of_mem _ hkv)
    rw [cons_append, serve, if_neg (hfront jv mem_cons_self), ih]
    rfl

/-- An interval with room is enough for a booking. -/
theorem exists_serve (least : ℕ) {iv : Interval} (hmem : iv ∈ l) (hfits : Fits t p iv) :
    ∃ b l', serve least t p l = some (b, l') := by
  induction l with
  | nil => cases hmem
  | cons jv rest ih =>
    by_cases hjv : Fits t p jv
    · exact ⟨_, _, if_pos hjv⟩
    · have hrest : iv ∈ rest := (mem_cons.mp hmem).resolve_left (by rintro rfl; exact hjv hfits)
      obtain ⟨b, l', h⟩ := ih hrest
      exact ⟨b, jv :: l', by rw [serve, if_neg hjv, h]; rfl⟩

section

variable (h : serve least t p l = some (b, l'))

include h

/-- The slot starts no earlier than the arrival. -/
theorem le_serve : t ≤ b := by
  obtain ⟨_, iv, _, _, _, _, rfl, _⟩ := serve_eq_some h
  exact le_max_right _ _

/-- The slot lies in one of the intervals. -/
theorem exists_mem_serve :
    ∃ iv ∈ l, iv.1 ≤ b ∧ b + p ≤ iv.2 := by
  obtain ⟨front, iv, back, rfl, _, hfits, rfl, _⟩ := serve_eq_some h
  exact ⟨iv, by simp, le_max_left _ _, hfits⟩

/-- A booking makes the list at most one interval longer. -/
theorem length_serve_le : l'.length ≤ l.length + 1 := by
  obtain ⟨front, iv, back, rfl, _, _, _, rfl⟩ := serve_eq_some h
  have hleft := length_keep_le least (iv.1, b)
  have hright := length_keep_le least (b + p, iv.2)
  simp only [pieces, length_append, length_cons]
  omega

end

/-- A slot that an arrival at `t` could have in some interval starts no earlier than the one
that is booked. -/
theorem serve_le (hl : Separated least l) (h : serve least t p l = some (b, l')) {iv : Interval}
    (hmem : iv ∈ l) {c : ℕ} (hc : t ≤ c) (hfirst : iv.1 ≤ c) (hlast : c + p ≤ iv.2) : b ≤ c := by
  obtain ⟨front, jv, back, rfl, hfront, hfits, rfl, -⟩ := serve_eq_some h
  have hiv : Fits t p iv := (Nat.add_le_add_right (max_le hfirst hc) p).trans hlast
  rcases mem_append.mp hmem with hmem | hmem
  · exact absurd hiv (hfront iv hmem)
  rcases mem_cons.mp hmem with rfl | hmem
  · exact max_le hfirst hc
  · -- a later interval starts after the booked one ends
    have hafter : jv.2 < iv.1 := (pairwise_cons.mp (pairwise_append.mp hl.apart).2.1).1 iv hmem
    unfold Fits at hfits
    omega

/-- Forgetting intervals keeps the list in order. -/
theorem Separated.sublist (hl : Separated least l) (h : l'.Sublist l) : Separated least l' :=
  ⟨hl.apart.sublist h, fun iv hiv ↦ hl.long iv (h.subset hiv)⟩

/-- A booking keeps the list in order. -/
theorem Separated.serve (hp : 0 < p) (hl : Separated least l)
    (h : serve least t p l = some (b, l')) : Separated least l' := by
  obtain ⟨front, iv, back, rfl, -, hfits, rfl, rfl⟩ := serve_eq_some h
  obtain ⟨hfront, hback, hacross⟩ := pairwise_append.mp hl.apart
  obtain ⟨hiv, hback⟩ := pairwise_cons.mp hback
  have hfirst : iv.1 ≤ start t iv := le_max_left _ _
  have hpiece : ∀ jv ∈ pieces least (start t iv) (start t iv + p) iv,
      (jv = (iv.1, start t iv) ∨ jv = (start t iv + p, iv.2)) ∧ jv.1 + least ≤ jv.2 :=
    fun _ hjv ↦ mem_pieces hfirst hfits hjv
  constructor
  · rw [pairwise_append, pairwise_append]
    refine ⟨hfront, ⟨?_, hback, ?_⟩, ?_⟩
    · -- the two pieces of one interval: the slot lies between them
      rw [pieces, pairwise_append]
      refine ⟨?_, ?_, ?_⟩
      · unfold keep; split <;> simp
      · unfold keep; split <;> simp
      · intro jv hjv kv hkv
        obtain ⟨rfl, -⟩ := mem_keep.mp hjv
        obtain ⟨rfl, -⟩ := mem_keep.mp hkv
        omega
    · intro jv hjv kv hkv
      have hkv := hiv kv hkv
      unfold Fits at hfits
      rcases (hpiece jv hjv).1 with rfl | rfl <;> simp only at hkv ⊢ <;> omega
    · intro jv hjv kv hkv
      rcases mem_append.mp hkv with hkv | hkv
      · have hbefore := hacross jv hjv iv (by simp)
        rcases (hpiece kv hkv).1 with rfl | rfl <;> simp only <;> omega
      · exact hacross jv hjv kv (by simp [hkv])
  · intro jv hjv
    rcases mem_append.mp hjv with hjv | hjv
    · exact hl.long jv (by simp [hjv])
    rcases mem_append.mp hjv with hjv | hjv
    · exact (hpiece jv hjv).2
    · exact hl.long jv (by simp [hjv])

/-- The booked slot was free. -/
theorem Free.of_slot (h : serve least t p l = some (b, l')) {x : ℕ} (hb : b ≤ x)
    (he : x < b + p) : Free l x := by
  obtain ⟨iv, hmem, hfirst, hlast⟩ := exists_mem_serve h
  exact ⟨iv, hmem, hfirst.trans hb, he.trans_le hlast⟩

/-- What is free after a booking was free before it and lies outside the slot. -/
theorem Free.of_serve (hl : Separated least l) (h : serve least t p l = some (b, l')) {x : ℕ}
    (hfree : Free l' x) : Free l x ∧ ¬(b ≤ x ∧ x < b + p) := by
  obtain ⟨front, iv, back, rfl, -, hfits, rfl, rfl⟩ := serve_eq_some h
  obtain ⟨-, hback, hacross⟩ := pairwise_append.mp hl.apart
  have hiv := (pairwise_cons.mp hback).1
  have hfirst : iv.1 ≤ start t iv := le_max_left _ _
  unfold Fits at hfits
  obtain ⟨jv, hjv, hx⟩ := hfree
  rcases mem_append.mp hjv with hjv | hjv
  · have hbefore := hacross jv hjv iv (by simp)
    exact ⟨⟨jv, by simp [hjv], hx⟩, by omega⟩
  rcases mem_append.mp hjv with hjv | hjv
  · rcases (mem_pieces hfirst hfits hjv).1 with rfl | rfl
    · exact ⟨⟨iv, by simp, hx.1, by simp only at hx; omega⟩, by simp only at hx; omega⟩
    · exact ⟨⟨iv, by simp, by simp only at hx; omega, hx.2⟩, by simp only at hx; omega⟩
  · have hafter := hiv jv hjv
    exact ⟨⟨jv, by simp [hjv], hx⟩, by omega⟩

end Serving

section Horizon

variable {least t p b horizon : ℕ} {l l' : List Interval}

/-- The start of the last interval: from this time on nothing is booked. -/
def lastStart (l : List Interval) : ℕ := (l.getLast?.map Prod.fst).getD 0

/-- The last interval ends at the horizon. -/
def Endless (horizon : ℕ) (l : List Interval) : Prop := l.getLast?.map Prod.snd = some horizon

theorem Endless.ne_nil (h : Endless horizon l) : l ≠ [] := by
  rintro rfl
  cases h

theorem lastStart_cons {iv : Interval} (h : l ≠ []) : lastStart (iv :: l) = lastStart l := by
  obtain ⟨jv, rest, rfl⟩ := exists_cons_of_ne_nil h
  simp [lastStart, getLast?_cons]

/-- The last interval of an endless list. -/
theorem Endless.mem (h : Endless horizon l) : (lastStart l, horizon) ∈ l := by
  obtain ⟨⟨first, second⟩, hlast, rfl⟩ := Option.map_eq_some_iff.mp h
  rw [lastStart, hlast]
  exact mem_of_getLast? hlast

/-- No interval starts after the last one. -/
theorem Separated.le_lastStart (hl : Separated least l) {iv : Interval} (hiv : iv ∈ l) :
    iv.1 ≤ lastStart l := by
  rcases eq_nil_or_concat l with rfl | ⟨front, last, rfl⟩
  · cases hiv
  rw [lastStart, concat_eq_append, getLast?_concat]
  rw [concat_eq_append] at hiv hl
  rcases mem_append.mp hiv with hfront | hlast
  · have hbefore := (pairwise_append.mp hl.apart).2.2 iv hfront last (by simp)
    have hlong := hl.long iv hiv
    simp only [Option.map_some, Option.getD_some]
    omega
  · rw [mem_singleton.mp hlast]
    rfl

/-- There is room for every arrival whose service can start and end before the horizon. -/
theorem Endless.exists_serve (least : ℕ) (hend : Endless horizon l)
    (hroom : max (lastStart l) t + p ≤ horizon) :
    ∃ b l', FirstFit.serve least t p l = some (b, l') :=
  FirstFit.exists_serve least hend.mem hroom

/-- The horizon stays while service ends at least `least` before it. -/
theorem Endless.serve (hend : Endless horizon l) (hroom : max (lastStart l) t + p + least ≤ horizon)
    (h : FirstFit.serve least t p l = some (b, l')) : Endless horizon l' := by
  obtain ⟨front, iv, back, rfl, -, -, rfl, rfl⟩ := serve_eq_some h
  rcases eq_nil_or_concat back with rfl | ⟨init, last, rfl⟩
  · -- the slot is in the last interval, and what follows it stays
    have hiv : iv.2 = horizon := by simpa [Endless] using hend
    have hstart : lastStart (front ++ [iv]) = iv.1 := by simp [lastStart]
    have hkeep : keep least (start t iv + p, iv.2) = [(start t iv + p, iv.2)] :=
      if_pos (by simp only [start]; omega)
    rw [Endless, pieces, hkeep, append_nil, ← append_assoc, getLast?_concat]
    exact congrArg some hiv
  · have hlast : last.2 = horizon := by
      simpa [Endless, getLast?_append, getLast?_cons] using hend
    simp [Endless, getLast?_append, hlast]

/-- The horizon stays when the oldest of several intervals is forgotten. -/
theorem Endless.tail (hend : Endless horizon l) (h : 1 < l.length) : Endless horizon l.tail := by
  match l with
  | [] | [_] => simp at h
  | _ :: iv :: rest => simpa [Endless, getLast?_cons] using hend

end Horizon

section History

variable {least t p b : ℕ} {l l' slots : List Interval}

/-- Forgetting intervals frees nothing. -/
theorem Clear.subset (h : Clear l slots) (hsub : l' ⊆ l) : Clear l' slots := by
  intro slot hslot x hfirst hlast hfree
  obtain ⟨iv, hiv, hx⟩ := hfree
  exact h slot hslot x hfirst hlast ⟨iv, hsub hiv, hx⟩

/-- A booking keeps every earlier slot booked, and its own. -/
theorem Clear.serve (hl : Separated least l) (hclear : Clear l slots)
    (h : serve least t p l = some (b, l')) : Clear l' ((b, b + p) :: slots) := by
  intro slot hslot x hfirst hlast hfree
  obtain ⟨hbefore, houtside⟩ := hfree.of_serve hl h
  rcases mem_cons.mp hslot with rfl | hslot
  · exact houtside ⟨hfirst, hlast⟩
  · exact hclear slot hslot x hfirst hlast hbefore

/-- A booked slot meets no earlier one. -/
theorem Clear.disjoint (hclear : Clear l slots) (h : FirstFit.serve least t p l = some (b, l'))
    {slot : Interval} (hslot : slot ∈ slots) {x : ℕ} (hfirst : slot.1 ≤ x) (hlast : x < slot.2) :
    ¬(b ≤ x ∧ x < b + p) :=
  fun hx ↦ hclear slot hslot x hfirst hlast (Free.of_slot h hx.1 hx.2)

end History

end CarbonSim.FirstFit
