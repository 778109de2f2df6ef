import CarbonSim.Queue.HistoryList
import Mathlib.Algebra.BigOperators.Group.List.Basic
import Mathlib.Algebra.Order.Ring.Int

/-!
# Interleaving in the history-list queue model

With interleaving a packet that does not fit into one free interval is served piecewise. A packet
that starts before an interval that is too short takes all of it and goes on with what is left of
its processing time. A packet that starts inside such an interval takes the rest of the interval
too, but its processing time is not reduced: `pkt_time` has already moved to the end of the interval
when the difference is taken, so the packet is served once more in full (`CutShort`).

`Treats` lists the four ways in which the loop can treat an interval. `total_used` then accounts
for the time that the pieces add up to over any list, `total_used_eq_iff` says when it is the
processing time, and `queueDelay_of_whole` that the delay is then the one that belongs to the end
of the last piece. `cutShort_iff` describes the packets that are cut short.
-/

namespace CarbonSim.Queue

open FirstFit List

/-! ### Accounts -/

/-- The length of an interval, negative when a sum that wrapped has put its end before its start. -/
def span (iv : Interval) : ℤ := iv.2 - iv.1

/-- The time that intervals add up to. -/
def total (l : List Interval) : ℤ := (l.map span).sum

@[simp] theorem total_nil : total [] = 0 := rfl

@[simp] theorem total_cons (iv : Interval) (l : List Interval) :
    total (iv :: l) = span iv + total l := sum_cons

@[simp] theorem total_append (l l' : List Interval) : total (l ++ l') = total l + total l' := by
  simp [total]

/-- A remainder is kept or discarded. -/
theorem total_keep_add_shed (least : ℕ) (iv : Interval) :
    total (keep least iv) + total (shed least iv) = span iv := by
  unfold keep shed
  split <;> simp

/-- The free time from `t` on. -/
def freeAfter (t : ℕ) : List Interval → ℕ
  | [] => 0
  | iv :: rest => iv.2 - start t iv + freeAfter t rest

/-- The loop meets an interval in which the packet starts and which is too short for what is left
of it. -/
def CutShort (t p : ℕ) : List Interval → Prop
  | [] => False
  | iv :: rest =>
    if Fits t p iv then False
    else if iv.1 ≤ t ∧ t < iv.2 then True
    else if t < iv.1 then CutShort iv.2 (p - (iv.2 - iv.1)) rest
    else CutShort t p rest

section CutShort

variable {t p : ℕ} {iv : Interval} (rest : List Interval)

theorem not_cutShort_of_fits (h : Fits t p iv) : ¬CutShort t p (iv :: rest) := by
  rw [CutShort, if_pos h]
  exact id

theorem cutShort_of_lt (h : iv.2 < start t iv + p) (hin : iv.1 ≤ t) (hbefore : t < iv.2) :
    CutShort t p (iv :: rest) := by
  rw [CutShort, if_neg (show ¬Fits t p iv from Nat.not_le.mpr h), if_pos ⟨hin, hbefore⟩]
  trivial

theorem cutShort_take (h : iv.2 < start t iv + p) (hbefore : t < iv.1) :
    CutShort t p (iv :: rest) = CutShort iv.2 (p - (iv.2 - iv.1)) rest := by
  rw [CutShort, if_neg (show ¬Fits t p iv from Nat.not_le.mpr h), if_neg (by omega), if_pos hbefore]

theorem cutShort_pass (h : iv.2 < start t iv + p) (hiv : iv.1 ≤ iv.2) (hafter : iv.2 ≤ t) :
    CutShort t p (iv :: rest) = CutShort t p rest := by
  rw [CutShort, if_neg (show ¬Fits t p iv from Nat.not_le.mpr h), if_neg (by omega),
    if_neg (by omega)]

/-- A packet that starts before every interval is never cut short. -/
theorem not_cutShort_of_lt {l : List Interval} (hapart : l.Pairwise fun a b ↦ a.2 < b.1)
    (hfirst : ∀ iv ∈ l, t < iv.1) : ¬CutShort t p l := by
  induction l generalizing t p with
  | nil => exact id
  | cons iv rest ih =>
    obtain ⟨hafter, hapart⟩ := pairwise_cons.mp hapart
    have hbefore := hfirst iv mem_cons_self
    by_cases hfits : Fits t p iv
    · exact not_cutShort_of_fits rest hfits
    · rw [cutShort_take rest (Nat.lt_of_not_le hfits) hbefore]
      exact ih hapart hafter

/-- Where there is a gap between any two intervals, a packet is cut short just when it arrives in an
interval that is too short for it. -/
theorem cutShort_iff {l : List Interval} (hapart : l.Pairwise fun a b ↦ a.2 < b.1)
    (hforth : ∀ iv ∈ l, iv.1 ≤ iv.2) :
    CutShort t p l ↔ ∃ iv ∈ l, iv.1 ≤ t ∧ t < iv.2 ∧ iv.2 < t + p := by
  induction l with
  | nil => simp [CutShort]
  | cons iv rest ih =>
    obtain ⟨hafter, hapart⟩ := pairwise_cons.mp hapart
    have hiv := hforth iv mem_cons_self
    have ih := ih hapart fun jv hjv ↦ hforth jv (mem_cons_of_mem _ hjv)
    -- an arrival up to the end of this interval is before all later ones
    have hlater : t ≤ iv.2 → ¬∃ jv ∈ rest, jv.1 ≤ t ∧ t < jv.2 ∧ jv.2 < t + p := by
      rintro hle ⟨jv, hjv, hin, -⟩
      have := hafter jv hjv
      omega
    rw [exists_mem_cons_iff]
    by_cases hfits : Fits t p iv
    · have hroom := hfits
      unfold Fits start at hroom
      simp only [not_cutShort_of_fits rest hfits, hlater (by omega), false_iff, or_false]
      omega
    have hshort : iv.2 < start t iv + p := Nat.lt_of_not_le hfits
    rcases Nat.lt_or_ge t iv.1 with hbefore | hin
    · have hnot : ¬CutShort iv.2 (p - (iv.2 - iv.1)) rest := not_cutShort_of_lt hapart hafter
      simp only [cutShort_take rest hshort hbefore, hnot, hlater (by omega), false_iff, or_false]
      omega
    rcases Nat.lt_or_ge t iv.2 with hcut | hpast
    · rw [start, max_eq_right hin] at hshort
      simp only [cutShort_of_lt rest (Nat.lt_of_not_le hfits) hin hcut, hin, hcut, hshort, true_and,
        true_or]
    · rw [cutShort_pass rest hshort hiv hpast, ih]
      simp only [show ¬t < iv.2 by omega, false_and, and_false, false_or]

end CutShort

instance decidableCutShort : (t p : ℕ) → (l : List Interval) → Decidable (CutShort t p l)
  | _, _, [] => inferInstanceAs (Decidable False)
  | t, p, iv :: rest =>
    have := decidableCutShort iv.2 (p - (iv.2 - iv.1)) rest
    have := decidableCutShort t p rest
    inferInstanceAs (Decidable (ite _ _ _))

/-- The intervals are in order, and the last one is open. -/
structure Ordered (l : List Interval) : Prop where
  apart : l.Pairwise fun a b ↦ a.2 ≤ b.1
  forth : ∀ iv ∈ l, iv.1 ≤ iv.2
  endless : Endless uint64Max l

/-- The loop gives the packet its processing time and the delay of its last piece: the free time
that goes out of the list for it, discarded remainders apart, is the processing time, and the delay
is the end of the last piece less the arrival and the processing time. -/
def Exact (least t p : ℕ) (l : List Interval) (r : Scan) : Prop :=
  total l - total r.intervals - total r.discarded = p ∧ (∀ iv ∈ r.discarded, iv.2 - iv.1 < least) ∧
      ∃ last ∈ r.used.getLast?, (r.queueDelay : ℤ) = last.2 - t - p

section Steps

variable {least t p d : ℕ} {iv : Interval} {rest : List Interval}

/-- The time that goes out of the list is the time in the pieces and in what is discarded. -/
theorem total_scan (least : ℕ) (interleaving : Bool) (t p d : ℕ) (l : List Interval) :
    total l = total (scan least interleaving t p d l).intervals +
      total (scan least interleaving t p d l).used +
      total (scan least interleaving t p d l).discarded := by
  induction l generalizing t p d with
  | nil => rfl
  | cons iv rest ih =>
    unfold scan
    split_ifs with hmid hstart hinter hcut hbefore
    · have hleft := total_keep_add_shed least (iv.1, t)
      have hright := total_keep_add_shed least (add64 t p, iv.2)
      simp only [total_cons, total_append, total_nil, span] at hleft hright ⊢
      omega
    · have hright := total_keep_add_shed least (add64 iv.1 p, iv.2)
      simp only [total_cons, total_append, total_nil, span] at hright ⊢
      omega
    · have hleft := total_keep_add_shed least (iv.1, t)
      have hrest := ih iv.2 (p - (iv.2 - iv.2)) d
      simp only [Scan.erased, total_cons, total_append, span] at hleft hrest ⊢
      omega
    · have hrest := ih iv.2 (p - (iv.2 - iv.1)) (add64 d (iv.1 - t))
      simp only [total_cons, span] at hrest ⊢
      omega
    · have hrest := ih t p d
      simp only [Scan.pass, total_cons, span] at hrest ⊢
      omega
    · have hrest := ih t p d
      simp only [Scan.pass, total_cons, span] at hrest ⊢
      omega

theorem lt_of_mem_shed {jv : Interval} (h : jv ∈ shed least iv) : jv.2 - jv.1 < least := by
  unfold shed at h
  split at h
  next => cases h
  next hshort =>
    rw [mem_singleton.mp h]
    exact Nat.lt_of_not_le hshort

/-- Only remainders that are too short are discarded. -/
theorem lt_of_mem_discarded (least : ℕ) (interleaving : Bool) (t p d : ℕ) (l : List Interval) :
    ∀ jv ∈ (scan least interleaving t p d l).discarded, jv.2 - jv.1 < least := by
  induction l generalizing t p d with
  | nil => simp [scan]
  | cons iv rest ih =>
    intro jv hjv
    unfold scan at hjv
    split_ifs at hjv with hmid hstart hinter hcut hbefore
    · exact (mem_append.mp hjv).elim lt_of_mem_shed lt_of_mem_shed
    · exact lt_of_mem_shed hjv
    · exact (mem_append.mp hjv).elim lt_of_mem_shed (ih _ _ _ jv)
    · exact ih _ _ _ jv hjv
    · exact ih t p d jv hjv
    · exact ih t p d jv hjv

/-- What the loop puts back of the time before the packet when it erases an interval. -/
def before (least t : ℕ) (iv : Interval) : List Interval :=
  if iv.1 ≤ t then keep least (iv.1, t) else []

/-- What the loop does with an interval: it serves the packet in it, or it takes the rest of it, or
it takes all of it, or it moves past it. -/
inductive Treats (least t p d : ℕ) (iv : Interval) (rest : List Interval) (r : Scan) : Prop
  | serves (hfits : add64 (start t iv) p ≤ iv.2)
      (hlist : r.intervals = before least t iv ++ (keep least (add64 (start t iv) p, iv.2) ++ rest))
      (hused : r.used = [(start t iv, add64 (start t iv) p)])
      (hdelay : r.queueDelay = add64 d (start t iv - t))
  | cuts (hfits : iv.2 < add64 (start t iv) p) (hin : iv.1 ≤ t) (hbefore : t < iv.2)
      (hlist : r.intervals = before least t iv ++ (scan least true iv.2 p d rest).intervals)
      (hused : r.used = (t, iv.2) :: (scan least true iv.2 p d rest).used)
  | takes (hfits : iv.2 < add64 (start t iv) p) (hbefore : t < iv.1)
      (hlist : r.intervals =
        (scan least true iv.2 (p - (iv.2 - iv.1)) (add64 d (iv.1 - t)) rest).intervals)
      (hused : r.used =
        iv :: (scan least true iv.2 (p - (iv.2 - iv.1)) (add64 d (iv.1 - t)) rest).used)
      (hdelay : r.queueDelay =
        (scan least true iv.2 (p - (iv.2 - iv.1)) (add64 d (iv.1 - t)) rest).queueDelay)
  | passes (hfits : iv.2 < add64 (start t iv) p) (hafter : iv.2 ≤ t)
      (hlist : r.intervals = iv :: (scan least true t p d rest).intervals)
      (hused : r.used = (scan least true t p d rest).used)
      (hdelay : r.queueDelay = (scan least true t p d rest).queueDelay)

theorem treats (least t p : ℕ) (hd : d ≤ uint64Max) (iv : Interval) (rest : List Interval) :
    Treats least t p d iv rest (scan least true t p d (iv :: rest)) := by
  rw [scan]
  rcases Nat.lt_or_ge t iv.1 with hbefore | hin
  · have hstart : start t iv = iv.1 := max_eq_left hbefore.le
    have hnone : before least t iv = [] := if_neg (Nat.not_le.mpr hbefore)
    rw [if_neg (by omega)]
    by_cases hfits : add64 iv.1 p ≤ iv.2
    · rw [if_pos ⟨hbefore, hfits⟩]
      apply Treats.serves
      · rw [hstart]
        exact hfits
      · rw [hnone, hstart]
        rfl
      · rw [hstart]
      · rw [hstart]
    · rw [if_neg (by omega), if_pos rfl, if_neg (by omega), if_pos hbefore]
      have hlt : iv.2 < add64 (start t iv) p := by
        rw [hstart]
        exact Nat.lt_of_not_le hfits
      exact .takes hlt hbefore rfl rfl rfl
  · have hstart : start t iv = t := max_eq_right hin
    have hleft : before least t iv = keep least (iv.1, t) := if_pos hin
    by_cases hfits : add64 t p ≤ iv.2
    · have hzero : add64 d 0 = d := add64_of_le hd
      rw [if_pos ⟨hin, hfits⟩]
      apply Treats.serves
      · rw [hstart]
        exact hfits
      · rw [hleft, hstart]
      · rw [hstart]
      · rw [hstart, Nat.sub_self, hzero]
    · rw [if_neg (by omega), if_neg (by omega), if_pos rfl]
      have hlt : iv.2 < add64 (start t iv) p := by
        rw [hstart]
        exact Nat.lt_of_not_le hfits
      by_cases hcut : t < iv.2
      · rw [if_pos ⟨hin, hcut⟩]
        simp only [Nat.sub_self, Nat.sub_zero]
        apply Treats.cuts hlt hin hcut _ rfl
        rw [hleft]
        rfl
      · rw [if_neg (by omega), if_neg (by omega)]
        exact .passes hlt (by omega) rfl rfl rfl

end Steps

/-! ### The time that is used -/

theorem add64_le (a b : ℕ) : add64 a b ≤ uint64Max :=
  Nat.le_sub_one_of_lt (Nat.mod_lt _ (by decide))

theorem lt_add_of_lt_add64 {a b c : ℕ} (h : c < add64 a b) : c < a + b :=
  h.trans_le (Nat.mod_le _ _)

/-- A sum of two times wraps at most once. -/
theorem add64_cases {a b : ℕ} (ha : a ≤ uint64Max) (hb : b ≤ uint64Max) :
    a + b ≤ uint64Max ∧ add64 a b = a + b ∨
      uint64Max < a + b ∧ add64 a b + (uint64Max + 1) = a + b := by
  unfold add64
  unfold uint64Max at *
  omega

section Accounts

variable {least t p d : ℕ} {iv : Interval} {l rest : List Interval}

theorem Ordered.head_le (hl : Ordered (iv :: rest)) : iv.2 ≤ uint64Max := by
  have hlast := hl.endless.mem
  rcases mem_cons.mp hlast with heq | hmem
  · rw [← heq]
  · have hapart := (pairwise_cons.mp hl.apart).1 _ hmem
    have hforth := hl.forth _ hlast
    exact hapart.trans hforth

/-- An interval in which the packet is not served is not the last one. -/
theorem Ordered.later (hl : Ordered (iv :: rest)) {a b : ℕ} (hlt : iv.2 < add64 a b) :
    Ordered rest := by
  have hmax := add64_le a b
  constructor
  · exact (pairwise_cons.mp hl.apart).2
  · exact fun jv hjv ↦ hl.forth jv (mem_cons_of_mem _ hjv)
  · cases rest with
    | nil =>
      have hend : iv.2 = uint64Max := by simpa [Endless] using hl.endless
      omega
    | cons jv rest => exact hl.endless.tail (by simp)

/-- Up to the first interval there is no free time. -/
theorem freeAfter_eq {x : ℕ} (htx : t ≤ x) (hx : ∀ jv ∈ rest, x ≤ jv.1) :
    freeAfter t rest = freeAfter x rest := by
  induction rest with
  | nil => rfl
  | cons jv rest ih =>
    have hfirst := hx jv mem_cons_self
    have hstart : start t jv = start x jv := by
      unfold start
      omega
    rw [freeAfter, freeAfter, hstart, ih fun kv hkv ↦ hx kv (mem_cons_of_mem _ hkv)]

/-- The free time from `t` on is no more than the time from `t` on. -/
theorem freeAfter_le {bound : ℕ} (hapart : l.Pairwise fun a b ↦ a.2 ≤ b.1)
    (hforth : ∀ jv ∈ l, jv.1 ≤ jv.2) (hbound : ∀ jv ∈ l, jv.2 ≤ bound) :
    freeAfter t l ≤ bound - t := by
  induction l generalizing t with
  | nil => exact Nat.zero_le _
  | cons jv rest ih =>
    obtain ⟨hfirst, hapart⟩ := pairwise_cons.mp hapart
    have hjv := hbound jv mem_cons_self
    have hrest : ∀ x, freeAfter x rest ≤ bound - x := fun x ↦ ih hapart
      (fun kv hkv ↦ hforth kv (mem_cons_of_mem _ hkv))
      fun kv hkv ↦ hbound kv (mem_cons_of_mem _ hkv)
    rw [freeAfter, start]
    rcases Nat.le_total t jv.2 with hle | hle
    · rw [freeAfter_eq hle hfirst]
      have := hrest jv.2
      omega
    · have := hrest t
      omega

theorem Ordered.freeAfter_le_start (hl : Ordered (iv :: rest)) :
    freeAfter t (iv :: rest) ≤ uint64Max - start t iv := by
  obtain ⟨hfirst, hapart⟩ := pairwise_cons.mp hl.apart
  have hiv := hl.forth iv mem_cons_self
  have hend : ∀ jv ∈ iv :: rest, jv.2 ≤ uint64Max := by
    intro jv hjv
    obtain ⟨front, back, hsplit⟩ := append_of_mem hjv
    rw [hsplit] at hl
    have hback : Ordered (jv :: back) := ⟨(pairwise_append.mp hl.apart).2.1,
        fun kv hkv ↦ hl.forth kv (mem_append_right _ hkv),
        by simpa [Endless, getLast?_append, getLast?_cons] using hl.endless⟩
    exact hback.head_le
  have hle : freeAfter (start t iv) (iv :: rest) ≤ uint64Max - start t iv :=
    freeAfter_le hl.apart hl.forth hend
  have heq : freeAfter t (iv :: rest) = freeAfter (start t iv) (iv :: rest) := by
    rcases Nat.le_total iv.1 t with hin | hout
    · rw [start, max_eq_right hin]
    · rw [start, max_eq_left hout]
      apply freeAfter_eq hout
      intro jv hjv
      rcases mem_cons.mp hjv with rfl | hjv
      · exact le_rfl
      · exact hiv.trans (hfirst jv hjv)
  rw [heq]
  exact hle

/-- What the pieces add up to: the processing time and some time more, which falls short of `2 ^ 64`
where the sum in the last piece has wrapped. -/
theorem total_used (least : ℕ) (hl : Ordered l) (ht : t ≤ uint64Max) (hp : p ≤ uint64Max)
    (hd : d ≤ uint64Max) :
    ∃ more : ℕ, more + t ≤ uint64Max ∧ (total (scan least true t p d l).used = p + more ∨
        total (scan least true t p d l).used + (uint64Max + 1) = p + more) := by
  induction l generalizing t p d with
  | nil => exact absurd rfl hl.endless.ne_nil
  | cons iv rest ih =>
    have hiv := hl.forth iv mem_cons_self
    have hend := hl.head_le
    cases treats least t p hd iv rest with
    | serves hfits _ hused _ =>
      have hstart : start t iv ≤ uint64Max := max_le (hiv.trans hend) ht
      refine ⟨0, by omega, ?_⟩
      simp only [hused, total_cons, total_nil, span]
      rcases add64_cases hstart hp with ⟨_, hsum⟩ | ⟨_, hsum⟩
      · left
        omega
      · right
        omega
    | cuts hfits hin hbefore _ hused =>
      obtain ⟨more, hmore, hrest⟩ := ih (hl.later hfits) hend hp hd
      refine ⟨more + (iv.2 - t), by omega, ?_⟩
      simp only [hused, total_cons, span]
      rcases hrest with hrest | hrest
      · left
        omega
      · right
        omega
    | takes hfits hbefore _ hused _ =>
      have hlong := lt_add_of_lt_add64 hfits
      rw [start, max_eq_left hbefore.le] at hlong
      have hless : p - (iv.2 - iv.1) ≤ uint64Max := by omega
      obtain ⟨more, hmore, hrest⟩ := ih (hl.later hfits) hend hless (add64_le d (iv.1 - t))
      refine ⟨more, by omega, ?_⟩
      rw [hused, total_cons, span]
      rcases hrest with hrest | hrest
      · left
        omega
      · right
        omega
    | passes hfits _ _ hused _ =>
      rw [hused]
      exact ih (hl.later hfits) ht hp hd

/-- The pieces add up to the processing time just when there is that much free time and the packet
is not cut short. -/
theorem total_used_eq_iff (least : ℕ) (hl : Ordered l) (ht : t ≤ uint64Max) (hp : p ≤ uint64Max)
    (hd : d ≤ uint64Max) :
    total (scan least true t p d l).used = p ↔ p ≤ freeAfter t l ∧ ¬CutShort t p l := by
  induction l generalizing t p d with
  | nil => exact absurd rfl hl.endless.ne_nil
  | cons iv rest ih =>
    have hiv := hl.forth iv mem_cons_self
    have hend := hl.head_le
    have hfirst := (pairwise_cons.mp hl.apart).1
    cases treats least t p hd iv rest with
    | serves hfits _ hused _ =>
      have hstart : start t iv ≤ uint64Max := max_le (hiv.trans hend) ht
      simp only [hused, total_cons, total_nil, span]
      rcases add64_cases hstart hp with ⟨_, hsum⟩ | ⟨hwrap, hsum⟩
      · have hroom : Fits t p iv := hsum.symm.trans_le hfits
        have hfree : p ≤ freeAfter t (iv :: rest) := by
          unfold Fits at hroom
          rw [freeAfter]
          omega
        constructor
        · exact fun _ ↦ ⟨hfree, not_cutShort_of_fits rest hroom⟩
        · intro _
          omega
      · have hfree := hl.freeAfter_le_start (t := t)
        constructor
        · intro htotal
          omega
        · rintro ⟨hle, -⟩
          omega
    | cuts hfits hin hbefore _ hused =>
      have hshort := lt_add_of_lt_add64 hfits
      have hcut : CutShort t p (iv :: rest) := cutShort_of_lt rest hshort hin hbefore
      -- the pieces after this one already add up to the processing time, or wrap
      obtain ⟨more, hmore, hrest⟩ := total_used least (hl.later hfits) hend hp hd
      simp only [hused, total_cons, span]
      constructor
      · intro htotal
        omega
      · rintro ⟨-, hnot⟩
        exact absurd hcut hnot
    | takes hfits hbefore _ hused _ =>
      have hshort := lt_add_of_lt_add64 hfits
      have hlong := hshort
      rw [start, max_eq_left hbefore.le] at hlong
      have hrest := ih (hl.later hfits) (t := iv.2) (p := p - (iv.2 - iv.1)) hend (by omega)
        (add64_le d (iv.1 - t))
      have hfree : freeAfter t rest = freeAfter iv.2 rest := freeAfter_eq (by omega) hfirst
      rw [cutShort_take rest hshort hbefore, freeAfter, hfree, hused, total_cons, span, start,
        max_eq_left hbefore.le]
      constructor
      · intro htotal
        have := hrest.mp (by omega)
        exact ⟨by omega, this.2⟩
      · rintro ⟨hle, hnot⟩
        have := hrest.mpr ⟨by omega, hnot⟩
        omega
    | passes hfits hafter _ hused _ =>
      have hshort := lt_add_of_lt_add64 hfits
      have hstart : start t iv = t := max_eq_right (hiv.trans hafter)
      rw [cutShort_pass rest hshort hiv hafter, freeAfter, hstart, Nat.sub_eq_zero_of_le hafter,
        Nat.zero_add, hused]
      exact ih (hl.later hfits) ht hp hd

/-- The delay of a packet that is not cut short belongs to the end of its last piece. -/
theorem queueDelay_of_whole (least : ℕ) (hl : Ordered l) (ht : t ≤ uint64Max) (hp : p ≤ uint64Max)
    (hd : d ≤ t) (hfree : p ≤ freeAfter t l) (hnot : ¬CutShort t p l) :
    ∃ last ∈ (scan least true t p d l).used.getLast?,
      ((scan least true t p d l).queueDelay : ℤ) = d + last.2 - t - p := by
  induction l generalizing t p d with
  | nil => exact absurd rfl hl.endless.ne_nil
  | cons iv rest ih =>
    have hiv := hl.forth iv mem_cons_self
    have hend := hl.head_le
    have hfirst := (pairwise_cons.mp hl.apart).1
    cases treats least t p (hd.trans ht) iv rest with
    | serves hfits _ hused hdelay =>
      have hle := hl.freeAfter_le_start (t := t)
      have hstart : start t iv ≤ uint64Max := max_le (hiv.trans hend) ht
      have hafter : t ≤ start t iv := le_max_right _ _
      have hsum : add64 (start t iv) p = start t iv + p := add64_of_le (by omega)
      have hwait : add64 d (start t iv - t) = d + (start t iv - t) := add64_of_le (by omega)
      refine ⟨(start t iv, start t iv + p), by rw [hused, hsum]; rfl, ?_⟩
      rw [hdelay, hwait]
      omega
    | cuts hfits hin hbefore _ _ =>
      have hshort := lt_add_of_lt_add64 hfits
      exact absurd (cutShort_of_lt rest hshort hin hbefore) hnot
    | takes hfits hbefore _ hused hdelay =>
      have hshort := lt_add_of_lt_add64 hfits
      have hlong := hshort
      rw [start, max_eq_left hbefore.le] at hlong
      rw [cutShort_take rest hshort hbefore] at hnot
      rw [freeAfter, freeAfter_eq (show t ≤ iv.2 by omega) hfirst, start,
        max_eq_left hbefore.le] at hfree
      have hwait : add64 d (iv.1 - t) = d + (iv.1 - t) := add64_of_le (by omega)
      obtain ⟨last, hlast, hrest⟩ := ih (hl.later hfits) (p := p - (iv.2 - iv.1))
        (d := add64 d (iv.1 - t)) hend (by omega) (by omega) (by omega) hnot
      refine ⟨last, ?_, ?_⟩
      · rw [hused, getLast?_cons, hlast]
        rfl
      · rw [hdelay, hrest, hwait]
        omega
    | passes hfits hafter _ hused hdelay =>
      have hshort := lt_add_of_lt_add64 hfits
      have hstart : start t iv = t := max_eq_right (hiv.trans hafter)
      rw [cutShort_pass rest hshort hiv hafter] at hnot
      rw [freeAfter, hstart, Nat.sub_eq_zero_of_le hafter, Nat.zero_add] at hfree
      rw [hused, hdelay]
      exact ih (hl.later hfits) ht hp hd hfree hnot

/-- A packet is given exactly its processing time, with the delay of its last piece, just when the
free time is enough and the packet is not cut short. -/
theorem Ordered.exact_iff (least : ℕ) (hl : Ordered l) (ht : t ≤ uint64Max) (hp : p ≤ uint64Max) :
    Exact least t p l (scan least true t p 0 l) ↔ p ≤ freeAfter t l ∧ ¬CutShort t p l := by
  have haccount := total_scan least true t p 0 l
  have hiff := total_used_eq_iff least hl ht hp (Nat.zero_le uint64Max)
  constructor
  · rintro ⟨htotal, -⟩
    exact hiff.mp (by omega)
  · intro hwhole
    have htotal := hiff.mpr hwhole
    obtain ⟨last, hlast, hdelay⟩ :=
      queueDelay_of_whole least hl ht hp (Nat.zero_le t) hwhole.1 hwhole.2
    exact ⟨by omega, lt_of_mem_discarded least true t p 0 l, last, hlast, by omega⟩

end Accounts

end CarbonSim.Queue
