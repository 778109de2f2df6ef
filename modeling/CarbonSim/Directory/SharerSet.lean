import CarbonSim.Directory.Sharers
import Mathlib.Data.Int.ModEq
import Mathlib.Tactic.NormNum
import Mathlib.Tactic.Ring

/-!
# Sharer lists refine a set of tiles

`Encodes listed x S` says that the list `x` of a directory entry stands for the set `S` of tiles.
The count of sharers is exact for any number of tiles. That the recorded ids are those of the sharers
is claimed under `listed` only: the slots are of type `SInt16`, so it needs tile ids below `2 ^ 15`.
`Represents` adds room for one sharer in hardware.
-/

namespace CarbonSim.Directory

open List Function

variable {N : ℕ} {S : Finset (Fin N)} {t : Fin N} {listed : Prop} {old new : ℤ} {xs : List ℤ}

/-- A list of the ids of the tiles of a set. -/
theorem length_eq_card (hnodup : xs.Nodup) (hmem : ∀ z, z ∈ xs ↔ ∃ t ∈ S, z = (t : ℕ)) :
    xs.length = S.card := by
  have hS : xs.toFinset = S.image fun t : Fin N ↦ ((t : ℕ) : ℤ) := by
    ext z
    simp only [mem_toFinset, hmem z, Finset.mem_image]
    exact exists_congr fun t ↦ and_congr_right fun _ ↦ eq_comm
  have hinj : Function.Injective fun t : Fin N ↦ ((t : ℕ) : ℤ) := by
    intro t u heq
    exact Fin.ext (Int.ofNat_inj.mp heq)
  rw [← toFinset_card_of_nodup hnodup, hS, Finset.card_image_of_injective _ hinj]

theorem cast_ne_invalidSharer (i : ℕ) : (i : ℤ) ≠ invalidSharer := by
  unfold invalidSharer
  omega

/-! ### Bit vectors -/

/-- The bits are those of a set of tiles. -/
structure BitVector.Tracks (b : BitVector) (S : Finset (Fin N)) : Prop where
  capacity : b.capacity = N
  bits : ∀ t : Fin N, b.bits t = true ↔ t ∈ S

namespace BitVector

variable {b : BitVector} {i : ℕ}

theorem at?_eq (h : i < b.capacity) : b.at? i = .ok (b.bits i) := by
  have : (0 : ℤ) ≤ i ∧ (i : ℤ) < b.capacity := ⟨by omega, by omega⟩
  simp only [at?, require, this, and_self, if_true]
  rfl

theorem set_eq (h : i < b.capacity) (hb : b.bits i = false) :
    b.set i = .ok { b with bits := update b.bits i true, size := b.size + 1 } := by
  unfold set
  rw [at?_eq h, hb]
  rfl

theorem clear_eq (h : i < b.capacity) (hb : b.bits i = true) :
    b.clear i = .ok { b with bits := update b.bits i false, size := b.size - 1 } := by
  unfold clear
  rw [at?_eq h, hb]
  rfl

theorem Tracks.at? (h : b.Tracks S) (t : Fin N) : b.at? t = .ok (decide (t ∈ S)) := by
  rw [at?_eq (by rw [h.capacity]; exact t.isLt)]
  congr 1
  rw [Bool.eq_iff_iff, h.bits t, decide_eq_true_iff]

theorem Tracks.update (h : b.Tracks S) (t : Fin N) (v : Bool) (n : ℕ) :
    Tracks { b with bits := update b.bits t v, size := n }
      (if v then insert t S else S.erase t) where
  capacity := h.capacity
  bits u := by
    by_cases hut : u = t
    · subst hut
      cases v <;> simp
    · have : (u : ℕ) ≠ t := fun heq ↦ hut (Fin.ext heq)
      cases v <;> simp [this, hut, h.bits u]

/-- Setting the bit of a tile that is not in the set, which is known under `p` to be the set. -/
theorem setNew_outcome {p : Prop} (hcap : b.capacity = N) (hsize : b.size = S.card)
    (htr : p → b.Tracks S) (ht : t ∉ S) :
    Outcome (b.setNew (t : ℕ))
      (fun b' ↦ b'.capacity = N ∧ b'.size = (insert t S).card ∧ (p → b'.Tracks (insert t S)))
      fun _ ↦ ¬ p := by
  have hlt : (t : ℕ) < b.capacity := hcap ▸ t.isLt
  unfold setNew
  rw [at?_eq hlt]
  refine .require_bind (fun hbit ↦ ?_) fun hbit hp ↦ ?_
  · rw [set_eq hlt hbit]
    refine ⟨hcap, ?_, fun hp ↦ ?_⟩
    · rw [Finset.card_insert_of_notMem ht, hsize]
    · simpa using (htr hp).update t true (b.size + 1)
  · have := (htr hp).bits t
    simp_all

/-- Clearing the bit of a tile of the set. -/
theorem clearOld_outcome {p : Prop} (hcap : b.capacity = N) (hsize : b.size = S.card)
    (htr : p → b.Tracks S) (ht : t ∈ S) :
    Outcome (b.clearOld (t : ℕ))
      (fun b' ↦ b'.capacity = N ∧ b'.size = (S.erase t).card ∧ (p → b'.Tracks (S.erase t)))
      fun _ ↦ ¬ p := by
  have hlt : (t : ℕ) < b.capacity := hcap ▸ t.isLt
  unfold clearOld
  rw [at?_eq hlt]
  refine .require_bind (fun hbit ↦ ?_) fun hbit hp ↦ ?_
  · rw [clear_eq hlt hbit]
    refine ⟨hcap, ?_, fun hp ↦ ?_⟩
    · rw [Finset.card_erase_of_mem ht, hsize]
    · simpa using (htr hp).update t false (b.size - 1)
  · have := (htr hp).bits t
    simp_all

theorem Tracks.mem_found (h : b.Tracks S) {z : ℤ} : z ∈ b.found ↔ ∃ t ∈ S, z = (t : ℕ) := by
  simp only [found, h.capacity, mem_map, mem_filter, mem_range]
  constructor
  · rintro ⟨i, ⟨hi, hbit⟩, rfl⟩
    exact ⟨⟨i, hi⟩, (h.bits ⟨i, hi⟩).mp hbit, rfl⟩
  · rintro ⟨t, ht, rfl⟩
    exact ⟨t, ⟨t.isLt, (h.bits t).mpr ht⟩, rfl⟩

theorem nodup_found (b : BitVector) : b.found.Nodup := by
  refine .map (fun _ _ h ↦ Nat.cast_injective h) ?_
  exact .filter _ nodup_range

theorem Tracks.length_found (h : b.Tracks S) : b.found.length = S.card :=
  length_eq_card b.nodup_found fun _ ↦ h.mem_found

theorem Tracks.sharersList (h : b.Tracks S) (hsize : b.size = S.card) :
    b.sharersList = .ok b.found := by
  have hlen := h.length_found
  simp only [BitVector.sharersList, require, hlen, hsize, le_refl, if_true, Nat.sub_self,
    replicate_zero, append_nil]
  rfl

end BitVector

/-! ### Limited lists -/

theorem toSInt16_lt (i : ℤ) : toSInt16 i < 2 ^ 15 := by
  have h : i.bmod (2 ^ 16) < ((2 ^ 16 : ℕ) + 1) / 2 := Int.bmod_lt (by norm_num)
  unfold toSInt16
  exact h

theorem toSInt16_eq {i : ℤ} (h0 : 0 ≤ i) (h : i < 2 ^ 15) : toSInt16 i = i := by
  unfold toSInt16
  rw [Int.bmod_eq_of_le] <;> omega

/-- What a replacement in a list does. -/
theorem replaceFirst_eq_some {xs ys : List ℤ} (h : replaceFirst old new xs = some ys) :
    ∃ l r, xs = l ++ old :: r ∧ ys = l ++ new :: r := by
  induction xs generalizing ys with
  | nil => simp [replaceFirst] at h
  | cons x xs ih =>
    unfold replaceFirst at h
    split_ifs at h with hx
    · obtain rfl : new :: xs = ys := by simpa using h
      exact ⟨[], xs, by rw [hx]; rfl, rfl⟩
    · obtain ⟨zs, hzs, rfl⟩ := Option.map_eq_some_iff.mp h
      obtain ⟨l, r, rfl, rfl⟩ := ih hzs
      exact ⟨x :: l, r, rfl, rfl⟩

theorem replaceFirst_ne_nil {xs ys : List ℤ} (h : replaceFirst old new xs = some ys) : ys ≠ [] := by
  obtain ⟨-, -, -, rfl⟩ := replaceFirst_eq_some h
  simp

theorem mem_of_replaceFirst {xs ys : List ℤ} {x : ℤ} (h : replaceFirst old new xs = some ys)
    (hx : x ∈ ys) : x = new ∨ x ∈ xs := by
  obtain ⟨l, r, rfl, rfl⟩ := replaceFirst_eq_some h
  simp only [mem_append, mem_cons] at hx ⊢
  tauto

theorem replaceFirst_eq_none (h : replaceFirst old new xs = none) : old ∉ xs := by
  induction xs with
  | nil => simp
  | cons x xs ih =>
    unfold replaceFirst at h
    split_ifs at h with hx
    have hxs := ih (Option.map_eq_none_iff.mp h)
    simp [Ne.symm hx, hxs]

namespace Limited

variable {l : Limited} {sharers : List ℤ}

/-- The slots in use hold the ids of a set of tiles. -/
structure Lists (l : Limited) (S : Finset (Fin N)) : Prop where
  small : N ≤ 2 ^ 15
  count : l.numTracked = S.card
  nodup : l.tracked.Nodup
  mem : ∀ z, z ∈ l.tracked ↔ ∃ t ∈ S, z = (t : ℕ)

theorem mem_tracked {z : ℤ} : z ∈ l.tracked ↔ z ∈ l.sharers ∧ z ≠ invalidSharer := by
  simp [tracked]

theorem Lists.cast (h : l.Lists S) (t : Fin N) : toSInt16 (t : ℕ) = (t : ℕ) := by
  have h1 := h.small
  exact toSInt16_eq (by omega) (by omega)

theorem Lists.mem_sharers (h : l.Lists S) (t : Fin N) : ((t : ℕ) : ℤ) ∈ l.sharers ↔ t ∈ S := by
  have hne := cast_ne_invalidSharer t
  have hmem := h.mem (t : ℕ)
  rw [mem_tracked] at hmem
  constructor
  · intro ht
    obtain ⟨u, hu, heq⟩ := hmem.mp ⟨ht, hne⟩
    obtain rfl : t = u := Fin.ext (by exact_mod_cast heq)
    exact hu
  · intro ht
    exact (hmem.mpr ⟨t, ht, rfl⟩).1

theorem Lists.hasSharer (h : l.Lists S) (t : Fin N) :
    l.hasSharer (t : ℕ) = decide (t ∈ S) := by
  rw [Bool.eq_iff_iff, decide_eq_true_iff, ← h.mem_sharers t]
  simp [Limited.hasSharer]

theorem tracked_of_append {a b : List ℤ} {x n : ℤ} :
    tracked ⟨a ++ x :: b, n⟩ = tracked ⟨a, n⟩ ++ (tracked ⟨[x], n⟩ ++ tracked ⟨b, n⟩) := by
  by_cases hx : x = invalidSharer <;> simp [tracked, filter_append, hx]

/-- The slots after an addition that succeeds. -/
theorem tracked_perm_of_add {n m x : ℤ} (h : replaceFirst invalidSharer x l.sharers = some sharers)
    (hx : x ≠ invalidSharer) : (tracked ⟨sharers, n⟩).Perm (x :: l.tracked) := by
  obtain ⟨a, b, hl, rfl⟩ := replaceFirst_eq_some h
  have hold : l.tracked = tracked ⟨a, m⟩ ++ tracked ⟨b, m⟩ := by
    simp [tracked, hl, filter_append]
  rw [tracked_of_append, hold]
  have hone : tracked ⟨[x], n⟩ = [x] := by simp [tracked, hx]
  rw [hone]
  exact perm_middle

/-- The slots after a removal. -/
theorem tracked_perm_of_remove {n x : ℤ} (h : replaceFirst x invalidSharer l.sharers = some sharers)
    (hx : x ≠ invalidSharer) : l.tracked.Perm (x :: tracked ⟨sharers, n⟩) := by
  obtain ⟨a, b, hl, rfl⟩ := replaceFirst_eq_some h
  have hold : l.tracked = tracked ⟨a, n⟩ ++ x :: tracked ⟨b, n⟩ := by
    simp [tracked, hl, filter_append, hx]
  have hnew : tracked ⟨a ++ invalidSharer :: b, n⟩ = tracked ⟨a, n⟩ ++ tracked ⟨b, n⟩ := by
    simp [tracked, filter_append]
  rw [hold, hnew]
  exact perm_middle

/-- Adding a tile that is not listed. -/
theorem Lists.addSharer (h : l.Lists S) (ht : t ∉ S) :
    ∃ r, l.addSharer (t : ℕ) = .ok r ∧ (r.1 = true → r.2.Lists (insert t S)) ∧
      (r.1 = false → r.2 = l ∧ (l.sharers ≠ [] → S.Nonempty)) := by
  have hnot : toSInt16 (t : ℕ) ∉ l.sharers := by
    rw [h.cast t, h.mem_sharers t]
    exact ht
  have hne := cast_ne_invalidSharer t
  simp only [Limited.addSharer, require, hnot, not_false_eq_true, if_true]
  cases hr : replaceFirst invalidSharer (toSInt16 (t : ℕ)) l.sharers with
  | some sharers =>
    refine ⟨_, rfl, fun _ ↦ ?_, by simp⟩
    rw [h.cast t] at hr
    have hperm := tracked_perm_of_add (n := l.numTracked + 1) (m := 0) hr hne
    have hfresh : ((t : ℕ) : ℤ) ∉ l.tracked := by
      rw [mem_tracked, h.mem_sharers t]
      exact fun hmem ↦ ht hmem.1
    refine ⟨h.small, ?_, hperm.nodup_iff.mpr (nodup_cons.mpr ⟨hfresh, h.nodup⟩), fun z ↦ ?_⟩
    · rw [Finset.card_insert_of_notMem ht, h.count]
      rfl
    · rw [hperm.mem_iff, mem_cons, h.mem z]
      simp
  | none =>
    refine ⟨_, rfl, by simp, fun _ ↦ ⟨rfl, fun hroom ↦ ?_⟩⟩
    have hfull := replaceFirst_eq_none hr
    obtain ⟨z, hz⟩ := exists_mem_of_ne_nil _ hroom
    have hz' : z ≠ invalidSharer := by
      rintro rfl
      exact hfull hz
    obtain ⟨u, hu, -⟩ := (h.mem z).mp (mem_tracked.mpr ⟨hz, hz'⟩)
    exact ⟨u, hu⟩

/-- Removing a tile that is listed. -/
theorem Lists.removeSharer (h : l.Lists S) (ht : t ∈ S) :
    ∃ l', l.removeSharer (t : ℕ) = .ok l' ∧ l'.Lists (S.erase t) := by
  unfold Limited.removeSharer
  rw [h.cast t]
  cases hr : replaceFirst (t : ℕ) invalidSharer l.sharers with
  | none => exact absurd ((h.mem_sharers t).mpr ht) (replaceFirst_eq_none hr)
  | some sharers =>
    refine ⟨_, rfl, ?_⟩
    have hperm := tracked_perm_of_remove (n := l.numTracked - 1) hr (cast_ne_invalidSharer t)
    have hnodup := nodup_cons.mp (hperm.nodup_iff.mp h.nodup)
    refine ⟨h.small, ?_, hnodup.2, fun z ↦ ?_⟩
    · have hcard := Finset.card_erase_add_one ht
      have := h.count
      simp only
      omega
    · have hz := h.mem z
      rw [hperm.mem_iff, mem_cons] at hz
      constructor
      · intro hmem
        obtain ⟨u, hu, rfl⟩ := hz.mp (.inr hmem)
        refine ⟨u, Finset.mem_erase.mpr ⟨?_, hu⟩, rfl⟩
        rintro rfl
        exact hnodup.1 hmem
      · rintro ⟨u, hu, rfl⟩
        obtain ⟨hut, hu⟩ := Finset.mem_erase.mp hu
        rcases hz.mpr ⟨u, hu, rfl⟩ with heq | hmem
        · exact absurd (Fin.ext (by exact_mod_cast heq)) hut
        · exact hmem

theorem Lists.length_tracked (h : l.Lists S) : l.tracked.length = S.card :=
  length_eq_card h.nodup h.mem

theorem Lists.sharersList (h : l.Lists S) : l.sharersList = .ok l.tracked := by
  simp only [Limited.sharersList, require, h.count, h.length_tracked, if_true]
  rfl

theorem Lists.create (k : ℕ) (hN : N ≤ 2 ^ 15) :
    (Limited.create k).Lists (∅ : Finset (Fin N)) := by
  have htracked : (Limited.create k).tracked = [] := by
    simp [tracked, Limited.create]
  exact ⟨hN, rfl, by simp [htracked], by simp [htracked]⟩

/-- What holds of the slots whatever the number of tiles: no converted id twice. -/
structure Tidy (l : Limited) : Prop where
  nodup : l.tracked.Nodup
  range : ∀ x ∈ l.sharers, x < 2 ^ 15

theorem Tidy.create (k : ℕ) : (Limited.create k).Tidy := by
  refine ⟨by simp [tracked, Limited.create], fun x hx ↦ ?_⟩
  rw [(mem_replicate.mp hx).2]
  norm_num [invalidSharer]

theorem Lists.tidy (h : l.Lists S) : l.Tidy := by
  refine ⟨h.nodup, fun x hx ↦ ?_⟩
  by_cases hinv : x = invalidSharer
  · norm_num [hinv, invalidSharer]
  · obtain ⟨-, -, rfl⟩ := (h.mem x).mp (mem_tracked.mpr ⟨hx, hinv⟩)
    have := h.small
    omega

/-- The count of an addition, whatever the tile. -/
theorem Tidy.addSharer (h : l.Tidy) (z : ℤ) :
    Yields (l.addSharer z)
      (fun r ↦ (r.1 = true → r.2.Tidy ∧ r.2.numTracked = l.numTracked + 1 ∧ r.2.sharers ≠ []) ∧
        (r.1 = false → r.2 = l ∧ toSInt16 z ∉ l.sharers ∧ l.tracked = l.sharers)) := by
  refine .check fun hz ↦ ?_
  cases hr : replaceFirst invalidSharer (toSInt16 z) l.sharers with
  | none =>
    refine ⟨by simp, fun _ ↦ ⟨rfl, hz, ?_⟩⟩
    refine filter_eq_self.mpr fun x hx ↦ ?_
    have hne : x ≠ invalidSharer := by
      rintro rfl
      exact replaceFirst_eq_none hr hx
    simpa using hne
  | some sharers =>
    refine ⟨fun _ ↦ ⟨⟨?_, fun x hx ↦ ?_⟩, rfl, replaceFirst_ne_nil hr⟩, by simp⟩
    · by_cases hinv : toSInt16 z = invalidSharer
      · obtain ⟨a, b, hl, rfl⟩ := replaceFirst_eq_some hr
        have hsame : tracked ⟨a ++ toSInt16 z :: b, l.numTracked + 1⟩ = l.tracked := by
          simp [tracked, hl, hinv]
        rw [hsame]
        exact h.nodup
      · have hperm := tracked_perm_of_add (n := l.numTracked + 1) (m := 0) hr hinv
        rw [hperm.nodup_iff, nodup_cons, mem_tracked]
        exact ⟨fun hmem ↦ hz hmem.1, h.nodup⟩
    · rcases mem_of_replaceFirst hr hx with rfl | hx
      · exact toSInt16_lt z
      · exact h.range x hx

/-- The count of a removal, whatever the tile. -/
theorem Tidy.removeSharer (h : l.Tidy) (z : ℤ) :
    Yields (l.removeSharer z)
      (fun l' ↦ l'.Tidy ∧ l'.numTracked = l.numTracked - 1 ∧ l'.sharers ≠ []) := by
  refine .fetch_bind (fun sharers hr ↦ ⟨⟨?_, fun x hx ↦ ?_⟩, rfl, replaceFirst_ne_nil hr⟩)
    fun _ ↦ trivial
  · obtain ⟨a, b, hl, rfl⟩ := replaceFirst_eq_some hr
    refine .sublist ?_ h.nodup
    simp only [tracked, hl, filter_append]
    refine .append (List.Sublist.refl _) ?_
    have hb : List.filter (fun x ↦ decide (x ≠ invalidSharer)) (invalidSharer :: b)
        = List.filter (fun x ↦ decide (x ≠ invalidSharer)) b := by simp
    exact (sublist_cons_self _ _).filter _
  · rcases mem_of_replaceFirst hr hx with rfl | hx
    · norm_num [invalidSharer]
    · exact h.range x hx

end Limited

/-! ### Migration to software -/

/-- The software list holds what the hardware list held. -/
theorem migrate_outcome {m : ℕ} {b : BitVector} (hb : b.capacity = m)
    (hnodup : (xs.filter fun x ↦ x ≠ invalidSharer).Nodup)
    (hfresh : ∀ i : ℕ, (i : ℤ) ∈ xs → b.bits i = false) :
    Outcome (migrate m xs b) (fun b' ↦ b'.capacity = m ∧
        b'.size = b.size + (xs.filter fun x ↦ x ≠ invalidSharer).length ∧
        ∀ i : ℕ, b'.bits i = true ↔ b.bits i = true ∨ (i : ℤ) ∈ xs)
      fun _ ↦ ∃ x ∈ xs, x ≠ invalidSharer ∧ ¬ (0 ≤ x ∧ x < m) := by
  induction xs generalizing b with
  | nil => simp [migrate, hb]
  | cons x xs ih =>
    unfold migrate
    split_ifs with hx
    · have hcast (i : ℕ) : (i : ℤ) ≠ x := hx ▸ cast_ne_invalidSharer i
      have hnodup' : (xs.filter fun x ↦ x ≠ invalidSharer).Nodup := by simpa [hx] using hnodup
      refine (ih hb hnodup' fun i hi ↦ hfresh i (by simp [hi])).mono ?_ ?_
      · rintro b' ⟨hc, hs, hbits⟩
        exact ⟨hc, by simpa [hx] using hs, fun i ↦ by simpa [hcast i] using hbits i⟩
      · rintro e ⟨y, hy, hy'⟩
        exact ⟨y, by simp [hy], hy'⟩
    · obtain ⟨hxs, hnodup'⟩ : x ∉ xs.filter (fun x ↦ x ≠ invalidSharer) ∧
          (xs.filter fun x ↦ x ≠ invalidSharer).Nodup := by
        simpa [hx] using hnodup
      refine .require_bind (fun hrange ↦ ?_) fun hrange ↦ ⟨x, by simp, hx, hrange⟩
      obtain ⟨i, rfl⟩ := Int.eq_ofNat_of_zero_le hrange.1
      have hset := BitVector.set_eq (b := b) (i := i) (by omega) (hfresh i (by simp))
      rw [hset]
      refine (ih (b := { b with bits := update b.bits i true, size := b.size + 1 }) hb
        hnodup' fun j hj ↦ ?_).mono ?_ ?_
      · by_cases hji : j = i
        · subst hji
          exact absurd (mem_filter.mpr ⟨hj, by simpa using hx⟩) hxs
        · simpa [hji] using hfresh j (by simp [hj])
      · rintro b' ⟨hc, hs, hbits⟩
        refine ⟨hc, ?_, fun j ↦ ?_⟩
        · simp [hx, hs]
          omega
        · rw [hbits j]
          by_cases hji : j = i
          · subst hji
            simp
          · simp [hji]
      · rintro e ⟨y, hy, hy'⟩
        exact ⟨y, by simp [hy], hy'⟩

/-! ### The schemes -/

/-- The list of an entry stands for a set of tiles. The `limited_broadcast` scheme counts replies
instead of sharers and is not covered. -/
def Encodes (listed : Prop) : Sharers → Finset (Fin N) → Prop
  | .fullMap b, S => b.Tracks S ∧ b.size = S.card
  | .limitedNoBroadcast l, S => l.Tidy ∧ l.numTracked = S.card ∧ (listed → l.Lists S)
  | .limitedBroadcast _ _ _ _, _ => False
  | .ackwise l g u, S => l.Tidy ∧ l.numTracked + u = S.card ∧
      (listed → 0 ≤ u ∧ g = decide (u ≠ 0) ∧ ∃ T ⊆ S, l.Lists T)
  | .limitless l m none, S => m = N ∧ l.Tidy ∧ l.numTracked = S.card ∧ (listed → l.Lists S)
  | .limitless _ m (some b), S => m = N ∧ b.capacity = N ∧ b.size = S.card ∧ (listed → b.Tracks S)

/-- The entry has a slot for a tile, or a software list. -/
def Roomy : Sharers → Prop
  | .fullMap _ | .limitless _ _ _ => True
  | .limitedNoBroadcast l | .limitedBroadcast l _ _ _ | .ackwise l _ _ => l.sharers ≠ []

/-- The list stands for the set, and there is room for one tile at least. -/
def Represents (listed : Prop) (x : Sharers) (S : Finset (Fin N)) : Prop :=
  Encodes listed x S ∧ (listed → Roomy x)

/-- The list names the tile. -/
def Tracked (listed : Prop) (x : Sharers) (t : Fin N) : Prop :=
  listed → x.hasSharer (t : ℕ) = .ok true

theorem Encodes.getNumSharers {x : Sharers} (h : Encodes listed x S) :
    x.getNumSharers = S.card := by
  match x, h with
  | .fullMap _, h => exact congrArg Nat.cast h.2
  | .limitedNoBroadcast _, h | .ackwise _ _ _, h => exact h.2.1
  | .limitless _ _ none, h => exact h.2.2.1
  | .limitless _ _ (some _), h => exact congrArg Nat.cast h.2.2.1

theorem Encodes.create {scheme : Scheme} {hw : ℕ} (hscheme : scheme ≠ .limitedBroadcast)
    (hl : listed → scheme ≠ .fullMap → N ≤ 2 ^ 15) :
    Encodes listed (Sharers.create scheme hw N) (∅ : Finset (Fin N)) := by
  have hlists (hs : scheme ≠ .fullMap) (h : listed) :
      (Limited.create hw).Lists (∅ : Finset (Fin N)) := Limited.Lists.create hw (hl h hs)
  cases scheme with
  | fullMap => exact ⟨⟨rfl, by simp [BitVector.create]⟩, rfl⟩
  | limitedNoBroadcast => exact ⟨.create hw, rfl, hlists (by simp)⟩
  | limitedBroadcast => exact absurd rfl hscheme
  | ackwise =>
    exact ⟨.create hw, rfl, fun h ↦ ⟨le_refl 0, rfl, ∅, le_refl _, hlists (by simp) h⟩⟩
  | limitless => exact ⟨rfl, .create hw, rfl, hlists (by simp)⟩

theorem Represents.create {scheme : Scheme} {hw : ℕ} (hscheme : scheme ≠ .limitedBroadcast)
    (hl : listed → scheme ≠ .fullMap → N ≤ 2 ^ 15 ∧ (scheme ≠ .limitless → 0 < hw)) :
    Represents listed (Sharers.create scheme hw N) (∅ : Finset (Fin N)) := by
  refine ⟨.create hscheme fun h hs ↦ (hl h hs).1, fun h ↦ ?_⟩
  have hslots (hs : scheme ≠ .fullMap) (hs' : scheme ≠ .limitless) :
      (Limited.create hw).sharers ≠ [] := mt (replicate_eq_nil_iff _).mp ((hl h hs).2 hs').ne'
  cases scheme with
  | fullMap | limitless => trivial
  | limitedNoBroadcast | limitedBroadcast | ackwise => exact hslots (by simp) (by simp)

section Operations

variable {x : Sharers} {T : Finset (Fin N)}

/-- What an attempt to add a tile does: it is added, or there is no free slot and nothing changes. -/
structure Added (listed : Prop) (x : Sharers) (S : Finset (Fin N)) (t : Fin N) (r : Bool × Sharers) :
    Prop where
  encodes : r.1 = true → Encodes listed r.2 (insert t S)
  roomy : Roomy x → Roomy r.2
  tracked : r.1 = true → Roomy x → S = ∅ → Tracked listed r.2 t
  refused : r.1 = false →
    r.2 = x ∧ (∃ l, x = .limitedNoBroadcast l) ∧ (listed → Roomy x → S.Nonempty)

/-- The same where there is room. -/
def AddPost (listed : Prop) (x : Sharers) (S : Finset (Fin N)) (t : Fin N)
    (r : Bool × Sharers) : Prop :=
  (r.1 = true → Represents listed r.2 (insert t S) ∧ (S = ∅ → Tracked listed r.2 t)) ∧
    (r.1 = false → r.2 = x ∧ x.inBroadcastMode = false ∧ (listed → S.Nonempty))

/-- Adding a tile to a limited list, with the tiles listed or only counted. -/
theorem Limited.addSharer_outcome {l : Limited} (htidy : l.Tidy) (hlists : listed → l.Lists T)
    (ht : t ∉ T) :
    Outcome (l.addSharer (t : ℕ)) (fun r ↦
        (r.1 = true → (r.2.Tidy ∧ r.2.numTracked = l.numTracked + 1 ∧ r.2.sharers ≠ []) ∧
          (listed → r.2.Lists (insert t T))) ∧
        (r.1 = false → (r.2 = l ∧ toSInt16 (t : ℕ) ∉ l.sharers ∧ l.tracked = l.sharers) ∧
          (listed → l.sharers ≠ [] → T.Nonempty)))
      fun _ ↦ ¬ listed := by
  have hcount := htidy.addSharer (t : ℕ)
  by_cases hl : listed
  · obtain ⟨r, hr, hadd, hfull⟩ := (hlists hl).addSharer ht
    rw [hr] at hcount ⊢
    exact ⟨fun h ↦ ⟨hcount.1 h, fun _ ↦ hadd h⟩, fun h ↦ ⟨hcount.2 h, fun _ ↦ (hfull h).2⟩⟩
  · refine .mono hcount (fun r h ↦ ⟨fun h1 ↦ ?_, fun h1 ↦ ?_⟩) fun _ _ ↦ hl
    · exact ⟨h.1 h1, fun h' ↦ absurd h' hl⟩
    · exact ⟨h.2 h1, fun h' ↦ absurd h' hl⟩

/-- Removing a tile from a limited list. -/
theorem Limited.removeSharer_outcome {l : Limited} (htidy : l.Tidy)
    (hlists : listed → l.Lists T ∧ t ∈ T) :
    Outcome (l.removeSharer (t : ℕ))
      (fun l' ↦ (l'.Tidy ∧ l'.numTracked = l.numTracked - 1 ∧ l'.sharers ≠ []) ∧
        (listed → l'.Lists (T.erase t)))
      fun _ ↦ ¬ listed := by
  have hcount := htidy.removeSharer (t : ℕ)
  by_cases hl : listed
  · obtain ⟨l', hl', hlist⟩ := (hlists hl).1.removeSharer (hlists hl).2
    rw [hl'] at hcount ⊢
    exact ⟨hcount, fun _ ↦ hlist⟩
  · exact .mono hcount (fun l' h ↦ ⟨h, fun h' ↦ absurd h' hl⟩) fun _ _ ↦ hl

theorem Limited.Lists.hasSharer_insert {l : Limited} (h : l.Lists (insert t T)) :
    l.hasSharer (t : ℕ) = true := by
  simp [h.hasSharer t]

theorem BitVector.Tracks.at?_insert {b : BitVector} (h : b.Tracks (insert t S)) :
    b.at? (t : ℕ) = .ok true := by
  simp [h.at? t]

/-- An `ackwise` list that is not in broadcast mode names every sharer. -/
theorem lists_of_not_global {l : Limited} {g : Bool} {u : ℤ}
    (h : 0 ≤ u ∧ g = decide (u ≠ 0) ∧ ∃ T ⊆ S, l.Lists T) (hn : l.numTracked + u = S.card)
    (hg : g = false) : l.Lists S := by
  obtain ⟨-, hgu, T, hT, hlist⟩ := h
  have hu0 : u = 0 := by simpa [hg] using hgu
  have hcount := hlist.count
  have hTS : T = S := Finset.eq_of_subset_of_card_le hT (by omega)
  rwa [hTS] at hlist

/-- The hardware list of `limitless` is full: its tiles and the new one move to software. -/
theorem migrate_addSharer {l : Limited} (htidy : l.Tidy) (hn : l.numTracked = S.card)
    (hlists : listed → l.Lists S) (ht : t ∉ S) (hfresh : toSInt16 (t : ℕ) ∉ l.sharers) :
    Outcome (do
        let bits ← migrate N l.sharers (BitVector.create N)
        let bits ← bits.set (t : ℕ)
        require (l.numTracked = l.tracked.length) Fault.migration
        return (true, Sharers.limitless ⟨l.sharers.map fun _ ↦ invalidSharer, 0⟩ N (some bits)))
      (Added listed (.limitless l N none) S t) fun _ ↦ ¬ listed := by
  have hnot : ((t : ℕ) : ℤ) ∉ l.sharers := by
    intro hmem
    have hlt := htidy.range _ hmem
    rw [toSInt16_eq (by omega) hlt] at hfresh
    exact hfresh hmem
  have hmig := migrate_outcome (m := N) (b := BitVector.create N) rfl htidy.nodup fun _ _ ↦ rfl
  refine .bind_mono hmig ?_ ?_
  · rintro e ⟨x, hx, hinv, hrange⟩ hl
    obtain ⟨u, -, rfl⟩ := ((hlists hl).mem x).mp (Limited.mem_tracked.mpr ⟨hx, hinv⟩)
    exact hrange ⟨by omega, by have := u.isLt; omega⟩
  · rintro b ⟨hcap, hsize, hbits⟩
    have hbit : b.bits t = false := by
      rw [← Bool.not_eq_true, hbits t]
      simpa [BitVector.create] using hnot
    have hset := BitVector.set_eq (b := b) (by rw [hcap]; exact t.isLt) hbit
    rw [hset]
    refine .require_bind (fun hlen ↦ ?_) fun hlen hl ↦ ?_
    · have hb (hl : listed) : b.Tracks S := by
        refine ⟨hcap, fun u ↦ ?_⟩
        rw [hbits u, (hlists hl).mem_sharers u]
        simp [BitVector.create]
      have htr (hl : listed) := (hb hl).update t true (b.size + 1)
      refine ⟨fun _ ↦ ⟨rfl, hcap, ?_, fun hl ↦ by simpa using htr hl⟩,
        fun _ ↦ trivial, fun _ _ _ hl ↦ ?_, by simp⟩
      · have hsize' : b.size = l.tracked.length := by
          rw [hsize]
          simp [BitVector.create, Limited.tracked]
        rw [Finset.card_insert_of_notMem ht]
        simp only
        omega
      · exact BitVector.Tracks.at?_insert (S := S) (by simpa using htr hl)
    · rw [(hlists hl).length_tracked] at hlen
      exact hlen hn

/-- Adding a tile that is not in the set. -/
theorem Encodes.addSharer (h : Encodes listed x S) (ht : t ∉ S) :
    Outcome (x.addSharer (t : ℕ)) (Added listed x S t) fun _ ↦ ¬ listed := by
  have hcard : (((insert t S).card : ℕ) : ℤ) = S.card + 1 := by
    rw [Finset.card_insert_of_notMem ht]
    rfl
  match x, h with
  | .fullMap b, h =>
    refine .bind_mono (BitVector.setNew_outcome (p := True) h.1.capacity h.2
      (fun _ ↦ h.1) ht) (by simp) fun b' h' ↦ ?_
    exact ⟨fun _ ↦ ⟨h'.2.2 trivial, h'.2.1⟩, id, fun _ _ _ _ ↦ (h'.2.2 trivial).at?_insert, by simp⟩
  | .limitedNoBroadcast l, ⟨htidy, hn, hlists⟩ =>
    refine .bind (Limited.addSharer_outcome htidy hlists ht) fun r hr ↦ ?_
    obtain ⟨added, l'⟩ := r
    cases added with
    | true =>
      obtain ⟨⟨htidy', hn', hroomy⟩, hl'⟩ := hr.1 rfl
      exact ⟨fun _ ↦ ⟨htidy', by rw [hn', hn, hcard], hl'⟩, fun _ ↦ hroomy,
        fun _ _ _ hl ↦ congrArg Except.ok (hl' hl).hasSharer_insert, by simp⟩
    | false =>
      obtain ⟨⟨rfl, -⟩, hne⟩ := hr.2 rfl
      exact ⟨by simp, id, by simp, fun _ ↦ ⟨rfl, ⟨_, rfl⟩, hne⟩⟩
  | .ackwise l g u, ⟨htidy, hn, hlists⟩ =>
    dsimp only [Sharers.addSharer]
    split_ifs with hg
    · -- broadcast mode: the tile is only counted
      refine ⟨fun _ ↦ ⟨htidy, by rw [hcard, ← hn]; ring, fun hl ↦ ?_⟩, id, fun _ _ hS hl ↦ ?_, by simp⟩
      · obtain ⟨hu, hgu, T, hT, hlist⟩ := hlists hl
        refine ⟨by omega, ?_, T, hT.trans (Finset.subset_insert t S), hlist⟩
        have : u + 1 ≠ 0 := by omega
        simp [hg, this]
      · obtain ⟨hu, hgu, T, hT, hlist⟩ := hlists hl
        have := hlist.count
        simp only [hS, Finset.card_empty] at hn
        have hu0 : u = 0 := by omega
        simp [hg, hu0] at hgu
    · have hall (hl : listed) : l.Lists S := lists_of_not_global (hlists hl) hn (by simpa using hg)
      refine .bind (Limited.addSharer_outcome htidy hall ht) fun r hr ↦ ?_
      obtain ⟨added, l'⟩ := r
      cases added with
      | true =>
        obtain ⟨⟨htidy', hn', hroomy⟩, hl'⟩ := hr.1 rfl
        refine ⟨fun _ ↦ ⟨htidy', by rw [hn', hcard, ← hn]; ring, fun hl ↦ ?_⟩, fun _ ↦ hroomy,
          fun _ _ _ hl ↦ congrArg Except.ok (hl' hl).hasSharer_insert, by simp⟩
        exact ⟨(hlists hl).1, (hlists hl).2.1, _, le_refl _, hl' hl⟩
      | false =>
        obtain ⟨⟨rfl, -, hfull⟩, hne⟩ := hr.2 rfl
        refine .require_bind (fun hu ↦ ?_) fun hu hl ↦ hu ⟨?_, ?_⟩
        · refine ⟨fun _ ↦ ⟨htidy, by rw [hcard, ← hn, hu.1]; ring, fun hl ↦ ?_⟩, id,
            fun _ hroomy hS hl ↦ absurd hS (hne hl hroomy).ne_empty, by simp⟩
          exact ⟨by norm_num, by norm_num, S, Finset.subset_insert t S, hall hl⟩
        · simpa [hg] using (hlists hl).2.1
        · rw [← hfull, (hall hl).length_tracked]
          exact (hall hl).count
  | .limitless l m none, ⟨hm, htidy, hn, hlists⟩ =>
    subst hm
    refine .bind (Limited.addSharer_outcome htidy hlists ht) fun r hr ↦ ?_
    obtain ⟨added, l'⟩ := r
    cases added with
    | true =>
      obtain ⟨⟨htidy', hn', -⟩, hl'⟩ := hr.1 rfl
      exact ⟨fun _ ↦ ⟨rfl, htidy', by rw [hn', hn, hcard], hl'⟩, fun _ ↦ trivial,
        fun _ _ _ hl ↦ congrArg Except.ok (hl' hl).hasSharer_insert, by simp⟩
    | false =>
      obtain ⟨⟨rfl, hfresh, -⟩, -⟩ := hr.2 rfl
      exact migrate_addSharer htidy hn hlists ht hfresh
  | .limitless l m (some b), ⟨hm, hcap, hsize, htr⟩ =>
    subst hm
    refine .bind (BitVector.setNew_outcome hcap hsize htr ht) fun b' h' ↦ ?_
    exact ⟨fun _ ↦ ⟨rfl, h'.1, h'.2.1, h'.2.2⟩, id, fun _ _ _ hl ↦ (h'.2.2 hl).at?_insert, by simp⟩

theorem Represents.addSharer (h : Represents listed x S) (ht : t ∉ S) :
    Outcome (x.addSharer (t : ℕ)) (AddPost listed x S t) fun _ ↦ ¬ listed := by
  refine (h.1.addSharer ht).imp fun r hr ↦ ⟨fun h1 ↦ ⟨⟨hr.encodes h1, fun hl ↦ ?_⟩, ?_⟩, ?_⟩
  · exact hr.roomy (h.2 hl)
  · exact fun hS hl ↦ hr.tracked h1 (h.2 hl) hS hl
  · intro h1
    obtain ⟨hx, ⟨l, rfl⟩, hne⟩ := hr.refused h1
    exact ⟨hx, rfl, fun hl ↦ hne hl (h.2 hl)⟩

/-- Removing a tile of the set. -/
theorem Encodes.removeSharer (h : Encodes listed x S) (ht : t ∈ S) :
    Outcome (x.removeSharer (t : ℕ) false)
      (fun x' ↦ Encodes listed x' (S.erase t) ∧ (Roomy x → Roomy x')) fun _ ↦ ¬ listed := by
  have hcard := Finset.card_erase_add_one ht
  match x, h with
  | .fullMap b, h =>
    refine .require_bind (fun _ ↦ ?_) (by simp)
    refine .bind_mono (BitVector.clearOld_outcome (p := True) h.1.capacity h.2
      (fun _ ↦ h.1) ht) (by simp) fun b' h' ↦ ?_
    exact ⟨⟨h'.2.2 trivial, h'.2.1⟩, id⟩
  | .limitedNoBroadcast l, ⟨htidy, hn, hlists⟩ =>
    refine .require_bind (fun _ ↦ ?_) (by simp)
    refine .bind (Limited.removeSharer_outcome htidy fun hl ↦ ⟨hlists hl, ht⟩) fun l' h' ↦ ?_
    exact ⟨⟨h'.1.1, by rw [h'.1.2.1]; omega, h'.2⟩, fun _ ↦ h'.1.2.2⟩
  | .ackwise l g u, ⟨htidy, hn, hlists⟩ =>
    refine .require_bind (fun _ ↦ ?_) (by simp)
    split_ifs with hg hhas
    · refine .require_bind (fun hu ↦ ?_) fun hu hl ↦ ?_
      · refine .bind (m := fun l' ↦ (l'.Tidy ∧ l'.numTracked = l.numTracked - 1 ∧ l'.sharers ≠ []) ∧
            (listed → ∃ T ⊆ S.erase t, l'.Lists T)) ?_ fun l' h' ↦ ?_
        · by_cases hl : listed
          · obtain ⟨-, -, T, hT, hlist⟩ := hlists hl
            have htT : t ∈ T := by simpa [hlist.hasSharer t] using hhas
            refine (Limited.removeSharer_outcome htidy fun _ : listed ↦ ⟨hlist, htT⟩).imp
              (fun l' h' ↦ ⟨h'.1, fun hl ↦ ?_⟩)
            exact ⟨_, Finset.erase_subset_erase t hT, h'.2 hl⟩
          · exact .mono (htidy.removeSharer (t : ℕ))
              (fun l' h' ↦ ⟨h', fun h ↦ absurd h hl⟩) fun _ _ ↦ hl
        · exact ⟨⟨h'.1.1, by rw [h'.1.2.1]; omega,
            fun hl ↦ ⟨(hlists hl).1, (hlists hl).2.1, h'.2 hl⟩⟩, fun _ ↦ h'.1.2.2⟩
      · obtain ⟨h0, hgu, -⟩ := hlists hl
        simp only [hg, true_eq_decide_iff] at hgu
        omega
    · refine .require_bind (fun hu ↦ ?_) fun hu hl ↦ ?_
      · -- the tile is not named, so it is one of those counted only
        refine ⟨⟨htidy, by omega, fun hl ↦ ⟨by omega, by simp, ?_⟩⟩, id⟩
        obtain ⟨-, -, T, hT, hlist⟩ := hlists hl
        refine ⟨T, fun v hv ↦ Finset.mem_erase.mpr ⟨?_, hT hv⟩, hlist⟩
        rintro rfl
        simp [hlist.hasSharer v, hv] at hhas
      · obtain ⟨h0, hgu, -⟩ := hlists hl
        simp only [hg, true_eq_decide_iff] at hgu
        omega
    · have hall (hl : listed) : l.Lists S := lists_of_not_global (hlists hl) hn (by simpa using hg)
      refine .bind (Limited.removeSharer_outcome htidy fun hl ↦ ⟨hall hl, ht⟩) fun l' h' ↦ ?_
      exact ⟨⟨h'.1.1, by rw [h'.1.2.1]; omega,
        fun hl ↦ ⟨(hlists hl).1, (hlists hl).2.1, _, le_refl _, h'.2 hl⟩⟩, fun _ ↦ h'.1.2.2⟩
  | .limitless l m none, ⟨hm, htidy, hn, hlists⟩ =>
    refine .require_bind (fun _ ↦ ?_) (by simp)
    refine .bind (Limited.removeSharer_outcome htidy fun hl ↦ ⟨hlists hl, ht⟩) fun l' h' ↦ ?_
    exact ⟨⟨hm, h'.1.1, by rw [h'.1.2.1]; omega, h'.2⟩, fun _ ↦ trivial⟩
  | .limitless l m (some b), ⟨hm, hcap, hsize, htr⟩ =>
    refine .require_bind (fun _ ↦ ?_) (by simp)
    refine .bind (BitVector.clearOld_outcome hcap hsize htr ht) fun b' h' ↦ ?_
    exact ⟨⟨hm, h'.1, h'.2.1, h'.2.2⟩, id⟩

theorem Represents.removeSharer (h : Represents listed x S) (ht : t ∈ S) :
    Outcome (x.removeSharer (t : ℕ) false) (fun x' ↦ Represents listed x' (S.erase t))
      fun _ ↦ ¬ listed :=
  (h.1.removeSharer ht).imp fun _ hx' ↦ ⟨hx'.1, fun hl ↦ hx'.2 (h.2 hl)⟩

/-- What the list of sharers says: it names sharers only, and all of them unless some are only
counted, in which case the caller is told to broadcast. -/
structure ListPost (listed : Prop) (x : Sharers) (S : Finset (Fin N)) (r : Bool × List ℤ) :
    Prop where
  all : r.1 = false → x.inBroadcastMode = false
  sound : listed → ∀ z ∈ r.2, ∃ t ∈ S, z = (t : ℕ)
  complete : listed → x.inBroadcastMode = false → ∀ t ∈ S, ((t : ℕ) : ℤ) ∈ r.2
  nodup : listed → r.2.Nodup

/-- A list that names exactly the sharers. -/
theorem ListPost.exact {r : Bool × List ℤ} (hall : r.1 = false → x.inBroadcastMode = false)
    (hlist : listed → r.2.Nodup ∧ ∀ z : ℤ, z ∈ r.2 ↔ ∃ t ∈ S, z = (t : ℕ)) : ListPost listed x S r :=
  ⟨hall, fun hl z ↦ ((hlist hl).2 z).mp, fun hl _ t ht ↦ ((hlist hl).2 _).mpr ⟨t, ht, rfl⟩,
    fun hl ↦ (hlist hl).1⟩

theorem Limited.sharersList_outcome {l : Limited} (hlists : listed → l.Lists T) :
    Outcome l.sharersList
      (fun list ↦ listed → list.Nodup ∧ ∀ z : ℤ, z ∈ list ↔ ∃ t ∈ T, z = (t : ℕ))
      fun _ ↦ ¬ listed := by
  refine .provided fun hl ↦ ?_
  rw [(hlists hl).sharersList]
  exact ⟨(hlists hl).nodup, (hlists hl).mem⟩

theorem BitVector.sharersList_outcome {b : BitVector} (hsize : b.size = S.card)
    (htr : listed → b.Tracks S) :
    Outcome b.sharersList
      (fun list ↦ listed → list.Nodup ∧ ∀ z : ℤ, z ∈ list ↔ ∃ t ∈ S, z = (t : ℕ))
      fun _ ↦ ¬ listed := by
  refine .provided fun hl ↦ ?_
  rw [(htr hl).sharersList hsize]
  exact ⟨b.nodup_found, fun _ ↦ (htr hl).mem_found⟩

theorem Encodes.getSharersList (h : Encodes listed x S) :
    Outcome x.getSharersList (ListPost listed x S) fun _ ↦ ¬ listed := by
  match x, h with
  | .fullMap b, h =>
    exact .bind (BitVector.sharersList_outcome h.2 fun _ ↦ h.1) fun list hlist ↦
      .exact (fun _ ↦ rfl) hlist
  | .limitedNoBroadcast l, ⟨_, _, hlists⟩ =>
    exact .bind (Limited.sharersList_outcome hlists) fun list hlist ↦ .exact (by simp) hlist
  | .ackwise l g u, ⟨_, hn, hlists⟩ =>
    by_cases hg : g = true
    · have hex : ∃ T : Finset (Fin N), listed → T ⊆ S ∧ l.Lists T := by
        by_cases hl : listed
        · obtain ⟨-, -, T, hT, hlist⟩ := hlists hl
          exact ⟨T, fun _ ↦ ⟨hT, hlist⟩⟩
        · exact ⟨∅, fun h ↦ absurd h hl⟩
      obtain ⟨T, hT⟩ := hex
      refine .bind (Limited.sharersList_outcome fun hl ↦ (hT hl).2) fun list hlist ↦
        ⟨fun h ↦ h, fun hl z hz ↦ ?_, ?_, fun hl ↦ (hlist hl).1⟩
      · obtain ⟨t, ht, rfl⟩ := ((hlist hl).2 z).mp hz
        exact ⟨t, (hT hl).1 ht, rfl⟩
      · intro _ hb
        simp [Sharers.inBroadcastMode, hg] at hb
    · have hall (hl : listed) : l.Lists S := lists_of_not_global (hlists hl) hn (by simpa using hg)
      exact .bind (Limited.sharersList_outcome hall) fun list hlist ↦ .exact id hlist
  | .limitless l m none, ⟨_, _, _, hlists⟩ =>
    exact .bind (Limited.sharersList_outcome hlists) fun list hlist ↦ .exact (fun _ ↦ rfl) hlist
  | .limitless l m (some b), ⟨_, _, hsize, htr⟩ =>
    exact .bind (BitVector.sharersList_outcome hsize htr) fun list hlist ↦
      .exact (fun _ ↦ rfl) hlist

/-- A sharer chosen from a list that names all of them. -/
theorem Encodes.oneSharer (h : Encodes listed x S) {index : ℕ → ℕ}
    (hindex : ∀ n, 0 < n → index n < n) (hmode : x.inBroadcastMode = false)
    (hS : listed → S.Nonempty) :
    Outcome (x.oneSharer index) (fun z ↦ listed → ∃ t ∈ S, z = (t : ℕ)) fun _ ↦ ¬ listed := by
  refine .bind h.getSharersList fun r hr ↦ ?_
  obtain ⟨all, list⟩ := r
  cases list with
  | nil =>
    have hno : ¬ listed := fun hl ↦ by
      obtain ⟨t, ht⟩ := hS hl
      simpa using hr.complete hl hmode t ht
    cases x <;> first | exact hno | exact fun hl ↦ absurd hl hno
  | cons z zs =>
    have hlt : index (z :: zs).length < (z :: zs).length := hindex _ (by simp)
    have hget : (z :: zs)[index (z :: zs).length]? = some (z :: zs)[index (z :: zs).length] :=
      getElem?_eq_getElem hlt
    have hfetch : Outcome (fetch (z :: zs)[index (z :: zs).length]? Fault.noSharer)
        (fun z ↦ listed → ∃ t ∈ S, z = (t : ℕ)) fun _ ↦ ¬ listed := by
      rw [hget]
      exact fun hl ↦ hr.sound hl _ (getElem_mem hlt)
    cases x <;> exact hfetch

end Operations

end CarbonSim.Directory
