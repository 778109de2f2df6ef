import CarbonSim.Directory.SharerSet

/-!
# Histories of a directory entry

`History` collects what the directory controllers do with one entry: they add tiles that are not
sharers, remove sharers, and with `limited_broadcast` they take the answer of every tile to a
broadcast. Four of the schemes encode the sharers (`sharers_refined`). `limited_broadcast` counts the
answers that are missing (`Awaits`).
-/

namespace CarbonSim.Directory

open Finset

/-- The calls on an entry, the sharers that they leave, and the tiles that have answered the
broadcast under way, if all tiles are to answer one. -/
inductive History (scheme : Scheme) (hw : ℕ) {N : ℕ} :
    Sharers → Finset (Fin N) → Option (Finset (Fin N)) → Prop
  | create : History scheme hw (.create scheme hw N) ∅ none
  | add {x x' : Sharers} {S : Finset (Fin N)} {t : Fin N} {added : Bool}
      (h : History scheme hw x S none) (ht : t ∉ S)
      (hcall : x.addSharer (t : ℕ) = .ok (added, x')) :
      History scheme hw x' (if added then insert t S else S) none
  | remove {x x' : Sharers} {S : Finset (Fin N)} {t : Fin N} {answered : Option (Finset (Fin N))}
      (h : History scheme hw x S answered) (ht : t ∈ S)
      (hcall : x.removeSharer (t : ℕ) false = .ok x') : History scheme hw x' (S.erase t) answered
  | broadcast {l : Limited} {n : ℕ} {k : ℤ} {S : Finset (Fin N)}
      (h : History scheme hw (.limitedBroadcast l n true k) S none) :
      History scheme hw (.limitedBroadcast l n true k) S (some ∅)
  | answer {x x' : Sharers} {S tiles : Finset (Fin N)} {t : Fin N}
      (h : History scheme hw x S (some tiles)) (ht : t ∉ tiles)
      (hcall : x.removeSharer (t : ℕ) true = .ok x') :
      History scheme hw x' (S.erase t)
        (if insert t tiles = univ then none else some (insert t tiles))

variable {scheme : Scheme} {hw N : ℕ} {x : Sharers} {S : Finset (Fin N)} {t : Fin N}
  {answered : Option (Finset (Fin N))}

/-! ### The schemes that encode the sharers -/

theorem History.encodes (h : History scheme hw x S answered) (hscheme : scheme ≠ .limitedBroadcast)
    (hN : scheme ≠ .fullMap → N ≤ 2 ^ 15) : Encodes True x S ∧ answered = none := by
  induction h with
  | create => exact ⟨.create hscheme fun _ ↦ hN, rfl⟩
  | @add _ _ _ _ added _ ht hcall ih =>
    have hadded := (ih.1.addSharer ht).of_eq_ok hcall
    refine ⟨?_, rfl⟩
    cases added with
    | true => exact hadded.encodes rfl
    | false =>
      obtain ⟨rfl, -⟩ := hadded.refused rfl
      exact ih.1
  | remove _ ht hcall ih => exact ⟨((ih.1.removeSharer ht).of_eq_ok hcall).1, ih.2⟩
  | broadcast _ ih => exact ih.1.elim
  | answer _ _ _ ih => cases ih.2

theorem Encodes.hasSharer (h : Encodes True x S) (hmode : x.inBroadcastMode = false) (t : Fin N) :
    x.hasSharer (t : ℕ) = .ok (decide (t ∈ S)) := by
  match x, h with
  | .fullMap b, h => exact h.1.at? t
  | .limitedNoBroadcast l, h => exact congrArg Except.ok ((h.2.2 trivial).hasSharer t)
  | .ackwise l g u, h =>
    exact congrArg Except.ok ((lists_of_not_global (h.2.2 trivial) h.2.1 hmode).hasSharer t)
  | .limitless l m none, h => exact congrArg Except.ok ((h.2.2.2 trivial).hasSharer t)
  | .limitless l m (some b), h => exact (h.2.2.2 trivial).at? t

/-- Every history of a `full_map`, `limited_no_broadcast`, `ackwise` or `limitless` entry keeps the
number of sharers, and the list names each of them unless the entry is in broadcast mode, which only
`ackwise` ever is. No call fails, and only `limited_no_broadcast` refuses a tile. -/
theorem sharers_refined (hN : N ≤ 2 ^ 15) (hscheme : scheme ≠ .limitedBroadcast)
    (h : History scheme hw x S answered) :
    x.getNumSharers = S.card ∧
    (∃ flag list, x.getSharersList = .ok (flag, list) ∧ list.Nodup ∧
      (∀ z ∈ list, ∃ t ∈ S, z = (t : ℕ)) ∧
      (x.inBroadcastMode = false → ∀ t ∈ S, ((t : ℕ) : ℤ) ∈ list)) ∧
    (x.inBroadcastMode = false → ∀ t : Fin N, x.hasSharer (t : ℕ) = .ok (decide (t ∈ S))) ∧
    (x.inBroadcastMode = true → ∃ l g u, x = .ackwise l g u) ∧
    (∀ t ∉ S, ∃ added x', x.addSharer (t : ℕ) = .ok (added, x') ∧
      (added = false → x' = x ∧ ∃ l, x = .limitedNoBroadcast l)) ∧
    ∀ t ∈ S, ∃ x', x.removeSharer (t : ℕ) false = .ok x' := by
  have henc := (h.encodes hscheme fun _ ↦ hN).1
  obtain ⟨⟨flag, list⟩, hlist, hpost⟩ := henc.getSharersList.exists_ok fun _ ↦ not_not_intro trivial
  refine ⟨henc.getNumSharers, ⟨flag, list, hlist, hpost.nodup trivial, hpost.sound trivial,
    hpost.complete trivial⟩, henc.hasSharer, fun hmode ↦ ?_, fun t ht ↦ ?_, fun t ht ↦ ?_⟩
  · match x, henc with
    | .fullMap _, _ | .limitedNoBroadcast _, _ | .limitless _ _ _, _ => cases hmode
    | .ackwise l g u, _ => exact ⟨l, g, u, rfl⟩
  · obtain ⟨⟨added, x'⟩, hadd, hadded⟩ :=
      (henc.addSharer ht).exists_ok fun _ ↦ not_not_intro trivial
    exact ⟨added, x', hadd, fun hno ↦ ⟨(hadded.refused hno).1, (hadded.refused hno).2.1⟩⟩
  · obtain ⟨x', hremove, -⟩ := (henc.removeSharer ht).exists_ok fun _ ↦ not_not_intro trivial
    exact ⟨x', hremove⟩

theorem History.added {x' : Sharers} (h : History scheme hw x S none) (t : Fin N) (ht : t ∉ S)
    (hcall : x.addSharer (t : ℕ) = .ok (true, x')) : History scheme hw x' (insert t S) none := by
  simpa using h.add ht hcall

/-- Two tiles share a line of an `ackwise` entry with one slot; the tracked one leaves. -/
theorem sharers_refined_overflow : ∃ x, History .ackwise 1 x ({1} : Finset (Fin 2)) none ∧
    x.inBroadcastMode = true ∧ x.getNumSharers = 1 := by
  have hfull : History .ackwise 1 (.ackwise ⟨[0], 1⟩ false 0) ({0} : Finset (Fin 2)) none :=
    History.create.added 0 (by decide) (by rw [Fin.val_zero]; rfl)
  have htwo : History .ackwise 1 (.ackwise ⟨[0], 1⟩ true 1) ({1, 0} : Finset (Fin 2)) none :=
    hfull.added 1 (by decide) (by rw [Fin.val_one]; rfl)
  have hone : History .ackwise 1 (.ackwise ⟨[-1], 0⟩ true 1) ({1} : Finset (Fin 2)) none :=
    htwo.remove (t := 0) (by decide) (by rw [Fin.val_zero]; rfl)
  exact ⟨_, hone, rfl, (sharers_refined (by decide) (by decide) hone).1⟩

/-! ### Counting the answers -/

/-- The list of a `limited_broadcast` entry names sharers, and all of them until it overflows. From
then on the entry counts the answers that are missing: all of them until the broadcast, and then
those of the tiles that have not answered, which include the sharers. -/
structure Awaits (l : Limited) (g : Bool) (k : ℤ) (S : Finset (Fin N))
    (answered : Option (Finset (Fin N))) : Prop where
  lists : ∃ T ⊆ S, l.Lists T ∧ (g = false → T = S)
  some_tile : g = true → 0 < N
  before : answered = none → k = if g then (N : ℤ) else 0
  during : ∀ tiles, answered = some tiles →
    g = true ∧ k = N - tiles.card ∧ tiles ≠ univ ∧ Disjoint S tiles

section Awaits

variable {l l' : Limited} {g : Bool} {k : ℤ}

theorem Awaits.addSharer (h : Awaits l g k S none) (ht : t ∉ S) :
    Outcome ((Sharers.limitedBroadcast l N g k).addSharer (t : ℕ))
      (fun r ↦ ∃ l' g' k', r = (true, .limitedBroadcast l' N g' k') ∧
        Awaits l' g' k' (insert t S) none) fun _ ↦ False := by
  obtain ⟨T, hT, hlist, hall⟩ := h.lists
  dsimp only [Sharers.addSharer]
  split_ifs with hg
  · refine ⟨l, g, k, rfl, ⟨T, hT.trans (subset_insert t S), hlist, ?_⟩, h.some_tile, h.before,
      by simp⟩
    exact fun hno ↦ absurd (hg.symm.trans hno) (by decide)
  · obtain rfl := hall (by simpa using hg)
    refine .bind_mono (Limited.addSharer_outcome hlist.tidy (fun _ : True ↦ hlist) ht)
      (by simp) fun r hr ↦ ?_
    obtain ⟨added, l'⟩ := r
    cases added with
    | true =>
      exact ⟨l', g, k, rfl, ⟨_, subset_rfl, (hr.1 rfl).2 trivial, fun _ ↦ rfl⟩, h.some_tile, h.before,
        by simp⟩
    | false =>
      obtain ⟨⟨rfl, -, hfull⟩, -⟩ := hr.2 rfl
      refine .require_bind (fun _ ↦ ?_) fun hnot ↦ hnot ⟨?_, ?_⟩
      · exact ⟨l', true, N, rfl, ⟨T, subset_insert t T, hlist, by simp⟩, fun _ ↦ t.pos,
          by simp, by simp⟩
      · simpa [hg] using h.before rfl
      · rw [← hfull, hlist.length_tracked]
        exact hlist.count

/-- The list after the removal of a tile, which need not be a sharer in broadcast mode. -/
theorem Awaits.removeListed (h : Awaits l g k S answered) (ht : g = true ∨ t ∈ S) :
    ∃ l', (if g && !l.hasSharer (t : ℕ) then .ok l else l.removeSharer (t : ℕ)) = .ok l' ∧
      ∃ T ⊆ S.erase t, l'.Lists T ∧ (g = false → T = S.erase t) := by
  obtain ⟨T, hT, hlist, hall⟩ := h.lists
  by_cases htT : t ∈ T
  · obtain ⟨l', hl', hlist'⟩ := hlist.removeSharer htT
    simp only [hlist.hasSharer t, htT, decide_true, Bool.not_true, Bool.and_false,
      Bool.false_eq_true, if_false, hl']
    exact ⟨l', rfl, _, erase_subset_erase t hT, hlist', fun hg ↦ by rw [hall hg]⟩
  · have hg : g = true := by
      rcases ht with hg | hS
      · exact hg
      · by_contra hg
        exact htT (hall (by simpa using hg) ▸ hS)
    simp only [hlist.hasSharer t, htT, decide_false, hg, Bool.not_false, Bool.and_self, if_true]
    exact ⟨l, rfl, T, fun u hu ↦ mem_erase.mpr ⟨fun heq ↦ htT (heq ▸ hu), hT hu⟩, hlist,
      by simp⟩

theorem removeSharer_of_listed {n : ℕ} {z : ℤ} (reply : Bool)
    (h : (if g && !l.hasSharer z then .ok l else l.removeSharer z) = .ok l') :
    (Sharers.limitedBroadcast l n g k).removeSharer z reply = if reply then do
        require (g = true) .replyExpected
        if k - 1 = 0 then
          require (l'.numTracked = 0) .trackedCount
          return .limitedBroadcast l' n false 0
        else return .limitedBroadcast l' n true (k - 1)
      else .ok (.limitedBroadcast l' n g k) := by
  dsimp only [Sharers.removeSharer]
  by_cases hlisted : (g && !l.hasSharer z) = true
  · rw [if_pos hlisted] at h
    obtain rfl := Except.ok.inj h
    rw [if_pos hlisted]
    cases reply <;> rfl
  · rw [if_neg hlisted] at h
    rw [if_neg hlisted, h]
    cases reply <;> rfl

theorem Awaits.removeSharer (h : Awaits l g k S answered) (ht : t ∈ S) :
    ∃ l', (Sharers.limitedBroadcast l N g k).removeSharer (t : ℕ) false
      = .ok (.limitedBroadcast l' N g k) ∧ Awaits l' g k (S.erase t) answered := by
  obtain ⟨l', hl', hlists⟩ := h.removeListed (.inr ht)
  refine ⟨l', removeSharer_of_listed false hl', hlists, h.some_tile, h.before, ?_⟩
  intro tiles htiles
  obtain ⟨hg, hk, hne, hdisjoint⟩ := h.during tiles htiles
  exact ⟨hg, hk, hne, hdisjoint.mono_left (erase_subset t S)⟩

/-- The count reaches zero, and the broadcast mode ends, with the answer of the last tile. -/
theorem Awaits.answer {tiles : Finset (Fin N)} (h : Awaits l g k S (some tiles)) (ht : t ∉ tiles) :
    Outcome ((Sharers.limitedBroadcast l N g k).removeSharer (t : ℕ) true)
      (fun x' ↦ ∃ l' g' k', x' = .limitedBroadcast l' N g' k' ∧ Awaits l' g' k' (S.erase t)
        (if insert t tiles = univ then none else some (insert t tiles)))
      fun _ ↦ False := by
  obtain ⟨rfl, hk, -, hdisjoint⟩ := h.during tiles rfl
  have hcard := card_insert_of_notMem ht
  have hrest : Disjoint (S.erase t) (insert t tiles) := by
    rw [disjoint_insert_right]
    exact ⟨notMem_erase t S, hdisjoint.mono_left (erase_subset t S)⟩
  have hzero : k - 1 = 0 ↔ insert t tiles = univ := by
    rw [← card_eq_iff_eq_univ, Fintype.card_fin]
    omega
  obtain ⟨l', hl', T, hT, hlist, -⟩ := h.removeListed (t := t) (.inl rfl)
  rw [removeSharer_of_listed true hl', if_pos rfl]
  refine .require_bind (fun _ ↦ ?_) fun hnot ↦ hnot rfl
  by_cases hlast : insert t tiles = univ
  · rw [if_pos (hzero.mpr hlast), if_pos hlast]
    have hempty : S.erase t = ∅ := by
      rw [hlast, ← top_eq_univ] at hrest
      exact disjoint_top.mp hrest
    rw [hempty, subset_empty] at hT
    refine .require_bind (fun _ ↦ ?_) fun hnot ↦ hnot (by rw [hlist.count, hT]; rfl)
    exact ⟨l', false, 0, rfl, ⟨T, by simp [hT], hlist, fun _ ↦ by rw [hempty, hT]⟩, by simp, by simp,
      by simp⟩
  · rw [if_neg (mt hzero.mp hlast), if_neg hlast]
    refine ⟨l', true, k - 1, rfl, ⟨T, hT, hlist, by simp⟩, fun _ ↦ t.pos, by simp,
      fun others heq ↦ ?_⟩
    obtain rfl := Option.some.inj heq
    exact ⟨rfl, by omega, hlast, hrest⟩

end Awaits

theorem History.awaits (h : History .limitedBroadcast hw x S answered) (hN : N ≤ 2 ^ 15) :
    ∃ l g k, x = .limitedBroadcast l N g k ∧ Awaits l g k S answered := by
  induction h with
  | create =>
    exact ⟨_, _, _, rfl, ⟨∅, subset_rfl, Limited.Lists.create hw hN, fun _ ↦ rfl⟩, by simp, by simp,
      by simp⟩
  | add _ ht hcall ih =>
    obtain ⟨l, g, k, rfl, hawaits⟩ := ih
    obtain ⟨l', g', k', heq, hawaits'⟩ := (hawaits.addSharer ht).of_eq_ok hcall
    obtain ⟨rfl, rfl⟩ := Prod.mk.inj heq
    exact ⟨l', g', k', rfl, hawaits'⟩
  | remove _ ht hcall ih =>
    obtain ⟨l, g, k, rfl, hawaits⟩ := ih
    obtain ⟨l', hl', hawaits'⟩ := hawaits.removeSharer ht
    obtain rfl := Except.ok.inj (hl'.symm.trans hcall)
    exact ⟨l', g, k, rfl, hawaits'⟩
  | @broadcast l n k S _ ih =>
    obtain ⟨_, _, _, heq, hawaits⟩ := ih
    cases heq
    have hk : k = N := by simpa using hawaits.before rfl
    refine ⟨l, true, k, rfl, hawaits.lists, hawaits.some_tile, by simp, fun tiles htiles ↦ ?_⟩
    obtain rfl := Option.some.inj htiles
    have hne : (∅ : Finset (Fin N)) ≠ univ := fun heq ↦
      notMem_empty ⟨0, hawaits.some_tile rfl⟩ (heq ▸ mem_univ _)
    exact ⟨rfl, by simpa using hk, hne, disjoint_empty_right S⟩
  | answer _ ht hcall ih =>
    obtain ⟨l, g, k, rfl, hawaits⟩ := ih
    exact (hawaits.answer ht).of_eq_ok hcall

/-! ### The list of the sharers -/

/-- The flag of the list is the mode of the entry, with one exception. -/
theorem Sharers.getSharersList_flag (hx : ∀ l, x ≠ .limitedNoBroadcast l) :
    Yields x.getSharersList fun r ↦ r.1 = x.inBroadcastMode := by
  match x, hx with
  | .fullMap _, _ | .limitedBroadcast _ _ _ _, _ | .ackwise _ _ _, _ | .limitless _ _ none, _
  | .limitless _ _ (some _), _ => exact .skip fun _ ↦ rfl
  | .limitedNoBroadcast l, hx => exact absurd rfl (hx l)

/-- The caller is told to broadcast just when the entry is in broadcast mode, and otherwise the list
is complete. -/
theorem sharersList_complete (hN : scheme ≠ .fullMap → N ≤ 2 ^ 15)
    (h : History scheme hw x S answered) (hx : ∀ l, x ≠ .limitedNoBroadcast l) :
    ∃ list, x.getSharersList = .ok (x.inBroadcastMode, list) ∧
      (x.inBroadcastMode = false → list.Nodup ∧ ∀ z : ℤ, z ∈ list ↔ ∃ t ∈ S, z = (t : ℕ)) := by
  have hlist : ∃ flag list, x.getSharersList = .ok (flag, list) ∧
      (x.inBroadcastMode = false → list.Nodup ∧ ∀ z : ℤ, z ∈ list ↔ ∃ t ∈ S, z = (t : ℕ)) := by
    by_cases hscheme : scheme = .limitedBroadcast
    · subst hscheme
      obtain ⟨l, g, k, rfl, hawaits⟩ := h.awaits (hN (by decide))
      obtain ⟨T, -, hlist, hall⟩ := hawaits.lists
      refine ⟨g, l.tracked, by simp [Sharers.getSharersList, hlist.sharersList], fun hg ↦ ?_⟩
      obtain rfl := hall hg
      exact ⟨hlist.nodup, hlist.mem⟩
    · obtain ⟨⟨flag, list⟩, hlist, hpost⟩ :=
        (h.encodes hscheme hN).1.getSharersList.exists_ok fun _ ↦ not_not_intro trivial
      refine ⟨flag, list, hlist, fun hmode ↦ ⟨hpost.nodup trivial, fun z ↦ ?_⟩⟩
      refine ⟨hpost.sound trivial z, ?_⟩
      rintro ⟨t, ht, rfl⟩
      exact hpost.complete trivial hmode t ht
  obtain ⟨flag, list, hlist, hcomplete⟩ := hlist
  obtain rfl : flag = _ := (Sharers.getSharersList_flag hx).of_eq_ok hlist
  exact ⟨list, hlist, hcomplete⟩

theorem sharersList_complete_overflow :
    ∃ list, (Sharers.limitedBroadcast ⟨[0], 1⟩ 2 true 2).getSharersList = .ok (true, list) := by
  have hfull : History .limitedBroadcast 1 (.limitedBroadcast ⟨[0], 1⟩ 2 false 0)
      ({0} : Finset (Fin 2)) none := History.create.added 0 (by decide) (by rw [Fin.val_zero]; rfl)
  have htwo : History .limitedBroadcast 1 (.limitedBroadcast ⟨[0], 1⟩ 2 true 2)
      ({1, 0} : Finset (Fin 2)) none := hfull.added 1 (by decide) (by rw [Fin.val_one]; rfl)
  obtain ⟨list, hlist, -⟩ := sharersList_complete (fun _ ↦ by decide) htwo (by simp)
  exact ⟨list, hlist⟩

/-- A `limited_no_broadcast` entry has no broadcast mode, and its list asks for a broadcast. -/
theorem limitedNoBroadcast_asks_broadcast :
    History .limitedNoBroadcast 2 (.limitedNoBroadcast ⟨[0, -1], 1⟩) ({0} : Finset (Fin 3)) none ∧
      (Sharers.limitedNoBroadcast ⟨[0, -1], 1⟩).inBroadcastMode = false ∧
      (Sharers.limitedNoBroadcast ⟨[0, -1], 1⟩).getSharersList = .ok (true, [0]) :=
  ⟨History.create.added 0 (by decide) (by rw [Fin.val_zero]; rfl), rfl, rfl⟩

end CarbonSim.Directory
