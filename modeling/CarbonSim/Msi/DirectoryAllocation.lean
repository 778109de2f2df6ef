import CarbonSim.Msi.DirectoryAnswers

/-!
# The directory allocates an entry

A request for a line without an entry takes a free way of its set, or replaces the entry of a line
without a request. If there are at least as many ways as tiles such a line exists: each of the other
lines of the set would be waited for by a tile of its own, and the requester waits for none of them.
-/

namespace CarbonSim.Msi

open Function List Directory
open Relation (ReflTransGen)

variable {A : Type} [DecidableEq A] {N : ℕ} {cfg : Config A N} {allowed : Fin N → A → L1Kind → Prop}
  {listed : Prop} {ph : A → Phase} {s : Sys A N} {mem : A → Block} {g t : Fin N}
  {d d' : Dir A N} {a v : A} {L L' : Line N Block}
  {req : ShmemReq A N} {rest : List (ShmemReq A N)} {e e' : Entry} {env : Env A}
  {cache : DirectoryCache A} {kind : ReqKind} {nullify : ShmemReq A N}

/-! ### The candidate -/

namespace Dir

variable {count : A → ℕ} {candidates : List (A × Entry)} {best : Option (A × Entry)}

omit [DecidableEq A] in
theorem mem_of_foldl_betterCandidate {x : A × Entry}
    (h : candidates.foldl (betterCandidate count) best = some x) :
    best = some x ∨ x ∈ candidates ∧ count x.1 = 0 := by
  induction candidates generalizing best with
  | nil => exact .inl h
  | cons y ys ih =>
    rcases ih h with hy | ⟨hmem, hcount⟩
    · unfold betterCandidate at hy
      split_ifs at hy with hcond
      · obtain rfl := Option.some.inj hy
        exact .inr ⟨mem_cons_self, hcond.2⟩
      · exact .inl hy
    · exact .inr ⟨mem_cons_of_mem _ hmem, hcount⟩

omit [DecidableEq A] in
theorem busy_of_foldl_betterCandidate (h : candidates.foldl (betterCandidate count) best = none) :
    best = none ∧ ∀ x ∈ candidates, count x.1 ≠ 0 := by
  induction candidates generalizing best with
  | nil => exact ⟨h, by simp⟩
  | cons y ys ih =>
    obtain ⟨hy, hys⟩ := ih h
    unfold betterCandidate at hy
    split_ifs at hy with hcond
    subst hy
    refine ⟨rfl, fun x hx ↦ ?_⟩
    rcases mem_cons.mp hx with rfl | hx
    · simpa using hcond
    · exact hys x hx

end Dir

/-! ### Lines that a tile waits for -/

omit [DecidableEq A] in
/-- The core of the tile waits for line `a`. -/
def Tile.Misses (x : Tile A) (a : A) : Prop := ∃ acc n, x.app = .missed acc n ∧ acc.address = a

omit [DecidableEq A] in
theorem Tile.Misses.unique {x : Tile A} {b : A} (ha : x.Misses a) (hb : x.Misses b) : a = b := by
  obtain ⟨acc, n, happ, rfl⟩ := ha
  obtain ⟨acc', n', happ', rfl⟩ := hb
  rw [happ] at happ'
  simp only [App.missed.injEq] at happ'
  rw [happ'.1]

theorem StageView.misses {x : Tile A} (h : StageView x a (.queued kind)) : x.Misses a := by
  unfold StageView at h
  split at h
  · rename_i acc n happ
    split_ifs at h with hadr
    exact ⟨acc, n, happ, hadr⟩
  · simp at h

/-- The tile of a request in the queue of a line waits for the line. -/
theorem LineOf.misses {q : Phase} (h : LineOf cfg listed (s.commit g d) mem q a L)
    (hmem : .miss kind t ∈ L.queue) : (s.tile t).Misses a := by
  have hstage := (h.view.tile t).stage
  rw [(h.inv.queued kind t).mp hmem] at hstage
  exact hstage.misses

/-- A line with a request, but no NULLIFY, is waited for by a tile. -/
theorem Good.exists_misses (h : Good cfg allowed listed ph (s.commit g d) mem)
    (hg : cfg.home a = g) (hph : ph a ≠ .done) (hq : d.queue a ≠ [])
    (hr : a ∉ d.cache.replaced.map Prod.fst) : ∃ t, (s.tile t).Misses a := by
  obtain ⟨L, hL⟩ := h.lineOf a
  have hdir := hL.dir hg
  obtain ⟨r, rs, hrs⟩ := exists_cons_of_ne_nil hq
  have hqueue : L.queue = r.toLine :: rs.map ShmemReq.toLine := by
    rw [hdir.queue, if_neg hph, hrs]
    rfl
  cases hr' : r.toLine with
  | nullify => exact absurd (hdir.replaced.mpr (by simp [hqueue, hr'])) hr
  | miss kind t =>
    rw [hr'] at hqueue
    exact ⟨t, hL.misses (hqueue ▸ mem_cons_self)⟩

/-- The set of a line without an entry has a victim. -/
theorem Good.exists_candidate (h : Good cfg allowed listed ph (s.commit g d) mem)
    (hways : N ≤ cfg.directory.scan.toFinset.card) (hph : ∀ b, b ≠ a → ph b = .settled)
    (ht : (s.tile t).Misses a) (hentry : d.cache.entry cfg.directory a = none)
    (hfull : d.cache.entries.freeWay cfg.directory a = none) :
    Dir.replacementCandidate (fun b ↦ (d.queue b).length)
      (d.cache.getReplacementCandidates cfg.directory a) ≠ none := by
  intro hnone
  have hbusy := (Dir.busy_of_foldl_betterCandidate hnone).2
  have hwf := h.cache_wf
  have hget : d.cache.entries.get? cfg.directory a = none := by
    rw [DirectoryCache.entry, Option.or_eq_none_iff] at hentry
    exact hentry.1
  -- every way of the set holds a line that some tile other than `t` waits for
  have hway (w : ℕ) (hw : w ∈ cfg.directory.scan.toFinset) :
      ∃ u b e, d.cache.entries.slot (cfg.directory.index a) w = some (b, e) ∧ u ≠ t ∧
        (s.tile u).Misses b := by
    have hw' := mem_toFinset.mp hw
    have hsome := find?_eq_none.mp hfull w hw'
    obtain ⟨⟨b, e⟩, hslot⟩ := Option.ne_none_iff_exists'.mp (by simpa using hsome)
    have hmem : (b, e) ∈ d.cache.getReplacementCandidates cfg.directory a :=
      mem_filterMap.mpr ⟨w, hw', hslot⟩
    have hgetb := (hwf.mem_getReplacementCandidates hmem).2
    have hba : b ≠ a := by
      rintro rfl
      simp [hget] at hgetb
    have hhome : cfg.home b = g := by
      by_contra hne
      have hno := (h.foreign g b hne).2
      rw [commit_dir] at hno
      simp [DirectoryCache.entry, hgetb] at hno
    have hreplaced : b ∉ d.cache.replaced.map Prod.fst := by
      intro hmem'
      simp [hwf.apart b hmem'] at hgetb
    have hq : d.queue b ≠ [] := by simpa using hbusy _ hmem
    obtain ⟨u, hu⟩ := h.exists_misses hhome (by simp [hph b hba]) hq hreplaced
    refine ⟨u, b, e, hslot, ?_, hu⟩
    rintro rfl
    exact hba (hu.unique ht)
  have : Nonempty (Fin N) := ⟨t⟩
  choose! u b e hslot hne hmiss using hway
  have hcard : cfg.directory.scan.toFinset.card ≤ (Finset.univ.erase t).card := by
    refine Finset.card_le_card_of_injOn u (fun w hw ↦ ?_) fun w hw w' hw' heq ↦ ?_
    · exact Finset.mem_coe.mpr (Finset.mem_erase.mpr ⟨hne w hw, Finset.mem_univ _⟩)
    · have hm := hmiss w hw
      rw [heq] at hm
      have hb := hm.unique (hmiss w' hw')
      have hs := hslot w hw
      rw [hb] at hs
      exact hwf.entries.unique hs (hslot w' hw')
  rw [Finset.card_erase_of_mem (Finset.mem_univ t), Finset.card_univ, Fintype.card_fin] at hcard
  have hpos := t.isLt
  omega

/-! ### A free way -/

theorem Dir.getDirectoryEntry_of_none (h : d.cache.WF cfg.directory)
    (he : d.cache.entry cfg.directory a = none) :
    ∃ c, d.clock ≤ c ∧
      ((∃ cache, d.getDirectoryEntry cfg a = (some cfg.freshEntry, { d with cache, clock := c }) ∧
          DirectoryCache.Updated cfg.directory d.cache a (some cfg.freshEntry) cache ∧
          cache.replaced = d.cache.replaced) ∨
        d.getDirectoryEntry cfg a = (none, { d with clock := c }) ∧
          d.cache.entries.freeWay cfg.directory a = none) := by
  unfold Dir.getDirectoryEntry
  rcases h.getDirectoryEntry_of_none cfg.freshEntry he with ⟨cache, heq, hupd, hrep⟩ | ⟨heq, hfull⟩
  · rw [heq]
    exact ⟨_, by omega, .inl ⟨cache, rfl, hupd, hrep⟩⟩
  · rw [heq]
    exact ⟨_, by omega, .inr ⟨rfl, hfull⟩⟩

/-- The entry of a line is not recorded elsewhere. -/
theorem Good.home_of_entry (h : Good cfg allowed listed ph (s.commit g d) mem)
    (he : d.cache.entry cfg.directory a = some e) : cfg.home a = g := by
  by_contra hne
  have hno := (h.foreign g a hne).2
  rw [commit_dir] at hno
  exact absurd (hno.symm.trans he) (by simp)

/-- A line gets an entry of its set that was free. -/
theorem Good.newEntry (hcfg : cfg.Supported listed)
    (h : Good cfg allowed listed ph (s.commit g d) mem) (hg : cfg.home a = g)
    (he : d.cache.entry cfg.directory a = none) {c : ℕ}
    (hupd : DirectoryCache.Updated cfg.directory d.cache a (some cfg.freshEntry) cache)
    (hrep : cache.replaced = d.cache.replaced) :
    Good cfg allowed listed ph (s.commit g { d with cache, clock := c }) mem := by
  have hout : ({ d with cache, clock := c } : Dir A N).out = d.out ++ [] := (append_nil _).symm
  refine h.midStep (T := (· = a)) ?_ (fun _ _ ↦ rfl)
    ⟨hupd.wf, fun b hb ↦ ?_, fun b _ ↦ ?_, fun _ _ ↦ rfl, fun _ _ ↦ rfl⟩ hout (by simp [FromHome])
    (by simp) ?_ ?_
  · rintro b rfl
    exact hg
  · rw [hupd.entry, if_neg hb]
  · rw [hrep]
  · exact fun b _ r hr hreq ↦ h.queue_timely hr hreq
  · rintro b rfl
    obtain ⟨L, hL⟩ := h.lineOf b
    have hdir := hL.dir hg
    refine ⟨L, hL, .refl (hdir.setEntry ?_ (.fresh hcfg hL.inv (hdir.noEntry he)) ?_ rfl rfl)⟩
    · rw [hupd.entry, if_pos rfl]
    · rw [hrep]

/-! ### A victim is replaced -/

/-- The line whose entry is replaced gets a NULLIFY. -/
theorem LineStep.nullifyStart (hnull : nullify.toLine = .nullify)
    (hadr : nullify.address = a) (h : DirView cfg listed d .settled a L) (hq : d.queue a = [])
    (hentry : d'.cache.entry cfg.directory a = d.cache.entry cfg.directory a)
    (hreplaced : a ∈ d'.cache.replaced.map Prod.fst) (hqueue : d'.queue a = [nullify])
    (hdram : d'.dram a = d.dram a) : LineStep cfg listed s .trying d' [] a L := by
  have hqL : L.queue = [] := by simp [h.queue, hq]
  have hpend : L.pending = false := by simp [h.pending, hq]
  refine ⟨_, ReflTransGen.single (.nullifyStart L hqL), ⟨?_, ?_, ?_, ?_, ?_, ?_, ?_, ?_, ?_⟩, rfl,
    fun t ↦ (L.tile t).stage, fun t ↦ by simp [downsOf, Sys.packetsTo], fun _ hs ↦ hs⟩
  · intro e he
    rw [hentry] at he
    have hev := h.entry e he
    exact ⟨hev.dstate, hev.owner, hev.sharers, hev.tracked⟩
  · rw [hentry]
    exact h.noEntry
  · simp [hqueue, hnull]
  · simp [hqueue]
  · simp [hpend]
  · simp [hqueue, hadr]
  · rw [hdram]
    exact h.dram
  · rw [hdram]
    exact h.asked
  · simp [hreplaced]

/-- Line `a` takes the entry of line `v`. -/
theorem Good.replaceEntry (hcfg : cfg.Supported listed)
    (h : Good cfg allowed listed ph (s.commit g d) mem) (hg : cfg.home a = g)
    (he : d.cache.entry cfg.directory a = none) (hv : d.cache.entry cfg.directory v = some e)
    (hph : ph v = .settled) (hq : d.queue v = []) {c : ℕ}
    (hupd : DirectoryCache.Updated cfg.directory d.cache a (some cfg.freshEntry) cache)
    (hkeys : cache.replaced.map Prod.fst = d.cache.replaced.map Prod.fst ++ [v])
    (hnull : nullify.type = .nullifyReq) (hadr : nullify.address = v) :
    Good cfg allowed listed (update ph v .trying)
      (s.commit g (({ d with cache, clock := c } : Dir A N).setQueue v [nullify])) mem := by
  have hva : v ≠ a := by
    rintro rfl
    exact absurd (he.symm.trans hv) (by simp)
  have hgv := h.home_of_entry hv
  have hout : (({ d with cache, clock := c } : Dir A N).setQueue v [nullify]).out = d.out ++ [] :=
    (append_nil _).symm
  have hqueue (b : A) : (({ d with cache, clock := c } : Dir A N).setQueue v [nullify]).queue b
      = if b = v then [nullify] else d.queue b := by
    simp [Dir.setQueue, update_apply]
  refine h.midStep (T := fun b ↦ b = a ∨ b = v) ?_ (fun b hb ↦ ?_)
    ⟨hupd.wf, fun b hb ↦ ?_, fun b hb ↦ ?_, fun b hb ↦ ?_, fun _ _ ↦ rfl⟩ hout (by simp [FromHome])
    (by simp) (fun b _ r hr hreq ↦ ?_) ?_
  · rintro b (rfl | rfl)
    · exact hg
    · exact hgv
  · exact update_of_ne (fun hbv ↦ hb (.inr hbv)) _ _
  · exact (hupd.entry b).trans (if_neg fun hba ↦ hb (.inl hba))
  · change b ∈ cache.replaced.map Prod.fst ↔ _
    rw [hkeys, mem_append, mem_singleton]
    exact or_iff_left fun hbv ↦ hb (.inr hbv)
  · rw [hqueue, if_neg fun hbv ↦ hb (.inr hbv)]
  · rw [hqueue] at hr
    split_ifs at hr with hbv
    · rw [mem_singleton.mp hr, hnull] at hreq
      simp [MsgType.isReq] at hreq
    · exact h.queue_timely hr hreq
  · rintro b (rfl | rfl)
    · obtain ⟨L, hL⟩ := h.lineOf b
      have hdir := hL.dir hg
      rw [update_of_ne hva.symm]
      refine ⟨L, hL, .refl (hdir.setEntry ?_ (.fresh hcfg hL.inv (hdir.noEntry he)) ?_ ?_ rfl)⟩
      · exact (hupd.entry b).trans (if_pos rfl)
      · change b ∈ cache.replaced.map Prod.fst ↔ _
        rw [hkeys, mem_append, mem_singleton]
        exact or_iff_left hva.symm
      · rw [hqueue, if_neg hva.symm]
    · obtain ⟨L, hL⟩ := h.lineOf b
      have hdir := hL.dir hgv
      rw [hph] at hdir
      rw [update_self]
      refine ⟨L, hL, .nullifyStart (by simp [ShmemReq.toLine, hnull]) hadr hdir hq ?_ ?_ ?_ rfl⟩
      · exact (hupd.entry b).trans (if_neg hva)
      · change b ∈ cache.replaced.map Prod.fst
        simp [hkeys]
      · rw [hqueue, if_pos rfl]

/-! ### The completed request is removed -/

/-- The requests `q` of line `a` are those of `p`, with later times. -/
structure Retimed (s : Sys A N) (a : A) (p q : List (ShmemReq A N)) : Prop where
  lines : q.map ShmemReq.toLine = p.map ShmemReq.toLine
  address : ∀ r ∈ q, r.address = a
  timely : ∀ r ∈ q, r.type.isReq = true → (s.tile r.requester).outstandingTime ≤ r.time

omit [DecidableEq A] in
theorem Retimed.nil : Retimed s a [] [] := ⟨rfl, by simp, by simp⟩

omit [DecidableEq A] in
theorem Retimed.touch {p : List (ShmemReq A N)} (h : Retimed s a p (req :: rest)) (c : ℕ) :
    Retimed s a p ({ req with time := max req.time c } :: rest) := by
  refine ⟨h.lines, fun r hr ↦ ?_, fun r hr hreq ↦ ?_⟩
  · rcases mem_cons.mp hr with rfl | hr
    · exact h.address req mem_cons_self
    · exact h.address r (mem_cons_of_mem _ hr)
  · rcases mem_cons.mp hr with rfl | hr
    · exact (h.timely req mem_cons_self hreq).trans (le_max_left _ _)
    · exact h.timely r (mem_cons_of_mem _ hr) hreq

section

variable (h : Good cfg allowed listed ph (s.commit g d) mem) (hg : cfg.home a = g)

include h hg

/-- The requests behind some others. -/
theorem Good.retimed (hsuffix : rest <:+ d.queue a) : Retimed s a rest rest := by
  obtain ⟨L, hL⟩ := h.lineOf a
  refine ⟨rfl, fun r hr ↦ ?_, fun r hr hreq ↦ ?_⟩
  · exact (hL.dir hg).address r (hsuffix.subset hr)
  · exact h.queue_timely (hsuffix.subset hr) hreq

/-- The answered request is removed from the queue. -/
theorem Good.pop (hdone : ph a = .done) {r : ShmemReq A N} {q : List (ShmemReq A N)}
    (hq : d.queue a = r :: rest) (hre : Retimed s a rest q) (c : ℕ) :
    Good cfg allowed listed (update ph a (if q = [] then .settled else .trying))
      (s.commit g { d.setQueue a q with clock := c }) mem := by
  have hout : ({ d.setQueue a q with clock := c } : Dir A N).out = d.out ++ [] :=
    (append_nil _).symm
  have hself : ({ d.setQueue a q with clock := c } : Dir A N).queue a = q := by
    simp [Dir.setQueue]
  refine h.midStep (T := (· = a)) ?_ (fun b hb ↦ ?_)
    ⟨h.cache_wf, fun _ _ ↦ rfl, fun _ _ ↦ Iff.rfl, fun b hb ↦ ?_, fun _ _ ↦ rfl⟩ hout
    (by simp [FromHome]) (by simp) ?_ ?_
  · rintro b rfl
    exact hg
  · exact update_of_ne hb _ _
  · exact update_of_ne hb _ _
  · rintro b rfl x hx
    rw [hself] at hx
    exact hre.timely x hx
  · rintro b rfl
    obtain ⟨L, hL⟩ := h.lineOf b
    have hdir := hL.dir hg
    rw [hdone] at hdir
    have hpend : L.pending = false := by simp [hdir.pending]
    refine ⟨L, hL, .refl ⟨hdir.entry, hdir.noEntry, ?_, ?_, ?_, ?_, hdir.dram, hdir.asked,
      hdir.replaced⟩⟩
    · rw [hdir.queue, hself, if_pos rfl, hq, tail_cons, ← hre.lines]
      split_ifs <;> simp_all
    · rw [hself]
      split_ifs with hnil <;> simp [hnil]
    · rw [hself, hpend]
      split_ifs with hnil <;> simp [hnil]
    · rw [hself]
      exact hre.address

end

/-! ### The entry of the line of a request -/

theorem Dir.getDirectoryEntry_of_full (he : d.cache.entry cfg.directory a = none)
    (hfull : d.cache.entries.freeWay cfg.directory a = none) :
    ∃ c, d.clock ≤ c ∧ d.getDirectoryEntry cfg a = (none, { d with clock := c }) := by
  obtain ⟨hget, hlook⟩ : d.cache.entries.get? cfg.directory a = none ∧
      d.cache.replaced.lookup a = none := by
    simpa [DirectoryCache.entry] using he
  unfold Dir.getDirectoryEntry DirectoryCache.getDirectoryEntry
  simp only [hget, hfull, hlook]
  exact ⟨_, by omega, rfl⟩

/-- The NULLIFY of a line without other requests is tried, and removed if it is complete. -/
theorem Good.nullifyVictim (nullify : ShmemReq A N)
    (h : Good cfg allowed listed (update ph nullify.address .trying) (s.commit g d) mem)
    (hg : cfg.home nullify.address = g) (hph : ph nullify.address = .settled)
    (hq : d.queue nullify.address = [nullify]) (hnull : nullify.toLine = .nullify) :
    Outcome (do
        let (d, completed) ← d.processNullifyReq cfg nullify
        if completed then d.dequeue nullify.address else return d)
      (fun d' ↦ Good cfg allowed listed ph (s.commit g d') mem ∧
        Dir.Touches cfg (· = nullify.address) d d' ∧ d.clock ≤ d'.clock)
      (Tolerated listed) := by
  have hclear (q : Phase) : update (update (update ph nullify.address
      .trying) nullify.address q) nullify.address .settled = ph := by
    rw [update_idem, update_idem, ← hph, update_eq_self]
  refine .bind (h.processNullifyReq hg (update_self ..) hq hnull) ?_
  rintro ⟨d', completed⟩ ⟨hgood, htouch, hqueue, hclock⟩
  dsimp only at hgood htouch hqueue hclock ⊢
  cases completed with
  | false =>
    rw [← hclear .settled, update_idem]
    exact ⟨hgood, htouch, hclock⟩
  | true =>
    have hdeq : d'.dequeue nullify.address = .ok (d'.setQueue nullify.address []) := by
      unfold Dir.dequeue
      rw [hqueue, hq]
      rfl
    have hpop := hgood.pop hg (update_self ..) (hqueue.trans hq) .nil d'.clock
    rw [if_pos rfl, if_pos rfl, hclear] at hpop
    rw [if_pos rfl, hdeq]
    refine ⟨hpop, ⟨htouch.wf, htouch.entry, htouch.replaced, fun b hb ↦ ?_, htouch.dram⟩, hclock⟩
    exact (update_of_ne hb _ _).trans (htouch.queue b hb)

/-- The directory once the entry of line `a` is known. -/
structure Found (cfg : Config A N) (allowed : Fin N → A → L1Kind → Prop) (listed : Prop)
    (ph : A → Phase)
    (s : Sys A N) (g : Fin N) (mem : A → Block) (a : A) (d : Dir A N) (r : Entry × Dir A N) :
    Prop where
  good : Good cfg allowed listed ph (s.commit g r.2) mem
  entry : r.2.cache.entry cfg.directory a = some r.1
  same : ∀ e, d.cache.entry cfg.directory a = some e → r.1 = e
  queue : r.2.queue a = d.queue a
  dram : r.2.dram a = d.dram a
  clock : d.clock ≤ r.2.clock

section Allocation

variable (hcfg : cfg.Supported listed) (h : Good cfg allowed listed ph (s.commit g d) mem)
  (hg : cfg.home req.address = g) (hph : ∀ b, b ≠ req.address → ph b = .settled)
  (ht : (s.tile t).Misses req.address)

include hcfg h hg hph ht

/-- A full set: the line takes the entry of another one, which gets a NULLIFY. -/
theorem Good.processDirectoryEntryAllocationReq
    (he : d.cache.entry cfg.directory req.address = none)
    (hfull : d.cache.entries.freeWay cfg.directory req.address = none) :
    Outcome (d.processDirectoryEntryAllocationReq cfg req)
      (fun d' ↦ Found cfg allowed listed ph s g mem req.address d (cfg.freshEntry, d'))
      (Tolerated listed) := by
  obtain ⟨c, hc, hget⟩ := Dir.getDirectoryEntry_of_full he hfull
  unfold Dir.processDirectoryEntryAllocationReq
  rw [hget]
  refine .require_pos rfl ?_
  refine .fetch_bind ?_ fun hn ↦
    ⟨fun hl ↦ h.exists_candidate (hcfg.ways hl) hph ht he hfull hn, by decide⟩
  rintro ⟨v, ev⟩ hcand
  obtain ⟨hmem, hcount⟩ : (v, ev) ∈ d.cache.getReplacementCandidates cfg.directory req.address ∧
      (d.queue v).length = 0 := by
    simpa using Dir.mem_of_foldl_betterCandidate hcand
  obtain ⟨hindex, hgetv⟩ := h.cache_wf.mem_getReplacementCandidates hmem
  obtain ⟨cache, heq, hupd, hkeys⟩ :=
    h.cache_wf.replaceDirectoryEntry cfg.freshEntry he hfull hindex hgetv
  have hv : d.cache.entry cfg.directory v = some ev := by
    simp [DirectoryCache.entry, hgetv]
  have hva : v ≠ req.address := by
    rintro rfl
    exact absurd (he.symm.trans hv) (by simp)
  have hqv : d.queue v = [] := length_eq_zero_iff.mp hcount
  -- the NULLIFY is the only request of its line
  let nullify : ShmemReq A N := ⟨.nullifyReq, req.requester, v, cfg.capacityModeled, d.clock⟩
  let d₁ : Dir A N := ({ d with cache, clock := c + cfg.directoryDelay } : Dir A N).setQueue v [nullify]
  have hd₁ : ({ d with cache, clock := c + cfg.directoryDelay } : Dir A N).enqueue v nullify = d₁ := by
    unfold Dir.enqueue
    simp only [hqv]
    rfl
  have hqv₁ : d₁.queue v = [nullify] := by simp [d₁, Dir.setQueue]
  have hq₁ (b : A) (hb : b ≠ v) : d₁.queue b = d.queue b := by
    simp [d₁, Dir.setQueue, hb]
  have hgood : Good cfg allowed listed (update ph v .trying) (s.commit g d₁) mem :=
    h.replaceEntry hcfg hg he hv (hph v hva) hqv hupd hkeys rfl rfl
  have hnull := Good.nullifyVictim nullify hgood (h.home_of_entry hv) (hph v hva) hqv₁ rfl
  dsimp only
  rw [heq]
  change Outcome (do
    let d := ({ d with cache, clock := c + cfg.directoryDelay } : Dir A N).enqueue v nullify
    require ((d.queue v).length = 1) .queueCount
    let (d, completed) ← d.processNullifyReq cfg nullify
    if completed then d.dequeue v else return d) _ _
  rw [hd₁]
  refine .require_pos (by simp [hqv₁]) ?_
  refine hnull.imp ?_
  rintro d₂ ⟨hgood₂, htouch, hclock₂⟩
  refine ⟨hgood₂, ?_, fun e hs ↦ absurd (he.symm.trans hs) (by simp), ?_, htouch.dram _ hva.symm,
    (hc.trans (Nat.le_add_right _ _)).trans hclock₂⟩
  · rw [htouch.entry _ hva.symm]
    exact (hupd.entry _).trans (if_pos rfl)
  · exact (htouch.queue _ hva.symm).trans (hq₁ _ hva.symm)

/-- The entry of the line of the front request. -/
theorem Good.entryFor :
    Outcome (d.entryFor cfg req) (Found cfg allowed listed ph s g mem req.address d)
      (Tolerated listed) := by
  unfold Dir.entryFor
  cases he : d.cache.entry cfg.directory req.address with
  | some e =>
    obtain ⟨c, hc, hget⟩ := Dir.getDirectoryEntry_of_some h.cache_wf he
    rw [hget]
    exact ⟨h.clock c, he, fun e' he' ↦ Option.some.inj (he.symm.trans he'), rfl, rfl, hc⟩
  | none =>
    have hsame (e : Entry) (hs : d.cache.entry cfg.directory req.address = some e) :
        cfg.freshEntry = e := absurd (he.symm.trans hs) (by simp)
    obtain ⟨c, hc, ⟨cache, hget, hupd, hrep⟩ | ⟨hget, hfull⟩⟩ :=
      Dir.getDirectoryEntry_of_none h.cache_wf he
    · rw [hget]
      refine ⟨h.newEntry hcfg hg he hupd hrep, ?_, hsame, rfl, rfl, hc⟩
      exact (hupd.entry _).trans (if_pos rfl)
    · rw [hget]
      have halloc := (h.clock c).processDirectoryEntryAllocationReq hcfg hg hph ht he hfull
      refine .bind halloc fun d' hd' ↦ ?_
      exact ⟨hd'.good, hd'.entry, hsame, hd'.queue, hd'.dram, hc.trans hd'.clock⟩

end Allocation

end CarbonSim.Msi
