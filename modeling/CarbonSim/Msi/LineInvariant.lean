import CarbonSim.Msi.LineProtocol

/-!
# The invariant of an MSI line is inductive

`Line.Inv.step` shows that every step of a line keeps `Line.Inv`. The steps of a tile change one
`TileView` and are covered by `Line.Inv.setTile`; the steps of the directory are taken one by one.
-/

namespace CarbonSim.Msi

open List Function

variable {N : ℕ} {V : Type} {listed : Prop} {L : Line N V} {t : Fin N} {rest : List (UpMsg V)}
  {v : TileView V} {targets : Finset (Fin N)} {m : DownMsg V} {x : V} {kind : ReqKind}
  {r : LineReq N} {d : LineDState} {L' : Line N V} {downRest : List (DownMsg V)}
  {queueRest : List (LineReq N)}

/-! ### Copies and messages -/

theorem isReq_ownerMsg (r : LineReq N) : (r.ownerMsg : DownMsg V).IsReq := by
  unfold LineReq.ownerMsg
  split_ifs <;> trivial

theorem Line.exists_of_asked (h : L.asked = some m) :
    ∃ r, L.queue.head? = some r ∧ r.ownerMsg = m := by
  unfold Line.asked at h
  split_ifs at h
  exact Option.map_eq_some_iff.mp h

/-- What the directory asks an owner for is a request. -/
theorem Line.isReq_of_mem_asked (L : Line N V) : ∀ m ∈ L.asked, m.IsReq := by
  intro m hm
  obtain ⟨r, -, rfl⟩ := exists_of_asked hm
  exact isReq_ownerMsg r

/-- A notice on its way answers every INV_REQ. -/
theorem invDue_of_mem_up (h : .invRep ∈ v.up) : v.InvDue := Or.inr h

/-- An INV_REQ on its way to a tile stays on its way when the tile drops an earlier message. -/
theorem TileView.InvDue.of_tail {v w : TileView V} (h : v.InvDue)
    (hdown : v.down = m :: downRest) (hm : m ≠ .invReq ∨ ∃ m' ∈ downRest, ¬ m'.IsReq)
    (hw : w.down = downRest) (hup : ∀ m ∈ v.up, m ∈ w.up) : w.InvDue := by
  rcases h with ⟨stale, live, heq, hlive⟩ | hup'
  · cases stale with
    | nil =>
      obtain ⟨rfl, rfl⟩ : m = .invReq ∧ downRest = live := by simpa [hdown] using heq
      rcases hm with hm | ⟨m', hm', hrep⟩
      · exact absurd rfl hm
      · exact absurd (hlive m' hm') hrep
    | cons first stale =>
      obtain ⟨-, rfl⟩ : m = first ∧ downRest = stale ++ .invReq :: live := by
        simpa [hdown] using heq
      exact .inl ⟨stale, live, hw, hlive⟩
  · exact .inr (hup _ hup')

theorem mem_tail_of_mem_tail_append {α : Type} {l : List α} {a b : α}
    (h : a ∈ (l ++ [b]).tail) : a ∈ l.tail ∨ a = b := by
  cases l with
  | nil => simp at h
  | cons c l => simpa using h

/-- While the line is shared, what an owner would be asked for does not matter. -/
theorem Present.shared_ask {ask ask' : Option (DownMsg V)} (h : Present .shared ask x v) :
    Present .shared ask' x v := by
  cases h with
  | incomingSh w stale live hd hs hl => exact .incomingSh w stale live hd hs hl
  | heldSh live stage hd hl hst => exact .heldSh live stage hd hl hst
  | leavingSh w down stage hd hs hst => exact .leavingSh w down stage hd hs hst
  | _ => contradiction

theorem Line.asked_eq_none (hp : L.pending = false) : L.asked = none := by
  simp [Line.asked, hp]

/-- The EX_REP has been sent to a tile whose request was in the queue. -/
theorem present_exRep (hc : v.cstate = .invalid) (hs : ∀ m ∈ v.down, m.IsReq) (hu : v.up = []) :
    Present .modified none x { v with down := v.down ++ [.exRep x], stage := .granted .ex } := by
  rw [hc, hu]
  exact .incomingEx v.cval v.down rfl hs

/-- The SH_REP has been sent to a tile whose request was in the queue. -/
theorem present_shRep (hc : v.cstate = .invalid) (hs : ∀ m ∈ v.down, m.IsReq) (hu : v.up = []) :
    Present .shared none x { v with down := v.down ++ [.shRep x], stage := .granted .sh } := by
  rw [hc, hu]
  exact .incomingSh v.cval v.down [] rfl hs (by simp)

theorem Line.send_tile_of_mem (ht : t ∈ targets) :
    (L.send m targets).tile t = { L.tile t with down := (L.tile t).down ++ [m] } :=
  if_pos ht

theorem Line.send_tile_of_notMem (ht : t ∉ targets) : (L.send m targets).tile t = L.tile t :=
  if_neg ht

@[simp] theorem Line.send_queue (m : DownMsg V) (targets : Finset (Fin N)) :
    (L.send m targets).queue = L.queue := rfl

@[simp] theorem Line.send_stage (m : DownMsg V) (targets : Finset (Fin N)) (t : Fin N) :
    ((L.send m targets).tile t).stage = (L.tile t).stage := by
  by_cases ht : t ∈ targets
  · rw [Line.send_tile_of_mem ht]
  · rw [Line.send_tile_of_notMem ht]

/-- A further request leaves a tile without a copy as it is. -/
theorem Absent.send (h : Absent (L.tile t)) (hm : m.IsReq) :
    Absent ((L.send m targets).tile t) := by
  by_cases ht : t ∈ targets
  · rw [Line.send_tile_of_mem ht]
    refine ⟨h.cstate, fun m' hm' ↦ ?_, h.up, h.stage⟩
    rcases mem_append.mp hm' with hm' | hm'
    · exact h.stale m' hm'
    · rwa [mem_singleton.mp hm']
  · rwa [Line.send_tile_of_notMem ht]

/-- An INV_REQ may be sent to any sharer, however often. -/
theorem Present.snoc_invReq {ask ask' : Option (DownMsg V)} (h : Present .shared ask x v) :
    Present .shared ask' x { v with down := v.down ++ [.invReq] } := by
  have hsnoc {p : DownMsg V → Prop} {l : List (DownMsg V)} (hl : ∀ m ∈ l, p m)
      (hp : p .invReq) : ∀ m ∈ l ++ [.invReq], p m := by
    intro m hm
    rcases mem_append.mp hm with hm | hm
    · exact hl m hm
    · rwa [mem_singleton.mp hm]
  cases h with
  | incomingSh w stale live hd hs hl =>
    simpa using Present.incomingSh w stale (live ++ [.invReq]) hd hs (hsnoc hl rfl)
  | heldSh live stage hd hl hst => exact .heldSh _ stage hd (hsnoc hl rfl) hst
  | leavingSh w down stage hd hs hst => exact .leavingSh w _ stage hd (hsnoc hs trivial) hst
  | _ => contradiction

/-- The owner is asked for the line once. -/
theorem Present.snoc_ownerMsg (h : Present .modified none x v) (r : LineReq N) :
    Present .modified (some r.ownerMsg) x { v with down := v.down ++ [r.ownerMsg] } := by
  cases h with
  | incomingEx w stale hd hs =>
    have hp : Present .modified (some r.ownerMsg) x _ := .incomingEx w stale hd hs
    rw [show stale ++ .exRep x :: (some r.ownerMsg).toList
        = (stale ++ .exRep x :: (none : Option (DownMsg V)).toList) ++ [r.ownerMsg] by simp] at hp
    exact hp
  | heldEx hd => exact .heldEx hd
  | leavingEx w down stage hd hs hst =>
    refine .leavingEx w _ stage hd (fun m hm ↦ ?_) hst
    rcases mem_append.mp hm with hm | hm
    · exact hs m hm
    · rw [mem_singleton.mp hm]
      exact isReq_ownerMsg r
  | _ => contradiction

/-- A tile that has just been sent an INV_REQ has one on its way. -/
theorem Line.invDue_send (ht : t ∈ targets) : ((L.send .invReq targets).tile t).InvDue := by
  rw [Line.send_tile_of_mem ht]
  exact .inl ⟨(L.tile t).down, [], rfl, by simp⟩

/-- The INV_REP of a sharer is all that was left of its copy. -/
theorem Present.invRep {ask : Option (DownMsg V)} (h : Present .shared ask x v)
    (hu : v.up = .invRep :: rest) : Absent { v with up := rest } := by
  cases h with
  | leavingSh w down stage hd hs hst =>
    obtain rfl : stage.upTail = rest := by simpa using hu
    exact ⟨rfl, hs, rfl, fun kind ↦ (hst kind).2⟩
  | incomingSh | incomingEx | heldSh | heldEx | heldWb | leavingWb | leavingEx => simp at hu

/-- The FLUSH_REP of an owner carries the last value written and is all that was left of its
copy. -/
theorem Present.flushRep {ask : Option (DownMsg V)} {x y : V} (h : Present d ask x v)
    (hu : v.up = .flushRep y :: rest) : y = x ∧ d = .modified ∧ Absent { v with up := rest } := by
  cases h with
  | leavingEx w down stage hd hs hst =>
    obtain ⟨rfl, rfl⟩ : x = y ∧ stage.upTail = rest := by simpa using hu
    exact ⟨rfl, hd, rfl, hs, rfl, fun kind ↦ (hst kind).2⟩
  | incomingSh | incomingEx | heldSh | heldEx | heldWb | leavingSh | leavingWb => simp at hu

/-- The WB_REP of an owner carries the last value written and leaves a shared copy. -/
theorem Present.wbRep {ask ask' : Option (DownMsg V)} {x y : V} (h : Present d ask x v)
    (hu : v.up = .wbRep y :: rest) :
    y = x ∧ d = .modified ∧ Present .shared ask' x { v with up := rest } := by
  cases h with
  | heldWb stage hd ha hst =>
    obtain ⟨rfl, rfl⟩ : x = y ∧ [] = rest := by simpa using hu
    exact ⟨rfl, hd, .heldSh [] stage rfl (by simp) hst⟩
  | leavingWb w stage hd ha hst =>
    obtain ⟨rfl, rfl⟩ : x = y ∧ .invRep :: stage.upTail = rest := by simpa using hu
    exact ⟨rfl, hd, .leavingSh w [] stage rfl (by simp) hst⟩
  | incomingSh | incomingEx | heldSh | heldEx | leavingSh | leavingEx => simp at hu

theorem Line.Inv.start (x : V) : (Line.start x : Line N V).Inv listed := by
  refine ⟨?_, fun t _ ↦ ⟨rfl, ?_, rfl, ?_⟩, ?_, ?_, ?_, ?_, ?_, ?_, ?_, ?_, ?_, ?_, ?_⟩ <;>
    simp [Line.start]

namespace Line.Inv

variable (h : L.Inv listed)

include h

/-! ### Steps of a tile -/

/-- Changing one tile keeps the invariant if its phase, its place in the queue and its answer to an
INV_REQ are kept. -/
theorem setTile (t : Fin N) (v : TileView V)
    (hp : t ∈ L.sharers → Present L.dstate L.asked L.latest v)
    (ha : t ∉ L.sharers → Absent v)
    (hq : ∀ kind, v.stage = .queued kind ↔ (L.tile t).stage = .queued kind)
    (hi : t ∈ L.sharers → L.dstate = .shared → (L.tile t).InvDue → v.InvDue) :
    (L.setTile t v).Inv listed where
  present u hu := by
    by_cases hut : u = t
    · subst hut
      simpa using hp hu
    · simpa [hut] using h.present u hu
  absent u hu := by
    by_cases hut : u = t
    · subst hut
      simpa using ha hu
    · simpa [hut] using h.absent u hu
  uncached := h.uncached
  shared := h.shared
  modified := h.modified
  noOwner := h.noOwner
  fresh := h.fresh
  queued kind u := by
    by_cases hut : u = t
    · subst hut
      simpa [hq kind] using h.queued kind u
    · simpa [hut] using h.queued kind u
  nodup := h.nodup
  nullifyFirst := h.nullifyFirst
  pending := h.pending
  waitAll hl hpend hd hf u hu := by
    by_cases hut : u = t
    · subst hut
      simpa using hi hu hd (h.waitAll hl hpend hd hf u hu)
    · simpa [hut] using h.waitAll hl hpend hd hf u hu
  waitOne hl hpend hd hf := by
    obtain ⟨u, hu, hdue⟩ := h.waitOne hl hpend hd hf
    refine ⟨u, hu, ?_⟩
    by_cases hut : u = t
    · subst hut
      simpa using hi hu hd hdue
    · simpa [hut] using hdue

/-- The requests in the queue when a tile changes but not the place of its miss. -/
theorem queued_setTile (hv : v.stage = (L.tile t).stage) (kind : ReqKind) (u : Fin N) :
    .miss kind u ∈ L.queue ↔ (update L.tile t v u).stage = .queued kind := by
  by_cases hut : u = t
  · subst hut
    simpa [hv] using h.queued kind u
  · simpa [hut] using h.queued kind u

theorem write (hm : (L.tile t).cstate = .modified) (x : V) :
    Line.Inv listed { L.setTile t { L.tile t with cval := x } with latest := x } := by
  have ht : t ∈ L.sharers := by
    by_contra ht
    simp [(h.absent t ht).cstate] at hm
  obtain ⟨hd, hv⟩ := (h.present t ht).of_modified hm
  obtain ⟨o, -, hS⟩ := h.modified hd
  obtain rfl : t = o := by simpa [hS] using ht
  -- the writer is the only recorded tile, so no other copy becomes stale
  refine ⟨fun u hu ↦ ?_, fun u hu ↦ ?_, h.uncached, h.shared, h.modified, h.noOwner,
    fun hne ↦ absurd hd hne, fun kind u ↦ ?_, h.nodup, h.nullifyFirst, h.pending,
    fun _ _ hd' ↦ ?_, fun _ _ hd' ↦ ?_⟩
  · obtain rfl : u = t := by simpa [hS] using hu
    change Present L.dstate L.asked x (update L.tile u _ u)
    rw [update_self, hv]
    exact .heldEx hd
  · have hut : u ≠ t := by
      rintro rfl
      exact hu ht
    simpa [hut] using h.absent u hu
  · exact h.queued_setTile (by rfl) kind u
  · simp [hd] at hd'
  · simp [hd] at hd'

theorem ask (hs : (L.tile t).stage = .none)
    (hc : (L.tile t).cstate = .invalid ∨ kind = .ex ∧ (L.tile t).cstate = .shared) :
    (L.setTile t { L.tile t with stage := .asking kind }).Inv listed := by
  refine h.setTile t _ (fun ht ↦ (h.present t ht).asking hs hc) (fun ht ↦ ?_) (by simp [hs])
    fun _ _ hdue ↦ hdue
  have ha := h.absent t ht
  exact ⟨ha.cstate, ha.stale, by simpa [hs] using ha.up, by simp⟩

theorem request (hs : (L.tile t).stage = .asking kind)
    (hc : (L.tile t).cstate = .invalid) :
    (L.setTile t { L.tile t with
      stage := .requested kind, up := (L.tile t).up ++ [.req kind] }).Inv listed := by
  refine h.setTile t _ (fun ht ↦ (h.present t ht).request hs hc) (fun ht ↦ ?_) (by simp [hs])
    fun _ _ hdue ↦ hdue.imp id fun hup ↦ mem_append_left _ hup
  have ha := h.absent t ht
  exact ⟨ha.cstate, ha.stale, by simp [ha.up, hs], by simp⟩

/-- A shared copy is given up. -/
theorem giveUpShared (hc : (L.tile t).cstate = .shared)
    (hrest : downRest <:+ (L.tile t).down) :
    (L.setTile t { L.tile t with
      cstate := .invalid, down := downRest, up := (L.tile t).up ++ [.invRep] }).Inv listed := by
  refine h.setTile t _ (fun ht ↦ (h.present t ht).giveUpShared hc downRest hrest) (fun ht ↦ ?_)
    (by simp) fun _ _ _ ↦ invDue_of_mem_up (by simp)
  simp [(h.absent t ht).cstate] at hc

/-- A modified copy is given up. -/
theorem giveUpModified (hc : (L.tile t).cstate = .modified)
    (hrest : downRest <:+ (L.tile t).down) :
    (L.setTile t { L.tile t with
      cstate := .invalid, down := downRest,
      up := (L.tile t).up ++ [.flushRep (L.tile t).cval] }).Inv listed := by
  refine h.setTile t _
    (fun ht ↦ (h.present t ht).giveUpModified hc L.isReq_of_mem_asked downRest hrest)
    (fun ht ↦ ?_) (by simp) fun ht hd _ ↦ ?_
  · simp [(h.absent t ht).cstate] at hc
  · simp [((h.present t ht).of_modified hc).1] at hd

theorem ignore (hm : m.IsReq)
    (hdown : (L.tile t).down = m :: downRest) (hc : (L.tile t).cstate = .invalid) :
    (L.setTile t { L.tile t with down := downRest }).Inv listed := by
  refine h.setTile t _ (fun ht ↦ (h.present t ht).ignore hm hdown hc) (fun ht ↦ ?_) (by simp)
    fun ht hd hdue ↦ ?_
  · have ha := h.absent t ht
    exact ⟨ha.cstate, fun m' hm' ↦ ha.stale m' (by simp [hdown, hm']), ha.up, ha.stage⟩
  · have hp := h.present t ht
    generalize L.tile t = v at hp hdown hc hdue
    cases hp with
    | incomingSh w stale live _ hs hl =>
      -- the message dropped stands before the reply, so it was not the INV_REQ that is due
      obtain ⟨stale', -, rfl⟩ := request_received hm id hdown
      exact hdue.of_tail hdown (.inr ⟨.shRep L.latest, by simp, id⟩) rfl fun _ hm ↦ hm
    | leavingSh w down stage _ _ _ => exact invDue_of_mem_up (by simp)
    | incomingEx _ _ hd' | leavingWb _ _ hd' | leavingEx _ _ _ hd' => simp [hd] at hd'
    | heldSh | heldEx | heldWb => simp at hc

theorem writeBack
    (hdown : (L.tile t).down = .wbReq :: downRest) (hc : (L.tile t).cstate = .modified) :
    (L.setTile t { L.tile t with
      cstate := .shared, down := downRest,
      up := (L.tile t).up ++ [.wbRep (L.tile t).cval] }).Inv listed := by
  refine h.setTile t _ (fun ht ↦ (h.present t ht).writeBack hc hdown) (fun ht ↦ ?_) (by simp)
    fun ht hd _ ↦ ?_
  · simp [(h.absent t ht).cstate] at hc
  · simp [((h.present t ht).of_modified hc).1] at hd

/-- A reply brings the copy that the directory has recorded. -/
theorem fill (hdown : (L.tile t).down = m :: downRest) (hrep : ¬ m.IsReq)
    (hp : t ∈ L.sharers → Present L.dstate L.asked L.latest v) (hv : v.down = downRest)
    (hup : v.up = (L.tile t).up) (hstage : v.stage = .none) : (L.setTile t v).Inv listed := by
  have ht : t ∈ L.sharers := by
    by_contra ht
    exact hrep ((h.absent t ht).stale m (by simp [hdown]))
  refine h.setTile t _ hp (fun hn ↦ absurd ht hn) (fun kind ↦ ?_) fun _ _ hdue ↦ ?_
  · simp [hstage, (h.present t ht).not_queued kind]
  · refine hdue.of_tail hdown (.inl ?_) hv fun _ hm ↦ hup ▸ hm
    rintro rfl
    exact hrep trivial

theorem fillEx (hdown : (L.tile t).down = .exRep x :: downRest) :
    (L.setTile t { L.tile t with
      cstate := .modified, cval := x, down := downRest, stage := .none }).Inv listed :=
  h.fill hdown id (fun ht ↦ ((h.present t ht).fillEx L.isReq_of_mem_asked hdown).2) rfl rfl rfl

theorem fillSh (hdown : (L.tile t).down = .shRep x :: downRest) :
    (L.setTile t { L.tile t with
      cstate := .shared, cval := x, down := downRest, stage := .none }).Inv listed :=
  h.fill hdown id (fun ht ↦ ((h.present t ht).fillSh L.isReq_of_mem_asked hdown).2) rfl rfl rfl

/-! ### Steps of the directory -/

/-- A tile whose request is in the queue is not recorded. -/
theorem not_mem_of_queued (hq : .miss kind t ∈ L.queue) :
    t ∉ L.sharers := fun ht ↦
  (h.present t ht).not_queued kind ((h.queued kind t).mp hq)

/-- Only a recorded tile has anything but a request on its way to the directory. -/
theorem mem_of_up {m : UpMsg V} (hm : m ∈ (L.tile t).up)
    (hreq : ∀ kind, m ≠ .req kind) : t ∈ L.sharers := by
  by_contra ht
  rw [(h.absent t ht).up] at hm
  cases hs : (L.tile t).stage <;> simp [hs] at hm
  · exact hreq _ hm
  · exact (h.absent t ht).stage _ hs

theorem mem_of_answer {m : UpMsg V} (hu : (L.tile t).up = m :: rest)
    (hreq : ∀ kind, m ≠ .req kind) : t ∈ L.sharers :=
  h.mem_of_up (hu ▸ mem_cons_self) hreq

theorem enqueue (hu : (L.tile t).up = .req kind :: rest) :
    Line.Inv listed { L.setTile t { L.tile t with up := rest, stage := .queued kind } with
      queue := L.queue ++ [.miss kind t] } := by
  have ht : t ∉ L.sharers := by
    intro ht
    have hp := h.present t ht
    generalize L.tile t = v at hp hu
    cases hp <;> simp at hu
  have ha := h.absent t ht
  obtain ⟨hs, rfl⟩ : (L.tile t).stage = .requested kind ∧ rest = [] := by
    have hup := ha.up
    rw [hu] at hup
    cases hs : (L.tile t).stage <;> simp [hs] at hup
    · exact ⟨by rw [hup.1], hup.2⟩
    · exact (ha.stage _ hs).elim
  have hfresh : LineReq.miss kind t ∉ L.queue := fun hmem ↦ by
    have hstage := (h.queued kind t).mp hmem
    simp [hs] at hstage
  have hne : L.pending = true → (L.queue ++ [LineReq.miss kind t]).head? = L.queue.head? := by
    intro hp
    cases hq : L.queue with
    | nil => exact absurd hq (h.pending hp).1
    | cons r rest => rfl
  have hfront (hp : L.pending = true) :
      Line.frontSh { L.setTile t { L.tile t with up := [], stage := .queued kind } with
        queue := L.queue ++ [.miss kind t] } = L.frontSh := by
    simp only [Line.frontSh, hne hp]
  have hother {u : Fin N} (hu' : u ∈ L.sharers) : u ≠ t := by
    rintro rfl
    exact ht hu'
  refine ⟨fun u hu' ↦ ?_, fun u hu' ↦ ?_, h.uncached, h.shared, h.modified, h.noOwner, h.fresh,
    fun k u ↦ ?_, ?_, fun hmem ↦ ?_, fun hp ↦ ⟨by simp, (h.pending hp).2⟩,
    fun hl hp hd hf u hu' ↦ ?_, fun hl hp hd hf ↦ ?_⟩
  · have hasked : Line.asked { L.setTile t { L.tile t with up := [], stage := .queued kind } with
        queue := L.queue ++ [.miss kind t] } = L.asked := by
      unfold Line.asked
      change (if L.pending = true then _ else _) = if L.pending = true then _ else _
      split_ifs with hp
      · rw [hne hp]
      · rfl
    rw [hasked]
    simpa [hother hu'] using h.present u hu'
  · by_cases hut : u = t
    · subst hut
      simpa using ⟨ha.cstate, ha.stale, rfl, by simp⟩
    · simpa [hut] using h.absent u hu'
  · by_cases hut : u = t
    · subst hut
      have := h.queued k u
      simp only [hs, reduceCtorEq, iff_false] at this
      simp [this, eq_comm]
    · simpa [hut] using h.queued k u
  · refine nodup_append.mpr ⟨h.nodup, nodup_singleton _, fun r hr r' hr' heq ↦ ?_⟩
    rw [heq, mem_singleton.mp hr'] at hr
    exact hfresh hr
  · rcases mem_tail_of_mem_tail_append hmem with hmem | hmem
    · exact h.nullifyFirst hmem
    · simp at hmem
  · rw [hfront hp] at hf
    simpa [hother hu'] using h.waitAll hl hp hd hf u hu'
  · rw [hfront hp] at hf
    obtain ⟨u, hu', hdue⟩ := h.waitOne hl hp hd hf
    exact ⟨u, hu', by simpa [hother hu'] using hdue⟩

theorem pending_eq_false (hq : L.queue = [] ∨ L.dstate = .uncached) :
    L.pending = false := by
  rw [← Bool.not_eq_true]
  intro hp
  rcases hq with hq | hd
  · exact (h.pending hp).1 hq
  · exact (h.pending hp).2 hd

/-- The front request leaves the queue. -/
theorem queued_tail (hq : L.queue = r :: queueRest) (kind : ReqKind) (u : Fin N) :
    .miss kind u ∈ queueRest ↔ (L.tile u).stage = .queued kind ∧ r ≠ .miss kind u := by
  have hnodup := h.nodup
  rw [hq, nodup_cons] at hnodup
  rw [← h.queued kind u, hq, mem_cons]
  constructor
  · intro hmem
    refine ⟨.inr hmem, ?_⟩
    rintro rfl
    exact hnodup.1 hmem
  · rintro ⟨rfl | hmem, hne⟩
    · exact absurd rfl hne
    · exact hmem

theorem nodup_tail (hq : L.queue = r :: queueRest) : queueRest.Nodup := by
  have hnodup := h.nodup
  rw [hq] at hnodup
  exact hnodup.of_cons

theorem nullify_notMem (hq : L.queue = r :: queueRest) : .nullify ∉ queueRest.tail := by
  have hfirst := h.nullifyFirst
  rw [hq] at hfirst
  exact fun hmem ↦ hfirst (mem_of_mem_tail hmem)

theorem nullifyStart (hq : L.queue = []) :
    Line.Inv listed { L with queue := [.nullify] } := by
  have hp := h.pending_eq_false (.inl hq)
  refine ⟨fun u hu ↦ ?_, h.absent, h.uncached, h.shared, h.modified, h.noOwner, h.fresh,
    fun kind u ↦ ?_, by simp, by simp, fun hp' ↦ absurd hp' (by simp [hp]),
    fun _ hp' ↦ absurd hp' (by simp [hp]), fun _ hp' ↦ absurd hp' (by simp [hp])⟩
  · have hpu := h.present u hu
    rw [Line.asked_eq_none hp] at hpu
    have hasked : Line.asked { L with queue := [.nullify] } = none := Line.asked_eq_none hp
    rwa [hasked]
  · have hqu := h.queued kind u
    simp only [hq, not_mem_nil, false_iff] at hqu
    simp [hqu]

theorem nullifyDone
    (hq : L.queue = .nullify :: queueRest) (hd : L.dstate = .uncached) :
    Line.Inv listed { L with queue := queueRest, pending := false } := by
  refine ⟨fun u hu ↦ ?_, h.absent, h.uncached, h.shared, h.modified, h.noOwner, h.fresh,
    fun kind u ↦ ?_, h.nodup_tail hq, h.nullify_notMem hq, by simp, by simp, by simp⟩
  · simp [h.uncached hd] at hu
  · simpa using h.queued_tail hq kind u

/-- The front request is answered: its tile waits for the reply. -/
theorem queued_granted {k : ReqKind}
    (hq : L.queue = .miss k t :: queueRest) (hv : ∀ kind, v.stage ≠ .queued kind) (kind : ReqKind)
    (u : Fin N) :
    .miss kind u ∈ queueRest ↔ (update L.tile t v u).stage = .queued kind := by
  refine (h.queued_tail hq kind u).trans ?_
  have hst := (h.queued k t).mp (hq ▸ mem_cons_self)
  by_cases hut : u = t
  · subst hut
    simp [hst, hv]
  · simp [hut, Ne.symm hut]

/-- The tile of a queued request has heard everything the directory owes it. -/
theorem queued_view (hq : .miss kind t ∈ L.queue) :
    (L.tile t).cstate = .invalid ∧ (∀ m ∈ (L.tile t).down, m.IsReq) ∧ (L.tile t).up = [] ∧
      (L.tile t).stage = .queued kind := by
  have ha := h.absent t (h.not_mem_of_queued hq)
  have hs := (h.queued kind t).mp hq
  exact ⟨ha.cstate, ha.stale, by rw [ha.up, hs]; rfl, hs⟩

theorem grantEx
    (hq : L.queue = .miss .ex t :: queueRest) (hd : L.dstate = .uncached) :
    Line.Inv listed { L.setTile t { L.tile t with
          down := (L.tile t).down ++ [.exRep L.dram], stage := .granted .ex } with
        dstate := .modified, sharers := {t}, owner := some t, queue := queueRest
        pending := false } := by
  obtain ⟨hc, hs, hup, -⟩ := h.queued_view (hq ▸ mem_cons_self)
  have hfresh : L.dram = L.latest := h.fresh (by simp [hd])
  refine ⟨fun u hu ↦ ?_, fun u hu ↦ ?_, by simp, by simp, fun _ ↦ ⟨t, rfl, rfl⟩, by simp,
    by simp, fun kind u ↦ ?_, h.nodup_tail hq, h.nullify_notMem hq, by simp, by simp, by simp⟩
  · obtain rfl : u = t := by simpa using hu
    rw [Line.asked_eq_none rfl]
    simpa [hfresh] using present_exRep (x := L.latest) hc hs hup
  · have hut : u ≠ t := by simpa using hu
    simpa [hut] using h.absent u (by simp [h.uncached hd])
  · exact h.queued_granted hq (by simp) kind u

theorem grantSh
    (hq : L.queue = .miss .sh t :: queueRest) (hd : L.dstate ≠ .modified) :
    Line.Inv listed { L.setTile t { L.tile t with
          down := (L.tile t).down ++ [.shRep L.dram], stage := .granted .sh } with
        dstate := .shared, sharers := insert t L.sharers, queue := queueRest
        pending := false } := by
  obtain ⟨hc, hs, hup, -⟩ := h.queued_view (hq ▸ mem_cons_self)
  have hfresh : L.dram = L.latest := h.fresh hd
  refine ⟨fun u hu ↦ ?_, fun u hu ↦ ?_, by simp, fun _ ↦ by simp, by simp,
    fun _ ↦ h.noOwner hd, fun _ ↦ hfresh, fun kind u ↦ ?_, h.nodup_tail hq,
    h.nullify_notMem hq, by simp, by simp, by simp⟩
  · rw [Line.asked_eq_none rfl]
    by_cases hut : u = t
    · subst hut
      simpa [hfresh] using present_shRep (x := L.latest) hc hs hup
    · have hu' : u ∈ L.sharers := by simpa [hut] using hu
      have hd' : L.dstate = .shared := by
        cases hdu : L.dstate with
        | uncached => simp [h.uncached hdu] at hu'
        | shared => rfl
        | modified => exact absurd hdu hd
      have hpu := h.present u hu'
      rw [hd'] at hpu
      simpa [hut] using hpu.shared_ask
  · obtain ⟨hut, hu'⟩ : u ≠ t ∧ u ∉ L.sharers := by simpa using hu
    simpa [hut] using h.absent u hu'
  · exact h.queued_granted hq (by simp) kind u

/-! ### Requests of the directory -/

theorem askOwner {o : Fin N}
    (hq : L.queue = r :: queueRest) (hp : L.pending = false) (hd : L.dstate = .modified)
    (ho : L.owner = some o) : Line.Inv listed { L.send r.ownerMsg {o} with pending := true } := by
  have hS : L.sharers = {o} := by
    obtain ⟨o', ho', hS⟩ := h.modified hd
    rw [ho, Option.some.injEq] at ho'
    rwa [ho']
  have hasked : Line.asked { L.send r.ownerMsg {o} with pending := true } = some r.ownerMsg := by
    simp [Line.asked, Line.send, hq]
  refine ⟨fun u hu ↦ ?_, fun u hu ↦ (h.absent u hu).send (isReq_ownerMsg r), h.uncached, h.shared,
    h.modified, h.noOwner, h.fresh, fun kind u ↦ ?_, h.nodup, h.nullifyFirst,
    fun _ ↦ ⟨?_, ?_⟩, fun _ _ hd' ↦ ?_, fun _ _ hd' ↦ ?_⟩
  · obtain rfl : u = o := by
      change u ∈ L.sharers at hu
      simpa [hS] using hu
    have hpu := h.present u (by simp [hS])
    rw [hd, Line.asked_eq_none hp] at hpu
    rw [hasked]
    change Present L.dstate _ L.latest ((L.send r.ownerMsg {u}).tile u)
    rw [hd, Line.send_tile_of_mem (Finset.mem_singleton_self u)]
    exact hpu.snoc_ownerMsg r
  · simpa using h.queued kind u
  · simp [hq]
  · change L.dstate ≠ .uncached
    simp [hd]
  · exact absurd (hd.symm.trans hd') (by simp)
  · exact absurd (hd.symm.trans hd') (by simp)

/-- INV_REQs may be sent to any tiles while the line is shared, if those due are among them. -/
theorem sendInvReq (hq : L.queue ≠ []) (hd : L.dstate = .shared)
    (hall : listed → L.frontSh = false → L.sharers ⊆ targets)
    (hone : listed → L.frontSh = true → (L.sharers ∩ targets).Nonempty) :
    Line.Inv listed { L.send .invReq targets with pending := true } := by
  refine ⟨fun u hu ↦ ?_, fun u hu ↦ (h.absent u hu).send trivial, h.uncached, h.shared,
    h.modified, h.noOwner, h.fresh, fun kind u ↦ ?_, h.nodup, h.nullifyFirst,
    fun _ ↦ ⟨hq, ?_⟩, fun hl _ _ hf u hu ↦ Line.invDue_send (hall hl hf hu),
    fun hl _ _ hf ↦ ?_⟩
  · change Present L.dstate _ L.latest ((L.send .invReq targets).tile u)
    have hpu := h.present u hu
    rw [hd] at hpu ⊢
    by_cases ht : u ∈ targets
    · rw [Line.send_tile_of_mem ht]
      exact hpu.snoc_invReq
    · rw [Line.send_tile_of_notMem ht]
      exact hpu.shared_ask
  · simpa using h.queued kind u
  · change L.dstate ≠ .uncached
    simp [hd]
  · obtain ⟨u, hu⟩ := hone hl hf
    exact ⟨u, (Finset.mem_inter.mp hu).1, Line.invDue_send (Finset.mem_inter.mp hu).2⟩

/-! ### Replies to the directory -/

theorem invRep (hu : (L.tile t).up = .invRep :: rest) (hd : L.dstate = .shared) :
    Line.Inv listed { L.setTile t { L.tile t with up := rest } with
        sharers := L.sharers.erase t
        dstate := if L.sharers.erase t = ∅ then .uncached else .shared
        pending := L.pending && decide (L.sharers.erase t ≠ ∅) && !L.frontSh } := by
  have ht : t ∈ L.sharers := h.mem_of_answer hu (by simp)
  have hpt := h.present t ht
  rw [hd] at hpt
  have hgone := hpt.invRep hu
  have hnot : L.dstate ≠ .modified := by simp [hd]
  refine ⟨fun u hu' ↦ ?_, fun u hu' ↦ ?_, fun hd' ↦ ?_, fun hd' ↦ ?_, fun hd' ↦ ?_,
    fun _ ↦ h.noOwner hnot, fun _ ↦ h.fresh hnot, fun kind u ↦ ?_, h.nodup, h.nullifyFirst,
    fun hp ↦ ?_, fun hl hp hd' hf u hu' ↦ ?_, fun hl hp hd' hf ↦ ?_⟩
  · obtain ⟨hut, hmem⟩ := Finset.mem_erase.mp hu'
    have hpu := h.present u hmem
    rw [hd] at hpu
    have hne : L.sharers.erase t ≠ ∅ := Finset.ne_empty_of_mem hu'
    simpa [hut, hne] using hpu.shared_ask
  · by_cases hut : u = t
    · subst hut
      simpa using hgone
    · have hmem : u ∉ L.sharers := by simpa [hut] using hu'
      simpa [hut] using h.absent u hmem
  · by_contra hne
    simp [hne] at hd'
  · rw [Finset.nonempty_iff_ne_empty]
    intro he
    change L.sharers.erase t = ∅ at he
    simp [he] at hd'
  · split_ifs at hd'
  · exact h.queued_setTile (by rfl) kind u
  · obtain ⟨⟨hp, hne⟩, -⟩ : (L.pending = true ∧ L.sharers.erase t ≠ ∅) ∧ L.frontSh = false := by
      simpa using hp
    exact ⟨(h.pending hp).1, by simp [hne]⟩
  · obtain ⟨⟨hp, -⟩, hfr⟩ : (L.pending = true ∧ L.sharers.erase t ≠ ∅) ∧ L.frontSh = false := by
      simpa using hp
    obtain ⟨hut, hmem⟩ := Finset.mem_erase.mp hu'
    simpa [hut] using h.waitAll hl hp hd hfr u hmem
  · obtain ⟨-, hfr⟩ : (L.pending = true ∧ L.sharers.erase t ≠ ∅) ∧ L.frontSh = false := by
      simpa using hp
    exact absurd (hfr.symm.trans hf) (by simp)

theorem sharers_eq (hd : L.dstate = .modified) (ht : t ∈ L.sharers) :
    L.sharers = {t} := by
  obtain ⟨o, -, hS⟩ := h.modified hd
  obtain rfl : t = o := by simpa [hS] using ht
  exact hS

theorem flushRep (hu : (L.tile t).up = .flushRep x :: rest) :
    Line.Inv listed { L.setTile t { L.tile t with up := rest } with
        sharers := L.sharers.erase t, owner := none, dstate := .uncached, pending := false
        dram := x } := by
  have ht : t ∈ L.sharers := h.mem_of_answer hu (by simp)
  obtain ⟨rfl, hd, hgone⟩ := (h.present t ht).flushRep hu
  have hS := h.sharers_eq hd ht
  refine ⟨fun u hu' ↦ ?_, fun u _ ↦ ?_, fun _ ↦ ?_, by simp, by simp, fun _ ↦ rfl, fun _ ↦ rfl,
    fun kind u ↦ ?_, h.nodup, h.nullifyFirst, by simp, by simp, by simp⟩
  · simp [hS] at hu'
  · by_cases hut : u = t
    · subst hut
      simpa using hgone
    · simpa [hut] using h.absent u (by simpa [hS] using hut)
  · simp [hS]
  · exact h.queued_setTile (by rfl) kind u

theorem flushForward {t u : Fin N}
    (hu : (L.tile t).up = .flushRep x :: rest) (hq : L.queue = .miss .ex u :: queueRest)
    (hut : u ≠ t) :
    Line.Inv listed { (L.setTile t { L.tile t with up := rest }).setTile u { L.tile u with
          down := (L.tile u).down ++ [.exRep x], stage := .granted .ex } with
        sharers := {u}, owner := some u, pending := false, queue := queueRest } := by
  have ht : t ∈ L.sharers := h.mem_of_answer hu (by simp)
  obtain ⟨rfl, hd, hgone⟩ := (h.present t ht).flushRep hu
  have hS := h.sharers_eq hd ht
  obtain ⟨hc, hs, hup, hst⟩ := h.queued_view (hq ▸ mem_cons_self)
  have hdne {p : Prop} (hd' : L.dstate ≠ .modified) : p := absurd hd hd'
  refine ⟨fun w hw ↦ ?_, fun w hw ↦ ?_, fun hd' ↦ ?_, fun _ ↦ by simp, fun _ ↦ ⟨u, rfl, rfl⟩,
    fun hd' ↦ hdne hd', fun hd' ↦ hdne hd', fun kind w ↦ ?_, h.nodup_tail hq,
    h.nullify_notMem hq, by simp, by simp, by simp⟩
  · obtain rfl : w = u := by simpa using hw
    rw [Line.asked_eq_none rfl]
    simpa [hd] using present_exRep (x := L.latest) hc hs hup
  · have hwu : w ≠ u := by simpa using hw
    by_cases hwt : w = t
    · subst hwt
      simpa [hwu] using hgone
    · simpa [hwu, hwt] using h.absent w (by simpa [hS] using hwt)
  · exact absurd (hd.symm.trans hd') (by simp)
  · refine (h.queued_tail hq kind w).trans ?_
    by_cases hwu : w = u
    · subst hwu
      simp [hst]
    · by_cases hwt : w = t
      · subst hwt
        simp [hwu, Ne.symm hwu]
      · simp [hwu, hwt, Ne.symm hwu]

theorem wbRep (hu : (L.tile t).up = .wbRep x :: rest) :
    Line.Inv listed { L.setTile t { L.tile t with up := rest } with
        owner := none, dstate := .shared, pending := false, dram := x } := by
  have ht : t ∈ L.sharers := h.mem_of_answer hu (by simp)
  have hrep : x = L.latest ∧ L.dstate = .modified ∧ Present .shared none L.latest _ :=
    (h.present t ht).wbRep hu
  obtain ⟨rfl, hd, hkept⟩ := hrep
  have hS := h.sharers_eq hd ht
  refine ⟨fun u hu' ↦ ?_, fun u hu' ↦ ?_, by simp, fun _ ↦ ⟨t, ht⟩, by simp, fun _ ↦ rfl,
    fun _ ↦ rfl, fun kind u ↦ ?_, h.nodup, h.nullifyFirst, by simp, by simp, by simp⟩
  · obtain rfl : u = t := by simpa [hS] using hu'
    rw [Line.asked_eq_none rfl]
    simpa using hkept
  · have hut : u ≠ t := by simpa [hS] using hu'
    simpa [hut] using h.absent u (by simpa [hS] using hut)
  · exact h.queued_setTile (by rfl) kind u

/-! ### Every step, every run -/

/-- Every step of a line keeps the invariant. -/
theorem step (hstep : L.Step listed L') : L'.Inv listed := by
  cases hstep with
  | write t x hm => exact h.write hm x
  | ask t kind hs hc => exact h.ask hs hc
  | request t kind hs hc => exact h.request hs hc
  | drop t hs hc | evictClean t hs hc => exact h.giveUpShared hc (suffix_refl _)
  | evictDirty t hs hc => exact h.giveUpModified hc (suffix_refl _)
  | ignore t m rest hm hd hc =>
    have hreq : m.IsReq := by rcases hm with rfl | rfl | rfl <;> trivial
    exact h.ignore hreq hd hc
  | invalidate t rest hd hc => exact h.giveUpShared hc (hd ▸ suffix_cons _ _)
  | flush t rest hd hc => exact h.giveUpModified hc (hd ▸ suffix_cons _ _)
  | writeBack t rest hd hc => exact h.writeBack hd hc
  | fillEx t x rest hd => exact h.fillEx hd
  | fillSh t x rest hd => exact h.fillSh hd
  | enqueue t kind rest hu => exact h.enqueue hu
  | nullifyStart hq => exact h.nullifyStart hq
  | nullifyDone rest hq hd => exact h.nullifyDone hq hd
  | grantEx t rest hq hd => exact h.grantEx hq hd
  | grantSh t rest hq hd => exact h.grantSh hq hd
  | askOwner o r rest hq hp hd ho => exact h.askOwner hq hp hd ho
  | invSharers targets r rest hq hr hd he =>
    have hf : L.frontSh = false := by simp [Line.frontSh, hq, hr]
    exact h.sendInvReq (by simp [hq]) hd (fun hl _ ↦ he hl) (by simp [hf])
  | invOne targets t rest hq hd he =>
    have hf : L.frontSh = true := by simp [Line.frontSh, hq, LineReq.isSh]
    exact h.sendInvReq (by simp [hq]) hd (by simp [hf]) fun hl _ ↦ he hl
  | invRep t rest hu hd => exact h.invRep hu hd
  | flushRep t x rest hu hd => exact h.flushRep hu
  | flushForward t u x rest qrest hu hd hq hut => exact h.flushForward hu hq hut
  | wbRep t x rest hu hd => exact h.wbRep hu

/-- Every run of a line keeps the invariant. -/
theorem run (hrun : Relation.ReflTransGen (Line.Step listed) L L') :
    L'.Inv listed := by
  induction hrun with
  | refl => exact h
  | tail _ hstep ih => exact ih.step hstep

/-! ### What the messages of a tile tell about its miss -/

/-- Whoever has sent a request for the line waits for it. -/
theorem stage_of_req (hm : .req kind ∈ (L.tile t).up) :
    (L.tile t).stage = .requested kind := by
  have htail (stage : Stage) (hs : (.req kind : UpMsg V) ∈ stage.upTail) :
      stage = .requested kind := by
    cases stage <;> simp_all [Stage.upTail]
  by_cases ht : t ∈ L.sharers
  · have hp := h.present t ht
    generalize L.tile t = v at hm hp
    cases hp with
    | incomingSh | incomingEx | heldSh | heldEx | heldWb => simp at hm
    | leavingSh w down stage | leavingWb w stage | leavingEx w down stage =>
      exact htail stage (by simpa using hm)
  · have ha := h.absent t ht
    rw [ha.up] at hm
    exact htail _ hm

/-- The line is granted to whomever a reply is sent, and the copy is not there yet. -/
theorem stage_of_rep (hm : m ∈ (L.tile t).down) (hrep : ¬ m.IsReq) :
    (L.tile t).cstate = .invalid ∧ ((∃ x, m = .exRep x) ∧ (L.tile t).stage = .granted .ex ∨
      (∃ x, m = .shRep x) ∧ (L.tile t).stage = .granted .sh) := by
  by_cases ht : t ∈ L.sharers
  · have hask := L.isReq_of_mem_asked
    rcases (h.present t ht).reply_or_isReq hask with
      ⟨w, stale, live, -, hs, hl, hv⟩ | ⟨w, stale, -, hs, hv⟩ | hreq
    · rw [hv] at hm ⊢
      refine ⟨rfl, .inr ⟨?_, rfl⟩⟩
      rcases mem_append.mp hm with hm | hm
      · exact absurd (hs m hm) hrep
      · rcases mem_cons.mp hm with rfl | hm
        · exact ⟨_, rfl⟩
        · rw [hl m hm] at hrep
          exact absurd trivial hrep
    · rw [hv] at hm ⊢
      refine ⟨rfl, .inl ⟨?_, rfl⟩⟩
      rcases mem_append.mp hm with hm | hm
      · exact absurd (hs m hm) hrep
      · rcases mem_cons.mp hm with rfl | hm
        · exact ⟨_, rfl⟩
        · exact absurd (hask m (by simpa using hm)) hrep
    · exact absurd (hreq m hm) hrep
  · exact absurd ((h.absent t ht).stale m hm) hrep

/-- A copy that can be read is the last value written. -/
theorem cval (hc : (L.tile t).cstate ≠ .invalid) :
    t ∈ L.sharers ∧ (L.tile t).cval = L.latest := by
  by_cases ht : t ∈ L.sharers
  · exact ⟨ht, (h.present t ht).cval hc⟩
  · exact absurd (h.absent t ht).cstate hc

/-- An INV_REQ never finds a modified copy. -/
theorem not_modified_of_invReq
    (hd : (L.tile t).down = .invReq :: downRest) : (L.tile t).cstate ≠ .modified := by
  intro hc
  obtain ⟨ht, -⟩ := h.cval (t := t) (by simp [hc])
  obtain ⟨-, hv⟩ := (h.present t ht).of_modified hc
  rw [hv] at hd
  have hask : L.asked = some .invReq := by
    cases ha : L.asked with
    | none => simp [ha] at hd
    | some m =>
      have heq : m = .invReq ∧ downRest = [] := by simpa [ha] using hd
      rw [heq.1]
  obtain ⟨r, -, hr⟩ := exists_of_asked hask
  unfold LineReq.ownerMsg at hr
  split_ifs at hr

/-- A FLUSH_REQ or WB_REQ never finds a shared copy. -/
theorem not_shared_of_ownerMsg
    (hm : m = .flushReq ∨ m = .wbReq) (hd : (L.tile t).down = m :: downRest) :
    (L.tile t).cstate ≠ .shared := by
  intro hc
  obtain ⟨ht, -⟩ := h.cval (t := t) (by simp [hc])
  have hp := h.present t ht
  generalize L.tile t = v at hd hc hp
  cases hp with
  | heldSh live stage hd' hl hst =>
    have hinv := hl m (by simp [show live = m :: downRest from hd])
    rcases hm with rfl | rfl <;> simp at hinv
  | heldWb => simp at hd
  | incomingSh | incomingEx | heldEx | leavingSh | leavingWb | leavingEx => simp at hc

/-- An INV_REP comes from a sharer of a shared line. -/
theorem shared_of_invRep (hu : (L.tile t).up = .invRep :: rest) :
    t ∈ L.sharers ∧ L.dstate = .shared := by
  have ht : t ∈ L.sharers := h.mem_of_answer hu (by simp)
  have hp := h.present t ht
  generalize L.tile t = v at hu hp
  refine ⟨ht, ?_⟩
  cases hp with
  | leavingSh w down stage hd hs hst => exact hd
  | incomingSh | incomingEx | heldSh | heldEx | heldWb | leavingWb | leavingEx => simp at hu

/-- A FLUSH_REP comes from the owner of a modified line. -/
theorem modified_of_flushRep
    (hu : (L.tile t).up = .flushRep x :: rest) : t ∈ L.sharers ∧ L.dstate = .modified := by
  have ht : t ∈ L.sharers := h.mem_of_answer hu (by simp)
  exact ⟨ht, ((h.present t ht).flushRep hu).2.1⟩

/-- A WB_REP comes from the owner of a modified line for which an SH_REQ waits. -/
theorem modified_of_wbRep (hu : (L.tile t).up = .wbRep x :: rest) :
    t ∈ L.sharers ∧ L.dstate = .modified ∧ ∃ u qrest, L.queue = .miss .sh u :: qrest := by
  have ht : t ∈ L.sharers := h.mem_of_answer hu (by simp)
  have hp := h.present t ht
  have hask : L.dstate = .modified ∧ L.asked = some .wbReq := by
    generalize L.tile t = v at hu hp
    cases hp with
    | heldWb stage hd ha hst | leavingWb w stage hd ha hst => exact ⟨hd, ha⟩
    | incomingSh | incomingEx | heldSh | heldEx | leavingSh | leavingEx => simp at hu
  refine ⟨ht, hask.1, ?_⟩
  obtain ⟨r, hr, hmsg⟩ := exists_of_asked hask.2
  obtain ⟨qrest, hq⟩ := head?_eq_some_iff.mp hr
  unfold LineReq.ownerMsg at hmsg
  split_ifs at hmsg with hsh
  unfold LineReq.isSh at hsh
  split at hsh
  · exact ⟨_, qrest, hq⟩
  · simp at hsh

/-- The recorded tiles are those that hold the line, are about to receive it, or have sent notice
that they have given it up. -/
theorem mem_sharers_iff (t : Fin N) :
    t ∈ L.sharers ↔ (L.tile t).cstate ≠ .invalid ∨ (∃ m ∈ (L.tile t).down, ¬ m.IsReq) ∨
      .invRep ∈ (L.tile t).up ∨ ∃ x, .flushRep x ∈ (L.tile t).up := by
  constructor
  · intro ht
    have hp := h.present t ht
    generalize L.tile t = v at hp
    cases hp with
    | incomingSh w stale live hd hs hl => exact .inr (.inl ⟨.shRep L.latest, by simp, id⟩)
    | incomingEx w stale hd hs => exact .inr (.inl ⟨.exRep L.latest, by simp, id⟩)
    | heldSh | heldEx | heldWb => exact .inl (by simp)
    | leavingSh | leavingWb => exact .inr (.inr (.inl (by simp)))
    | leavingEx => exact .inr (.inr (.inr ⟨L.latest, by simp⟩))
  · intro hv
    by_contra ht
    have ha := h.absent t ht
    rcases hv with hc | ⟨m, hm, hrep⟩ | hup | ⟨x, hup⟩
    · exact hc ha.cstate
    · exact hrep (ha.stale m hm)
    · exact ht (h.mem_of_up hup (by simp))
    · exact ht (h.mem_of_up hup (by simp))

end Line.Inv

end CarbonSim.Msi
