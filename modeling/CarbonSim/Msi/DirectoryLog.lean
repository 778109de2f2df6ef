import CarbonSim.Msi.DirectoryMessages

/-!
# What a directory sends

The messages of one call of a handler of the directory, whatever the state of the caches. The handler
answers requests of one line, each one once and in the order of the queue, and what it does not
answer stays in the queue. Whatever it asks of a tile is asked for the request at the front of a
queue, so no two requests of a line are in progress at a time.
-/

namespace CarbonSim.Msi

open Directory List

variable {A : Type} {N : ℕ} {cfg : Config A N} {env : Env A}
  {d d' d'' : Dir A N} {a b : A} {req : ShmemReq A N} {rest : List (ShmemReq A N)} {e : Entry}
  {ext ext' : List (Send A N)} {q q' : List (ShmemReq A N)} {x : Send A N} {ws : List (LineReq N)}

/-- The requests of tiles in a queue. -/
def waiting (q : List (ShmemReq A N)) : List (LineReq N) :=
  (q.map ShmemReq.toLine).filter fun r ↦ r ≠ .nullify

/-- The message asks a tile for line `a`. -/
def Send.IsRecall (a : A) (x : Send A N) : Prop :=
  x.packet.msg.route = .fromDirectory ∧ x.packet.msg.address = a ∧
    (x.packet.msg.type = .invReq ∨ x.packet.msg.type = .flushReq ∨ x.packet.msg.type = .wbReq)

/-- The request that a message to the directory is, if it is one. -/
def ShmemMsg.asks (m : ShmemMsg A N) : List (LineReq N) :=
  match m.type with
  | .exReq => [.miss .ex m.requester]
  | .shReq => [.miss .sh m.requester]
  | _ => []

/-- The front request of a queue is one of tile `t`, or on behalf of it. -/
def FrontOf (q : List (ShmemReq A N)) (t : Fin N) : Prop :=
  q.head?.map ShmemReq.requester = some t

theorem Recalls.requester (h : Recalls req ext) (hx : x ∈ ext) (hb : x.IsRecall b) :
    b = req.address ∧ x.packet.msg.requester = req.requester := by
  obtain ⟨type, -, hmsg⟩ := h x hx
  refine ⟨?_, by rw [hmsg]; rfl⟩
  rw [← hb.2.1, hmsg]
  rfl

theorem FrontOf.ne_nil {q : List (ShmemReq A N)} {t : Fin N} (h : FrontOf q t) : q ≠ [] := by
  rintro rfl
  simp [FrontOf] at h

/-- The queue of a line that has none of the requests served: it is unchanged, or had no request and
now has a NULLIFY. -/
def OnlyNullify (q q' : List (ShmemReq A N)) : Prop :=
  q' = q ∨ q = [] ∧ ∃ r, q' = [r] ∧ r.toLine = .nullify

theorem OnlyNullify.waiting (h : OnlyNullify q q') : waiting q' = waiting q := by
  rcases h with rfl | ⟨rfl, r, rfl, hr⟩
  · rfl
  · simp [Msi.waiting, hr]

theorem OnlyNullify.trans {q q' q'' : List (ShmemReq A N)} (h : OnlyNullify q q')
    (h' : OnlyNullify q' q'') : OnlyNullify q q'' := by
  rcases h with rfl | ⟨rfl, r, rfl, hr⟩
  · exact h'
  · rcases h' with rfl | ⟨h', -⟩
    · exact .inr ⟨rfl, r, rfl, hr⟩
    · simp at h'

theorem OnlyNullify.front (h : OnlyNullify q q') {t : Fin N} (hf : FrontOf q t) : FrontOf q' t := by
  rcases h with rfl | ⟨rfl, -⟩
  · exact hf
  · exact absurd rfl hf.ne_nil

variable [DecidableEq A]

/-! ### Answers and recalls -/

/-- The request of tile `t` for line `a` that a message to the tile answers. -/
def ShmemMsg.answers (a : A) (t : Fin N) (m : ShmemMsg A N) : Option (LineReq N) :=
  if m.route = .fromDirectory ∧ m.address = a then
    match m.type with
    | .exRep => some (.miss .ex t)
    | .shRep => some (.miss .sh t)
    | _ => none
  else none

/-- The request for line `a` that a message answers. -/
def Send.answered (a : A) (x : Send A N) : Option (LineReq N) :=
  x.packet.msg.answers a x.receiver

/-- The requests for line `a` that some messages answer. -/
def answered (a : A) (sends : List (Send A N)) : List (LineReq N) := sends.filterMap (Send.answered a)

theorem answered_append (a : A) (xs ys : List (Send A N)) :
    answered a (xs ++ ys) = answered a xs ++ answered a ys := filterMap_append

theorem Recalls.answered (h : Recalls req ext) (b : A) : answered b ext = [] := by
  refine filterMap_eq_nil_iff.mpr fun x hx ↦ ?_
  obtain ⟨type, htype, hmsg⟩ := h x hx
  unfold Send.answered ShmemMsg.answers
  rw [hmsg]
  rcases htype with rfl | rfl | rfl <;> simp [Dir.message]

/-! ### One attempt -/

/-- Part of a handler that leaves the queue of line `a` alone: the requests of the line that it
answers are `rs`, and if it asks a tile for the line then `waits` holds. -/
structure Dir.Attempt (a : A) (rs : List (LineReq N)) (waits : Prop) (d d' : Dir A N) : Prop where
  queue : d'.queue a = d.queue a
  others : ∀ b, b ≠ a → OnlyNullify (d.queue b) (d'.queue b)
  sends : ∃ ext, d'.out = d.out ++ ext ∧ (∀ b, answered b ext = if b = a then rs else []) ∧
    ∀ x ∈ ext, ∀ b, x.IsRecall b → (b = a → waits) ∧ FrontOf (d'.queue b) x.packet.msg.requester

namespace Dir

variable {w : Prop}

theorem Attempt.silent (hqueue : d'.queue = d.queue) (hout : d'.out = d.out) :
    Attempt a [] w d d' := by
  refine ⟨congrFun hqueue a, fun b _ ↦ .inl (congrFun hqueue b), [], by simp [hout], ?_, by simp⟩
  intro b
  split_ifs <;> rfl

theorem Attempt.trans {rs rs' : List (LineReq N)} {w w' : Prop} (h : Attempt a rs w d d')
    (h' : Attempt a rs' w' d' d'') : Attempt a (rs ++ rs') (w ∨ w') d d'' := by
  obtain ⟨ext, hout, hans, hrec⟩ := h.sends
  obtain ⟨ext', hout', hans', hrec'⟩ := h'.sends
  refine ⟨h'.queue.trans h.queue, fun b hb ↦ (h.others b hb).trans (h'.others b hb), ext ++ ext',
    by rw [hout', hout, append_assoc], fun b ↦ ?_, fun x hx b hb ↦ ?_⟩
  · rw [answered_append, hans, hans']
    split_ifs <;> rfl
  · rcases mem_append.mp hx with hx | hx
    · obtain ⟨hw, hfront⟩ := hrec x hx b hb
      refine ⟨fun hba ↦ .inl (hw hba), ?_⟩
      by_cases hba : b = a
      · subst hba
        rw [h'.queue]
        exact hfront
      · exact (h'.others b hba).front hfront
    · obtain ⟨hw, hfront⟩ := hrec' x hx b hb
      exact ⟨fun hba ↦ .inr (hw hba), hfront⟩

variable {rs : List (LineReq N)}

/-- What comes before an attempt and answers nothing of the line. -/
theorem Attempt.after (h' : Attempt a rs w d' d'') (h : Attempt a [] False d d') :
    Attempt a rs w d d'' := by
  have htrans := h.trans h'
  rwa [nil_append, false_or] at htrans

/-- The request waits for tiles that have been asked for the line. -/
theorem Attempt.wait (hqueue : d'.queue = d.queue) (hout : d'.out = d.out ++ ext)
    (hrecalls : Recalls req ext) (hfront : FrontOf (d.queue req.address) req.requester) :
    Attempt req.address [] True d d' := by
  refine ⟨congrFun hqueue _, fun b _ ↦ .inl (congrFun hqueue b), ext, hout, fun b ↦ ?_,
    fun x hx b hb ↦ ?_⟩
  · rw [hrecalls.answered, ite_self]
  · obtain ⟨rfl, hreq⟩ := hrecalls.requester hx hb
    rw [hqueue, hreq]
    exact ⟨fun _ ↦ trivial, hfront⟩

/-- The request is answered. -/
theorem Attempt.answer {r : LineReq N} (hqueue : d'.queue = d.queue) (hout : d'.out = d.out ++ [x])
    (hroute : x.packet.msg.route = .fromDirectory) (hx : x.answered x.packet.msg.address = some r) :
    Attempt x.packet.msg.address [r] w d d' := by
  have hrep : x.packet.msg.type = .exRep ∨ x.packet.msg.type = .shRep := by
    unfold Send.answered ShmemMsg.answers at hx
    rw [if_pos ⟨hroute, rfl⟩] at hx
    split at hx <;> simp_all
  refine ⟨congrFun hqueue _, fun b _ ↦ .inl (congrFun hqueue b), [x], hout, fun b ↦ ?_,
    fun y hy b hb ↦ ?_⟩
  · by_cases hb : b = x.packet.msg.address
    · subst hb
      simp [answered, hx]
    · rw [if_neg hb]
      refine filterMap_eq_nil_iff.mpr fun y hy ↦ ?_
      rw [mem_singleton.mp hy, Send.answered, ShmemMsg.answers, if_neg fun h ↦ hb h.2.symm]
  · rw [mem_singleton.mp hy] at hb
    obtain ⟨-, -, htype⟩ := hb
    rcases hrep with hrep | hrep <;> simp [hrep] at htype

/-! ### The functions of the directory -/

theorem getDirectoryEntry_silent (cfg : Config A N) (d : Dir A N) (b : A) :
    Attempt a [] False d (d.getDirectoryEntry cfg b).2 := .silent rfl rfl

omit [DecidableEq A] in
theorem sendMsg_recalls {type : MsgType} (htype : type = .invReq ∨ type = .flushReq ∨ type = .wbReq)
    (d : Dir A N) (z : ℤ) (req : ShmemReq A N) :
    Yields (d.sendMsg z (message type req none))
      (fun d' ↦ ∃ ext, Recalls req ext ∧ d' = { d with out := d.out ++ ext }) := by
  refine (d.sendMsg_outcome z _).mono ?_ fun _ _ ↦ trivial
  rintro d' ⟨t, -, rfl⟩
  refine ⟨_, fun y hy ↦ ⟨type, htype, ?_⟩, rfl⟩
  rw [mem_singleton.mp hy]

omit [DecidableEq A] in
theorem sendInvReqs_recalls (d : Dir A N) (e : Entry) (req : ShmemReq A N) :
    Yields (d.sendInvReqs e req)
      (fun d' ↦ ∃ ext, Recalls req ext ∧ d' = { d with out := d.out ++ ext }) := by
  have hto (ts : List (Fin N)) (c : ℕ) :
      Recalls req (ts.map fun t ↦ ⟨t, ⟨message .invReq req none, c⟩⟩) := by
    intro y hy
    obtain ⟨t, -, rfl⟩ := mem_map.mp hy
    exact ⟨.invReq, .inl rfl, rfl⟩
  unfold Dir.sendInvReqs
  refine .skip fun ⟨all, list⟩ ↦ ?_
  dsimp only
  split_ifs
  · exact ⟨_, hto _ _, rfl⟩
  · refine (sendEach_outcome _ _ _).mono ?_ fun _ _ ↦ trivial
    rintro d' ⟨ts, -, rfl⟩
    exact ⟨_, hto _ _, rfl⟩

/-- A NULLIFY sends no reply: it is done, or waits. -/
theorem processNullifyReq_recalls (cfg : Config A N) (d : Dir A N) (req : ShmemReq A N) :
    Yields (d.processNullifyReq cfg req)
      (fun r ↦ r.1.queue = d.queue ∧ ∃ ext, Recalls req ext ∧ r.1.out = d.out ++ ext ∧
        (r.2 = true → ext = [])) := by
  unfold Dir.processNullifyReq
  refine .lookup fun e _ ↦ ?_
  split
  · refine .bind (sendMsg_recalls (by simp) _ _ _) ?_
    rintro d' ⟨ext, hext, rfl⟩
    exact ⟨rfl, ext, hext, rfl, by simp⟩
  · refine .bind (sendInvReqs_recalls _ _ _) ?_
    rintro d' ⟨ext, hext, rfl⟩
    exact ⟨rfl, ext, hext, rfl, by simp⟩
  · exact .skip fun c ↦ ⟨rfl, [], by simp [Recalls], (append_nil _).symm, fun _ ↦ rfl⟩
  · trivial

theorem processDirectoryEntryAllocationReq_attempt (cfg : Config A N) (d : Dir A N)
    (req : ShmemReq A N) (hbusy : d.queue req.address ≠ []) :
    Yields (d.processDirectoryEntryAllocationReq cfg req) (Attempt req.address [] False d) := by
  unfold Dir.processDirectoryEntryAllocationReq
  refine .check fun _ ↦ ?_
  refine .lookup ?_
  rintro ⟨v, e⟩ hv
  -- the victim has no request, so it is another line
  have hidle : d.queue v = [] := by
    rcases mem_of_foldl_betterCandidate hv with hv | ⟨-, hcount⟩
    · simp at hv
    · exact length_eq_zero_iff.mp hcount
  have hne : v ≠ req.address := fun h ↦ hbusy (h ▸ hidle)
  refine .skip fun cache ↦ ?_
  refine .check fun _ ↦ ?_
  refine .bind (processNullifyReq_recalls cfg _ _) ?_
  rintro ⟨d₁, completed⟩ ⟨hqueue, ext, hext, hout, hnone⟩
  have hout : d₁.out = d.out ++ ext := hout
  have hq (b : A) : d₁.queue b = if b = v then
      [⟨.nullifyReq, req.requester, v, cfg.capacityModeled, d.clock⟩] else d.queue b := by
    have hb := congrFun hqueue b
    simp only [enqueue, setQueue, hidle, nil_append] at hb
    rw [hb]
    by_cases hbv : b = v
    · subst hbv
      simp
    · simp [hbv]
  dsimp only
  split_ifs with hdone
  · unfold dequeue
    rw [hq v, if_pos rfl]
    refine .silent (funext fun b ↦ ?_) ?_
    · simp only [setQueue]
      by_cases hbv : b = v
      · subst hbv
        simp [hidle]
      · simp [hbv, hq b]
    · rw [setQueue, hout, hnone hdone, append_nil]
  · refine ⟨by rw [hq, if_neg hne.symm], fun b hb ↦ ?_, ext, hout, fun b ↦ ?_, fun x hx b hb ↦ ?_⟩
    · rw [hq]
      split_ifs with hbv
      · subst hbv
        exact .inr ⟨hidle, _, rfl, rfl⟩
      · exact .inl rfl
    · rw [hext.answered, ite_self]
    · obtain ⟨rfl, hreq⟩ := hext.requester hx hb
      refine ⟨fun h ↦ hne h, ?_⟩
      rw [hq, if_pos rfl, hreq]
      rfl

theorem entryFor_attempt (cfg : Config A N) (d : Dir A N) (req : ShmemReq A N)
    (hbusy : d.queue req.address ≠ []) :
    Yields (d.entryFor cfg req) (fun r ↦ Attempt req.address [] False d r.2) := by
  have hget := getDirectoryEntry_silent (a := req.address) cfg d req.address
  have hqueue : (d.getDirectoryEntry cfg req.address).2.queue = d.queue := rfl
  unfold Dir.entryFor
  generalize d.getDirectoryEntry cfg req.address = r at hget hqueue
  obtain ⟨_ | e, d₁⟩ := r
  · refine .bind (processDirectoryEntryAllocationReq_attempt cfg d₁ req ?_) fun d₂ h₂ ↦ ?_
    · rw [show d₁.queue = d.queue from hqueue]
      exact hbusy
    · exact h₂.after hget
  · exact hget

/-- A request is completed, or waits for tiles that have been asked for the line. -/
def Tries (d : Dir A N) (req : ShmemReq A N) (r : Dir A N × Bool) : Prop :=
  Attempt req.address (if r.2 then waiting [req] else []) (r.2 = false) d r.1

theorem Tries.wait (hqueue : d'.queue = d.queue) (hout : d'.out = d.out ++ ext)
    (hrecalls : Recalls req ext) (hfront : FrontOf (d.queue req.address) req.requester) :
    d.Tries req (d', false) := by
  have h := Attempt.wait hqueue hout hrecalls hfront
  unfold Tries
  simpa using h

theorem Tries.done (hrs : waiting [req] = rs) (h : Attempt req.address rs (true = false) d d') :
    d.Tries req (d', true) := by
  subst hrs
  exact h

theorem retrieveData_tries {type : MsgType} (hans : type = .exRep ∧ req.type = .exReq ∨
    type = .shRep ∧ req.type = .shReq) (d : Dir A N) (cachedData : Option Block)
    (hqueue : d'.queue = d.queue) (hout : d'.out = d.out) :
    Yields (d'.retrieveDataAndSendToL2Cache env type req cachedData)
      (fun d'' ↦ d.Tries req (d'', true)) := by
  obtain ⟨c, -, heq⟩ := d'.retrieveDataAndSendToL2Cache_eq env type req cachedData
  rw [heq]
  have hanswered : Send.answered req.address ⟨req.requester, ⟨message type req
      (some (cachedData.getD ((d'.dram req.address).getD .zero))), c⟩⟩ = some req.toLine := by
    rcases hans with ⟨rfl, hr⟩ | ⟨rfl, hr⟩ <;>
      simp [Send.answered, ShmemMsg.answers, message, ShmemReq.toLine, hr]
  have hwaits : waiting [req] = [req.toLine] := by
    rcases hans with ⟨-, hr⟩ | ⟨-, hr⟩ <;> simp [waiting, ShmemReq.toLine, hr]
  have hsilent : Attempt req.address [] False d d' := .silent hqueue hout
  refine .done hwaits (Attempt.after ?_ hsilent)
  refine .answer ?_ ?_ rfl hanswered
  · rfl
  · rfl

theorem Tries.after {r : Dir A N × Bool} (h' : d'.Tries req r)
    (h : Attempt req.address [] False d d') : d.Tries req r := Attempt.after h' h

section Front

variable (hfront : FrontOf (d.queue req.address) req.requester)

include hfront

theorem serveExReq_tries (hreq : req.type = .exReq) (cachedData : Option Block) :
    Yields (d.serveExReq cfg env e req cachedData) (d.Tries req) := by
  unfold Dir.serveExReq
  split
  · refine .check fun _ ↦ ?_
    refine .bind (sendMsg_recalls (by simp) _ _ _) ?_
    rintro d' ⟨ext, hext, rfl⟩
    exact .wait rfl rfl hext hfront
  · refine .check fun _ ↦ ?_
    refine .bind (sendInvReqs_recalls _ _ _) ?_
    rintro d' ⟨ext, hext, rfl⟩
    exact .wait rfl rfl hext hfront
  · refine .skip fun r ↦ ?_
    refine .check fun _ ↦ ?_
    refine .bind .unknown fun e' _ ↦ ?_
    exact .bind (retrieveData_tries (.inl ⟨rfl, hreq⟩) d _ rfl rfl) fun d' h ↦ h
  · trivial

theorem serveShReq_tries (hreq : req.type = .shReq) (cachedData : Option Block) :
    Yields (d.serveShReq cfg env e req cachedData) (d.Tries req) := by
  have hans : MsgType.shRep = .exRep ∧ req.type = .exReq ∨
      MsgType.shRep = .shRep ∧ req.type = .shReq := .inr ⟨rfl, hreq⟩
  unfold Dir.serveShReq
  split
  · refine .check fun _ ↦ ?_
    refine .bind (sendMsg_recalls (by simp) _ _ _) ?_
    rintro d' ⟨ext, hext, rfl⟩
    exact .wait rfl rfl hext hfront
  · refine .skip fun r ↦ ?_
    obtain ⟨added, e'⟩ := r
    dsimp only
    split_ifs
    · exact .bind (retrieveData_tries hans d _ rfl rfl) fun d' h ↦ h
    · refine .bind .unknown fun r' _ ↦ ?_
      refine .bind (sendMsg_recalls (by simp) _ _ _) ?_
      rintro d' ⟨ext, hext, rfl⟩
      exact .wait rfl rfl hext hfront
  · refine .skip fun r ↦ ?_
    refine .check fun _ ↦ ?_
    exact .bind (retrieveData_tries hans d _ rfl rfl) fun d' h ↦ h
  · trivial

theorem processExReqFromL2Cache_tries (hreq : req.type = .exReq) (cachedData : Option Block) :
    Yields (d.processExReqFromL2Cache cfg env req cachedData) (d.Tries req) := by
  refine .bind (entryFor_attempt cfg d req hfront.ne_nil) ?_
  rintro ⟨e, d₁⟩ h₁
  refine (serveExReq_tries ?_ hreq cachedData).mono (fun r hr ↦ hr.after h₁)
  rw [h₁.queue]
  exact hfront

theorem processShReqFromL2Cache_tries (hreq : req.type = .shReq) (cachedData : Option Block) :
    Yields (d.processShReqFromL2Cache cfg env req cachedData) (d.Tries req) := by
  refine .bind (entryFor_attempt cfg d req hfront.ne_nil) ?_
  rintro ⟨e, d₁⟩ h₁
  refine (serveShReq_tries ?_ hreq cachedData).mono (fun r hr ↦ hr.after h₁)
  rw [h₁.queue]
  exact hfront

theorem processReq_tries :
    Yields (d.processReq cfg env req) (d.Tries req) := by
  unfold Dir.processReq
  split
  · next htype => exact processExReqFromL2Cache_tries hfront htype none
  · next htype => exact processShReqFromL2Cache_tries hfront htype none
  · trivial

theorem processNullifyReq_tries (hreq : req.toLine = .nullify) :
    Yields (d.processNullifyReq cfg req) (d.Tries req) := by
  refine (processNullifyReq_recalls cfg d req).mono ?_
  rintro ⟨d', completed⟩ ⟨hqueue, ext, hext, hout, hnone⟩
  cases completed with
  | false => exact .wait hqueue hout hext hfront
  | true =>
    have hwaits : waiting [req] = [] := by simp [waiting, hreq]
    rw [hnone rfl, append_nil] at hout
    exact .done hwaits (.silent hqueue hout)

end Front

/-! ### A whole handler -/

/-- A handler serves line `a`: it answers the first of the requests `ws`, and the others are in the
queue at the end. -/
structure Serves (a : A) (ws : List (LineReq N)) (d d' : Dir A N) : Prop where
  others : ∀ b, b ≠ a → OnlyNullify (d.queue b) (d'.queue b)
  sends : ∃ ext, d'.out = d.out ++ ext ∧ (∀ b, b ≠ a → answered b ext = []) ∧
    answered a ext ++ waiting (d'.queue a) = ws ∧
    ∀ x ∈ ext, ∀ b, x.IsRecall b → FrontOf (d'.queue b) x.packet.msg.requester

theorem Attempt.serves (h : Attempt a rs w d d') : Serves a (rs ++ waiting (d.queue a)) d d' := by
  obtain ⟨ext, hout, hans, hrec⟩ := h.sends
  refine ⟨h.others, ext, hout, fun b hb ↦ ?_, ?_, fun x hx b hb ↦ (hrec x hx b hb).2⟩
  · rw [hans, if_neg hb]
  · rw [hans, if_pos rfl, h.queue]

/-- A request is completed, and the handler goes on with the next one. -/
theorem Attempt.andThen {rs : List (LineReq N)} (h : Attempt a rs w d d') (hw : ¬ w)
    (h' : Serves a ws d' d'') : Serves a (rs ++ ws) d d'' := by
  obtain ⟨ext, hout, hans, hrec⟩ := h.sends
  obtain ⟨ext', hout', hans', hserved, hrec'⟩ := h'.sends
  refine ⟨fun b hb ↦ (h.others b hb).trans (h'.others b hb), ext ++ ext',
    by rw [hout', hout, append_assoc], fun b hb ↦ ?_, ?_, fun x hx b hb ↦ ?_⟩
  · rw [answered_append, hans, if_neg hb, hans' b hb, nil_append]
  · rw [answered_append, hans, if_pos rfl, append_assoc, hserved]
  · rcases mem_append.mp hx with hx | hx
    · obtain ⟨hwaits, hfront⟩ := hrec x hx b hb
      exact (h'.others b fun hba ↦ hw (hwaits hba)).front hfront
    · exact hrec' x hx b hb

/-- What a handler does to the queue of the line before it sends anything. -/
theorem Serves.of_queue (h : Serves a ws d' d'') (hout : d'.out = d.out)
    (hothers : ∀ b, b ≠ a → d'.queue b = d.queue b) : Serves a ws d d'' := by
  obtain ⟨ext, hout', hrest⟩ := h.sends
  refine ⟨fun b hb ↦ ?_, ext, by rw [hout', hout], hrest⟩
  rw [← hothers b hb]
  exact h.others b hb

theorem Serves.silent (hout : d'.out = d.out) (hothers : ∀ b, b ≠ a → d'.queue b = d.queue b) :
    Serves a (waiting (d'.queue a)) d d' := by
  have h : Attempt a [] False d' d' := .silent rfl rfl
  exact (h.serves).of_queue hout hothers

omit [DecidableEq A] in
theorem waiting_cons (req : ShmemReq A N) (rest : List (ShmemReq A N)) :
    waiting (req :: rest) = waiting [req] ++ waiting rest := by
  simp only [waiting, map_cons, filter_cons, map_nil, filter_nil]
  split_ifs <;> rfl

theorem touchFront_serves
    (h : Serves a ws (d.touchFront a req rest).2 d') : Serves a ws d d' := by
  refine h.of_queue rfl fun b hb ↦ ?_
  simp [touchFront, setQueue, hb]

theorem touchFront_front (d : Dir A N) (a : A) (req : ShmemReq A N) (rest : List (ShmemReq A N)) :
    ((d.touchFront a req rest).2.queue a = (d.touchFront a req rest).1 :: rest) ∧
      (d.touchFront a req rest).1.toLine = req.toLine ∧
      (d.touchFront a req rest).1.address = req.address ∧
      (d.touchFront a req rest).1.type = req.type := by
  refine ⟨?_, rfl, rfl, rfl⟩
  simp [touchFront, setQueue]

omit [DecidableEq A] in
theorem frontOf_cons {q : List (ShmemReq A N)} (hq : q = req :: rest) : FrontOf q req.requester := by
  rw [hq]
  rfl

omit [DecidableEq A] in
theorem waiting_congr {req' : ShmemReq A N} (h : req'.toLine = req.toLine) :
    waiting (req' :: rest) = waiting (req :: rest) := by
  simp [waiting, h]

/-- The loop completes requests, or stops at one that waits. -/
theorem processNextReqFromL2Cache_serves (n : ℕ) (d : Dir A N) (hq : d.queue a = req :: rest)
    (hadr : ∀ r ∈ rest, r.address = a) :
    Yields (processNextReqFromL2Cache cfg env a n d) (Serves a (waiting rest) d) := by
  induction n generalizing d req rest with
  | zero => trivial
  | succ n ih =>
    unfold Dir.processNextReqFromL2Cache
    rw [hq]
    cases rest with
    | nil =>
      have h : Serves a (waiting ((d.setQueue a []).queue a)) d (d.setQueue a []) :=
        .silent rfl fun b hb ↦ by simp [setQueue, hb]
      simpa [setQueue] using h
    | cons next queue =>
      dsimp only
      obtain ⟨hq₁, hline, hadr₁, -⟩ := touchFront_front d a next queue
      have hback {d' : Dir A N} {ws : List (LineReq N)}
          (h : Serves a ws (d.touchFront a next queue).2 d') : Serves a ws d d' :=
        touchFront_serves h
      rw [← waiting_congr hline]
      generalize d.touchFront a next queue = front at *
      obtain ⟨next', d₁⟩ := front
      have hnext : next'.address = a := hadr₁.trans (hadr next (by simp))
      have hfront : FrontOf (d₁.queue next'.address) next'.requester := by
        rw [hnext]
        exact frontOf_cons hq₁
      refine .bind (processReq_tries hfront) ?_
      rintro ⟨d₂, completed⟩ h
      unfold Tries at h
      rw [hnext] at h
      cases completed with
      | false =>
        have hs := hback h.serves
        rw [hq₁] at hs
        exact hs
      | true =>
        refine (ih d₂ (h.queue.trans hq₁) fun r hr ↦ hadr r (by simp [hr])).mono ?_
        intro d' hd'
        rw [waiting_cons]
        exact hback (h.andThen (by simp) hd')

/-- The front request is tried, and the loop follows. -/
theorem afterReq_serves {r : Except Fault (Dir A N × Bool)} (hq : d.queue a = req :: rest)
    (hadr : ∀ x ∈ d.queue a, x.address = a) (hr : Yields r (d.Tries req)) :
    Yields (r >>= afterReq cfg env a) (Serves a (waiting (d.queue a)) d) := by
  have hreq : req.address = a := hadr req (by simp [hq])
  refine .bind hr ?_
  rintro ⟨d', completed⟩ h
  unfold Tries at h
  rw [hreq] at h
  unfold Dir.afterReq
  cases completed with
  | false => exact h.serves
  | true =>
    refine (processNextReqFromL2Cache_serves _ d' (h.queue.trans hq) fun x hx ↦
      hadr x (by simp [hq, hx])).mono ?_
    intro d'' hd''
    rw [hq, waiting_cons]
    exact h.andThen (by simp) hd''

/-- The front request is tried again when a reply has come in. -/
theorem retry_serves (cfg : Config A N) (env : Env A)
    {f : ShmemReq A N → Dir A N → Except Fault (Dir A N × Bool)} (hq : d.queue a = req :: rest)
    (hadr : ∀ x ∈ d.queue a, x.address = a)
    (hf : ∀ req' d', req'.type = req.type → FrontOf (d'.queue req'.address) req'.requester →
      Yields (f req' d') (d'.Tries req')) :
    Yields (f (d.touchFront a req rest).1 (d.touchFront a req rest).2 >>= afterReq cfg env a)
      (Serves a (waiting (d.queue a)) d) := by
  obtain ⟨hq₁, hline, hadr₁, htype⟩ := touchFront_front d a req rest
  have hreq : (d.touchFront a req rest).1.address = a := hadr₁.trans (hadr req (by simp [hq]))
  have hadr' : ∀ x ∈ (d.touchFront a req rest).2.queue a, x.address = a := by
    intro x hx
    rw [hq₁] at hx
    rcases mem_cons.mp hx with rfl | hx
    · exact hreq
    · exact hadr x (by simp [hq, hx])
  refine (afterReq_serves hq₁ hadr' (hf _ _ htype ?_)).mono (fun d' hd' ↦ ?_)
  · rw [hreq]
    exact frontOf_cons hq₁
  · rw [hq₁, waiting_congr hline, ← hq] at hd'
    exact touchFront_serves hd'

theorem touchFront_waits (hq : d.queue a = req :: rest) :
    Serves a (waiting (d.queue a)) d (d.touchFront a req rest).2 := by
  obtain ⟨hq₁, hline, -⟩ := touchFront_front d a req rest
  have h : Attempt a [] False (d.touchFront a req rest).2 (d.touchFront a req rest).2 :=
    .silent rfl rfl
  have hs := touchFront_serves h.serves
  rwa [nil_append, hq₁, waiting_congr hline, ← hq] at hs

theorem putDataToDram_silent (d : Dir A N) (a : A) (data : Block) :
    Yields (d.putDataToDram a data) (fun d' ↦ d'.queue = d.queue ∧ d'.out = d.out) :=
  .require_bind (fun _ ↦ ⟨rfl, rfl⟩) fun _ ↦ trivial

/-- DRAM is written before the request is tried. -/
theorem putDataToDram_tries {f : Dir A N → Except Fault (Dir A N × Bool)} {data : Block}
    (hfront : FrontOf (d.queue req.address) req.requester)
    (hf : ∀ d' : Dir A N, FrontOf (d'.queue req.address) req.requester →
      Yields (f d') (d'.Tries req)) :
    Yields (d.putDataToDram a data >>= f) (d.Tries req) := by
  refine .bind (putDataToDram_silent d a data) ?_
  rintro d' ⟨hqueue, hout⟩
  refine (hf d' ?_).mono (fun r hr ↦ hr.after (.silent hqueue hout))
  rw [hqueue]
  exact hfront

section Resume

variable (hadr : ∀ x ∈ d.queue a, x.address = a)

include hadr

theorem resumeAfterInvRep_serves :
    Yields (d.resumeAfterInvRep cfg env e a) (Serves a (waiting (d.queue a)) d) := by
  unfold Dir.resumeAfterInvRep
  split
  · exact .silent rfl fun _ _ ↦ rfl
  · next req rest hq =>
    have hretry (f : ShmemReq A N → Dir A N → Except Fault (Dir A N × Bool)) (hf : _) :
        Yields _ (Serves a (waiting (d.queue a)) d) :=
      retry_serves cfg env (f := f) hq hadr hf
    have hwaits := touchFront_waits hq
    have htype := (touchFront_front d a req rest).2.2.2
    generalize d.touchFront a req rest = front at *
    obtain ⟨req', d'⟩ := front
    dsimp only at *
    split
    · next hex =>
      split_ifs
      · exact hretry (fun r d ↦ d.processExReqFromL2Cache cfg env r none) fun r d hr hfront ↦
          processExReqFromL2Cache_tries hfront (hr.trans (htype.symm.trans hex)) none
      · exact hwaits
    · next hsh =>
      exact hretry (fun r d ↦ d.processShReqFromL2Cache cfg env r none) fun r d hr hfront ↦
        processShReqFromL2Cache_tries hfront (hr.trans (htype.symm.trans hsh)) none
    · next hex hsh =>
      split_ifs
      · refine hretry (fun r d ↦ d.processNullifyReq cfg r) fun r d hr hfront ↦
          processNullifyReq_tries hfront ?_
        rw [← htype] at hr
        exact toLine_eq_nullify (hr ▸ hex) (hr ▸ hsh)
      · exact hwaits

theorem resumeAfterFlushRep_serves (data : Block) :
    Yields (d.resumeAfterFlushRep cfg env a data) (Serves a (waiting (d.queue a)) d) := by
  unfold Dir.resumeAfterFlushRep
  split
  · refine (putDataToDram_silent d a data).mono ?_
    rintro d' ⟨hqueue, hout⟩
    rw [← hqueue]
    exact .silent hout fun b _ ↦ congrFun hqueue b
  · next req rest hq =>
    have hretry (f : ShmemReq A N → Dir A N → Except Fault (Dir A N × Bool)) (hf : _) :
        Yields _ (Serves a (waiting (d.queue a)) d) :=
      retry_serves cfg env (f := f) hq hadr hf
    have htype := (touchFront_front d a req rest).2.2.2
    generalize d.touchFront a req rest = front at *
    obtain ⟨req', d'⟩ := front
    dsimp only at *
    split
    · next hex =>
      exact hretry (fun r d ↦ d.processExReqFromL2Cache cfg env r (some data)) fun r d hr hfront ↦
        processExReqFromL2Cache_tries hfront (hr.trans (htype.symm.trans hex)) _
    · next hsh =>
      have h := hretry (fun r d ↦ d.putDataToDram a data >>= fun d ↦
        d.processShReqFromL2Cache cfg env r (some data)) fun r d hr hfront ↦
          putDataToDram_tries hfront fun d hfront ↦
            processShReqFromL2Cache_tries hfront (hr.trans (htype.symm.trans hsh)) _
      rwa [bind_assoc] at h
    · next hex hsh =>
      have h := hretry (fun r d ↦ d.putDataToDram a data >>= fun d ↦ d.processNullifyReq cfg r)
        fun r d hr hfront ↦ putDataToDram_tries hfront fun d hfront ↦ by
          rw [← htype] at hr
          exact processNullifyReq_tries hfront (toLine_eq_nullify (hr ▸ hex) (hr ▸ hsh))
      rwa [bind_assoc] at h

theorem resumeAfterWbRep_serves (data : Block) :
    Yields (d.resumeAfterWbRep cfg env a data) (Serves a (waiting (d.queue a)) d) := by
  unfold Dir.resumeAfterWbRep
  split
  · trivial
  · next req rest hq =>
    have h := retry_serves cfg env (f := fun r d ↦ d.putDataToDram a data >>= fun d ↦
      require (r.type = .shReq) .unrecognizedRequest >>= fun _ ↦
        d.processShReqFromL2Cache cfg env r (some data)) hq hadr fun r d hr hfront ↦
          putDataToDram_tries hfront fun d hfront ↦ .require_bind
            (fun hsh ↦ processShReqFromL2Cache_tries hfront hsh _) fun _ ↦ trivial
    simpa only [bind_assoc] using h

end Resume

/-! ### Messages -/

/-- What the handler of a reply does before it looks at the queue. -/
theorem Serves.of_silent {r : Except Fault (Dir A N)} (hqueue : d'.queue = d.queue)
    (hout : d'.out = d.out) (h : Yields r (Serves a (waiting (d'.queue a)) d')) :
    Yields r (Serves a (waiting (d.queue a)) d) := by
  rw [hqueue] at h
  exact h.mono (fun _ hs ↦ hs.of_queue hout fun b _ ↦ congrFun hqueue b)

variable {m : ShmemMsg A N} (sender : Fin N)
  (hadr : ∀ x ∈ d.queue m.address, x.address = m.address)

theorem handleReqFromL2Cache_serves (htype : m.type = .exReq ∨ m.type = .shReq) :
    Yields (d.handleReqFromL2Cache cfg env m)
      (Serves m.address (waiting (d.queue m.address) ++ m.asks) d) := by
  unfold Dir.handleReqFromL2Cache
  refine .check fun _ ↦ ?_
  dsimp only
  generalize hreq : (⟨m.type, m.requester, m.address, m.modeled, d.clock⟩ : ShmemReq A N) = req
  have hq : (d.enqueue m.address req).queue m.address = d.queue m.address ++ [req] := by
    simp [enqueue, setQueue]
  have hothers (b : A) (hb : b ≠ m.address) : (d.enqueue m.address req).queue b = d.queue b := by
    simp [enqueue, setQueue, hb]
  have hwaits : waiting (d.queue m.address) ++ m.asks
      = waiting ((d.enqueue m.address req).queue m.address) := by
    rw [hq]
    subst hreq
    rcases htype with h | h <;> simp [waiting, ShmemMsg.asks, ShmemReq.toLine, h]
  rw [hwaits]
  split_ifs with hone
  · have hnil : d.queue m.address = [] := by
      rw [hq, length_append] at hone
      exact length_eq_zero_iff.mp (by simpa using hone)
    have hq' : (d.enqueue m.address req).queue m.address = [req] := by rw [hq, hnil]; rfl
    have hreqadr : req.address = m.address := by rw [← hreq]
    refine (afterReq_serves hq' ?_ (processReq_tries ?_)).mono ?_
    · simp [hq', hreqadr]
    · rw [hreqadr]
      exact frontOf_cons hq'
    · exact fun d' hd' ↦ hd'.of_queue rfl hothers
  · exact .silent rfl hothers

include hadr

theorem processInvRepFromL2Cache_serves :
    Yields (d.processInvRepFromL2Cache cfg env sender m)
      (Serves m.address (waiting (d.queue m.address)) d) := by
  refine .lookup fun e _ ↦ ?_
  refine .check fun _ ↦ ?_
  refine .bind .unknown fun e' _ ↦ ?_
  refine Serves.of_silent ?_ ?_ (resumeAfterInvRep_serves ?_)
  · rfl
  · rfl
  · exact hadr

theorem processFlushRepFromL2Cache_serves :
    Yields (d.processFlushRepFromL2Cache cfg env sender m)
      (Serves m.address (waiting (d.queue m.address)) d) := by
  refine .lookup fun data _ ↦ ?_
  refine .lookup fun e _ ↦ ?_
  refine .check fun _ ↦ ?_
  refine .skip fun e₁ ↦ ?_
  refine .skip fun e₂ ↦ ?_
  refine Serves.of_silent ?_ ?_ (resumeAfterFlushRep_serves ?_ data)
  · rfl
  · rfl
  · exact hadr

theorem processWbRepFromL2Cache_serves :
    Yields (d.processWbRepFromL2Cache cfg env sender m)
      (Serves m.address (waiting (d.queue m.address)) d) := by
  refine .lookup fun data _ ↦ ?_
  refine .lookup fun e _ ↦ ?_
  refine .check fun _ ↦ ?_
  refine .skip fun present ↦ ?_
  refine .check fun _ ↦ ?_
  refine .skip fun e₁ ↦ ?_
  refine Serves.of_silent ?_ ?_ (resumeAfterWbRep_serves ?_ data)
  · rfl
  · rfl
  · exact hadr

/-- A message to the directory: the requests of its line that waited, and the new one if it is a
request, are answered in this order or still wait. -/
theorem handleMsgFromL2Cache_serves :
    Yields (d.handleMsgFromL2Cache cfg env sender m)
      (Serves m.address (waiting (d.queue m.address) ++ m.asks) d) := by
  have hnone (h : m.type ≠ .exReq) (h' : m.type ≠ .shReq) : m.asks = [] := by
    unfold ShmemMsg.asks
    split <;> simp_all
  unfold Dir.handleMsgFromL2Cache
  split
  · next htype => exact handleReqFromL2Cache_serves (.inl htype)
  · next htype => exact handleReqFromL2Cache_serves (.inr htype)
  · next htype =>
    rw [hnone (by simp [htype]) (by simp [htype]), append_nil]
    exact processInvRepFromL2Cache_serves sender hadr
  · next htype =>
    rw [hnone (by simp [htype]) (by simp [htype]), append_nil]
    exact processFlushRepFromL2Cache_serves sender hadr
  · next htype =>
    rw [hnone (by simp [htype]) (by simp [htype]), append_nil]
    exact processWbRepFromL2Cache_serves sender hadr
  · trivial

end Dir

end CarbonSim.Msi
