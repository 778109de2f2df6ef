import Mathlib.Data.List.Count

/-!
# Mutexes as lines

A mutex is a line of cores: the first one owns it and the others wait for it. A condition variable
is a list of the cores that wait on it. A core enters a line at its end, the owner leaves it, a core
parks on a condition variable, and the first core parked on one enters a line when it is woken.

The log of a run records the requests, the arrivals at the lines, the grants and the departures. At
each line the departures and the line are the arrivals in order, and the grants are the departures
and the owner (`Run.arrived_eq`, `Run.granted_eq`). A core is in at most one place (`At.next`). If
each woken core enters the line that it asked for, its requests are its grants and at most one more,
for the place where it is (`Run.asked_eq`).
-/

namespace CarbonSim.Monitor

open Function List

variable {Core Mux Cond : Type} {l l' : List (Core × Mux)}

structure State (Core Mux Cond : Type) where
  line : Mux → List Core
  waiting : Cond → List Core

inductive Move (Core Mux Cond : Type)
  | enter (core : Core) (mux : Mux)
  | leave (core : Core) (mux : Mux)
  | park (core : Core) (cond : Cond) (mux : Mux)
  | wake (cond : Cond) (mux : Mux)

/-- Pairs of a core and a mutex, in the order in which things happened. -/
structure Log (Core Mux : Type) where
  asked : List (Core × Mux)
  arrived : List (Core × Mux)
  granted : List (Core × Mux)
  left : List (Core × Mux)

/-- The place of a core that does not run. -/
inductive Place (Mux Cond : Type)
  | idle
  | queued (mux : Mux)
  | waiting (cond : Cond)

def Log.empty : Log Core Mux := ⟨[], [], [], []⟩

def Log.append (a b : Log Core Mux) : Log Core Mux :=
  ⟨a.asked ++ b.asked, a.arrived ++ b.arrived, a.granted ++ b.granted, a.left ++ b.left⟩

/-- The cores that occur in a log with a mutex. -/
def coresAt [DecidableEq Mux] (m : Mux) (l : List (Core × Mux)) : List Core :=
  (l.filter fun x ↦ x.2 = m).map Prod.fst

/-- The mutexes that occur in a log with a core. -/
def muxesOf [DecidableEq Core] (c : Core) (l : List (Core × Mux)) : List Mux :=
  (l.filter fun x ↦ x.1 = c).map Prod.snd

variable {m : Mux} {k : Cond} {c : Core} {rest : List Core}

section CoresAt

variable [DecidableEq Mux]

@[simp] theorem coresAt_nil (m : Mux) : coresAt m ([] : List (Core × Mux)) = [] := rfl

@[simp] theorem coresAt_append (m : Mux) (l l' : List (Core × Mux)) :
    coresAt m (l ++ l') = coresAt m l ++ coresAt m l' := by
  simp [coresAt]

@[simp] theorem coresAt_singleton (m m' : Mux) (c : Core) :
    coresAt m [(c, m')] = if m' = m then [c] else [] := by
  by_cases h : m' = m <;> simp [coresAt, h]

theorem count_coresAt [DecidableEq Core] (c : Core) (m : Mux) (l : List (Core × Mux)) :
    (coresAt m l).count c = l.count (c, m) := by
  induction l with
  | nil => rfl
  | cons x l ih =>
    obtain ⟨c', m'⟩ := x
    change (coresAt m ([(c', m')] ++ l)).count c = _
    rw [coresAt_append, count_append, coresAt_singleton, ih, count_cons]
    by_cases hm : m' = m <;> by_cases hc : c' = c <;> simp [hm, hc, Nat.add_comm]

/-- Logs that agree at each mutex have the same entries. -/
theorem perm_of_coresAt [DecidableEq Core]
    (h : ∀ m, coresAt m l = coresAt m l') : l.Perm l' := by
  rw [perm_iff_count]
  rintro ⟨c, m⟩
  rw [← count_coresAt, ← count_coresAt, h m]

end CoresAt

section MuxesOf

variable [DecidableEq Core]

@[simp] theorem muxesOf_nil (c : Core) : muxesOf c ([] : List (Core × Mux)) = [] := rfl

@[simp] theorem muxesOf_append (c : Core) (l l' : List (Core × Mux)) :
    muxesOf c (l ++ l') = muxesOf c l ++ muxesOf c l' := by
  simp [muxesOf]

@[simp] theorem muxesOf_singleton (c c' : Core) (m : Mux) :
    muxesOf c [(c', m)] = if c' = c then [m] else [] := by
  by_cases h : c' = c <;> simp [muxesOf, h]

theorem muxesOf_perm (h : l.Perm l') (c : Core) : (muxesOf c l).Perm (muxesOf c l') :=
  (h.filter _).map _

/-- The new owner of a mutex. -/
def gain (before after : Option Core) : List Core := if after = before then [] else after.toList

theorem gain_append (line l l' : List Core) :
    gain line.head? (line ++ l).head? ++ gain (line ++ l).head? ((line ++ l) ++ l').head? =
      gain line.head? ((line ++ l) ++ l').head? := by
  unfold gain
  cases line with
  | nil =>
    cases l with
    | nil => simp
    | cons a l => simp
  | cons a line => simp

/-- The mutex is that of the last request of the core. -/
def Log.LastAsked (log : Log Core Mux) (c : Core) (m : Mux) : Prop :=
  (muxesOf c log.asked).getLast? = some m

end MuxesOf

theorem Log.append_empty (log : Log Core Mux) : log.append Log.empty = log := by
  simp [Log.append, Log.empty]

theorem Log.append_assoc (a b c : Log Core Mux) :
    (a.append b).append c = a.append (b.append c) := by
  simp [Log.append]

/-! ### Moves -/

/-- The grant to a core that arrives at a line. -/
def State.admitted (s : State Core Mux Cond) (c : Core) (m : Mux) : List (Core × Mux) :=
  if (s.line m).isEmpty then [(c, m)] else []

/-- What a move adds to the log. -/
def State.note (s : State Core Mux Cond) : Move Core Mux Cond → Log Core Mux
  | .enter c m => ⟨[(c, m)], [(c, m)], s.admitted c m, []⟩
  | .leave c m => ⟨[], [], (s.line m).tail.head?.toList.map fun d ↦ (d, m), [(c, m)]⟩
  | .park c _ m => ⟨[(c, m)], [], [], []⟩
  | .wake k m =>
    match s.waiting k with
    | [] => Log.empty
    | c :: _ => ⟨[], [(c, m)], s.admitted c m, []⟩

theorem note_wake {s : State Core Mux Cond} (h : s.waiting k = c :: rest) :
    s.note (.wake k m) = ⟨[], [(c, m)], s.admitted c m, []⟩ := by
  simp [State.note, h]

theorem muxesOf_admitted [DecidableEq Core] (s : State Core Mux Cond) (c d : Core) (m : Mux) :
    muxesOf d (s.admitted c m) = if d = c ∧ s.line m = [] then [m] else [] := by
  unfold State.admitted
  cases hline : s.line m with
  | nil =>
    by_cases hd : d = c
    · simp [hd]
    · simp [hd, Ne.symm hd]
  | cons a l => simp

/-- How often a core at the place waits on a condition variable. -/
def Place.onCond [DecidableEq Cond] (k : Cond) : Place Mux Cond → ℕ
  | .waiting k' => if k' = k then 1 else 0
  | _ => 0

variable [DecidableEq Mux]

/-- How often a core at the place is in line for a mutex. -/
def Place.inLine (m : Mux) : Place Mux Cond → ℕ
  | .queued m' => if m' = m then 1 else 0
  | _ => 0

def State.join (s : State Core Mux Cond) (c : Core) (m : Mux) : State Core Mux Cond :=
  { s with line := update s.line m (s.line m ++ [c]) }

theorem line_join (s : State Core Mux Cond) (c : Core) (m m' : Mux) :
    (s.join c m).line m' = s.line m' ++ if m = m' then [c] else [] := by
  by_cases hm : m' = m
  · subst hm
    simp [State.join]
  · simp [State.join, hm, Ne.symm hm]

theorem head?_join (s : State Core Mux Cond) (c : Core) (m m' : Mux) :
    (s.line m').head?.toList ++ coresAt m' (s.admitted c m) =
      ((s.join c m).line m').head?.toList := by
  rw [line_join]
  unfold State.admitted
  by_cases hm : m = m'
  · subst hm
    cases hline : s.line m with
    | nil => simp
    | cons a l => simp
  · cases hline : s.line m with
    | nil | cons a l => simp [hm]

/-- The cores behind the owner after an arrival. -/
theorem count_tail_join [DecidableEq Core] (s : State Core Mux Cond) (c d : Core) (m m' : Mux) :
    ((s.join c m).line m').tail.count d =
      (s.line m').tail.count d + if m = m' ∧ d = c ∧ s.line m ≠ [] then 1 else 0 := by
  simp only [State.join]
  by_cases hm : m' = m
  · subst hm
    cases hline : s.line m' with
    | nil => simp
    | cons a l =>
      by_cases hd : d = c
      · simp [hd]
      · simp [hd, Ne.symm hd]
  · simp [update_of_ne hm, Ne.symm hm]

variable [DecidableEq Cond]

def State.next (s : State Core Mux Cond) : Move Core Mux Cond → State Core Mux Cond
  | .enter c m => s.join c m
  | .leave _ m => { s with line := update s.line m (s.line m).tail }
  | .park c k _ => { s with waiting := update s.waiting k (s.waiting k ++ [c]) }
  | .wake k m =>
    match s.waiting k with
    | [] => s
    | c :: rest => ⟨(s.join c m).line, update s.waiting k rest⟩

theorem next_wake {s : State Core Mux Cond} (h : s.waiting k = c :: rest) :
    s.next (.wake k m) = ⟨(s.join c m).line, update s.waiting k rest⟩ := by
  simp [State.next, h]

/-- The first core that waits enters a line. -/
theorem line_wake {s : State Core Mux Cond} (h : s.waiting k = c :: rest) (m m' : Mux) :
    (s.next (.wake k m')).line m = s.line m ++ coresAt m [(c, m')] := by
  rw [next_wake h, coresAt_singleton]
  exact line_join s c m' m

theorem waiting_wake {s : State Core Mux Cond} (h : s.waiting k = c :: rest) (m : Mux) :
    (s.next (.wake k m)).waiting k = rest := by
  rw [next_wake h]
  exact update_self ..

def State.nextAll (s : State Core Mux Cond) : List (Move Core Mux Cond) → State Core Mux Cond
  | [] => s
  | mv :: moves => (s.next mv).nextAll moves

def State.noteAll (s : State Core Mux Cond) : List (Move Core Mux Cond) → Log Core Mux
  | [] => Log.empty
  | mv :: moves => (s.note mv).append ((s.next mv).noteAll moves)

/-- Woken one after the other, the cores enter their lines in this order. -/
theorem line_wakes (ws : List (Core × Mux)) {s : State Core Mux Cond}
    (h : s.waiting k = ws.map Prod.fst ++ rest) (m : Mux) :
    (s.nextAll (ws.map fun x ↦ .wake k x.2)).line m = s.line m ++ coresAt m ws := by
  induction ws generalizing s with
  | nil => simp [State.nextAll]
  | cons x ws ih =>
    obtain ⟨c, m'⟩ := x
    calc ((s.next (.wake k m')).nextAll (ws.map fun x ↦ .wake k x.2)).line m
        = (s.next (.wake k m')).line m ++ coresAt m ws := ih (waiting_wake h m')
      _ = s.line m ++ coresAt m ([(c, m')] ++ ws) := by
        rw [line_wake h, coresAt_append, append_assoc]

variable [DecidableEq Core]

/-- The core is at the place and at no other. -/
structure At (s : State Core Mux Cond) (c : Core) (p : Place Mux Cond) : Prop where
  queued : ∀ m, (s.line m).tail.count c = p.inLine m
  waiting : ∀ k, (s.waiting k).count c = p.onCond k

/-- The owner leaves, and a core that makes a request waits for nothing. -/
def State.Legal (s : State Core Mux Cond) : Move Core Mux Cond → Prop
  | .enter c _ => At s c .idle
  | .leave c m => (s.line m).head? = some c ∧ c ∉ (s.line m).tail
  | .park c _ _ => At s c .idle
  | .wake k _ => s.waiting k ≠ []

/-- The place of core `d` after a move. -/
def State.placeAfter (s : State Core Mux Cond) (d : Core) (p : Place Mux Cond) :
    Move Core Mux Cond → Place Mux Cond
  | .enter c m => if d = c ∧ s.line m ≠ [] then .queued m else p
  | .leave _ m => if (s.line m).tail.head? = some d then .idle else p
  | .park c k _ => if d = c then .waiting k else p
  | .wake k m => if (s.waiting k).head? = some d then
      (if s.line m = [] then .idle else .queued m) else p

theorem legal_wake {s : State Core Mux Cond} (h : s.waiting k = c :: rest) (m : Mux) :
    s.Legal (.wake k m) := by
  show s.waiting k ≠ []
  rw [h]
  exact cons_ne_nil _ _

open State (note placeAfter noteAll nextAll)

/-! ### Places -/

section Places

variable {s : State Core Mux Cond} {c d : Core} {p : Place Mux Cond}

theorem At.eq_idle (h : At s c p) (hc : At s c .idle) : p = .idle := by
  cases p with
  | idle => rfl
  | queued m =>
    have hq := (h.queued m).symm.trans (hc.queued m)
    simp [Place.inLine] at hq
  | waiting k =>
    have hw := (h.waiting k).symm.trans (hc.waiting k)
    simp [Place.onCond] at hw

theorem At.eq_queued (h : At s c p) (hc : c ∈ (s.line m).tail) : p = .queued m := by
  have hpos : 0 < p.inLine m := by
    rw [← h.queued m]
    exact count_pos_iff.mpr hc
  cases p with
  | idle | waiting k => simp [Place.inLine] at hpos
  | queued m' =>
    simp only [Place.inLine] at hpos
    split_ifs at hpos with hm
    · rw [hm]
    · exact absurd hpos (Nat.lt_irrefl 0)

theorem At.eq_waiting (h : At s c p) (hc : c ∈ s.waiting k) : p = .waiting k := by
  have hpos : 0 < p.onCond k := by
    rw [← h.waiting k]
    exact count_pos_iff.mpr hc
  cases p with
  | idle | queued m => simp [Place.onCond] at hpos
  | waiting k' =>
    simp only [Place.onCond] at hpos
    split_ifs at hpos with hk
    · rw [hk]
    · exact absurd hpos (Nat.lt_irrefl 0)

theorem At.enter (h : At s d p) (hc : At s c .idle) :
    At (s.next (.enter c m)) d (s.placeAfter d p (.enter c m)) := by
  simp only [placeAfter]
  by_cases hd : d = c ∧ s.line m ≠ []
  · rw [if_pos hd]
    obtain ⟨rfl, hline⟩ := hd
    constructor
    · intro m'
      change ((s.join d m).line m').tail.count d = _
      rw [count_tail_join, hc.queued m']
      by_cases hm : m = m' <;> simp [Place.inLine, hm, hline]
      exact fun h ↦ hline (hm ▸ h)
    · exact hc.waiting
  · rw [if_neg hd]
    constructor
    · intro m'
      change ((s.join c m).line m').tail.count d = _
      rw [count_tail_join, if_neg fun hm ↦ hd hm.2, h.queued m', Nat.add_zero]
    · exact h.waiting

theorem At.leave (h : At s d p) : At (s.next (.leave c m)) d (s.placeAfter d p (.leave c m)) := by
  have hcount : ∀ m', (((s.next (.leave c m)).line m').tail).count d = (s.line m').tail.count d -
        if m = m' ∧ (s.line m).tail.head? = some d then 1 else 0 := by
    intro m'
    by_cases hm : m' = m
    · subst hm
      cases hline : (s.line m').tail with
      | nil => simp [State.next, hline]
      | cons a l =>
        by_cases hd : a = d
        all_goals simp [State.next, hline, hd]
    · simp [State.next, update_of_ne hm, Ne.symm hm]
  simp only [placeAfter]
  by_cases hd : (s.line m).tail.head? = some d
  · rw [if_pos hd]
    -- the core is behind the owner, so that is its place
    obtain rfl := h.eq_queued (mem_of_head? hd)
    constructor
    · intro m'
      rw [hcount m', h.queued m']
      by_cases hm : m = m'
      · rw [if_pos ⟨hm, hd⟩]
        simp [Place.inLine, hm]
      · simp [Place.inLine, hm]
    · exact h.waiting
  · rw [if_neg hd]
    constructor
    · intro m'
      rw [hcount m', if_neg fun hm ↦ hd hm.2, h.queued m', Nat.sub_zero]
    · exact h.waiting

theorem At.park (h : At s d p) (hc : At s c .idle) :
    At (s.next (.park c k m)) d (s.placeAfter d p (.park c k m)) := by
  simp only [placeAfter]
  by_cases hd : d = c
  · rw [if_pos hd]
    subst hd
    constructor
    · exact hc.queued
    · intro k'
      by_cases hk : k' = k
      · subst hk
        simp [State.next, hc.waiting, Place.onCond]
      · simp [State.next, update_of_ne hk, hc.waiting, Place.onCond, Ne.symm hk]
  · rw [if_neg hd]
    constructor
    · exact h.queued
    · intro k'
      rw [← h.waiting k']
      by_cases hk : k' = k
      · subst hk
        simp [State.next, Ne.symm hd]
      · simp [State.next, update_of_ne hk]

theorem At.wake (h : At s d p) (hk : s.waiting k ≠ []) :
    At (s.next (.wake k m)) d (s.placeAfter d p (.wake k m)) := by
  obtain ⟨c, rest, hwait⟩ := exists_cons_of_ne_nil hk
  rw [next_wake hwait]
  simp only [placeAfter]
  rw [hwait, head?_cons]
  have hcount : ∀ k', (update s.waiting k rest k').count d =
      (s.waiting k').count d - if k = k' ∧ c = d then 1 else 0 := by
    intro k'
    by_cases hk' : k' = k
    · subst hk'
      rw [update_self, hwait]
      by_cases hd : c = d <;> simp [hd]
    · simp [update_of_ne hk', Ne.symm hk']
  by_cases hd : c = d
  · subst hd
    rw [if_pos rfl]
    -- the core is the first to wait, so that is its place
    obtain rfl := h.eq_waiting (hwait ▸ mem_cons_self)
    have hnone : ∀ k', (update s.waiting k rest k').count c = 0 := by
      intro k'
      rw [hcount k', h.waiting k']
      by_cases hk' : k = k' <;> simp [Place.onCond, hk']
    by_cases hline : s.line m = []
    · rw [if_pos hline]
      constructor
      · intro m'
        rw [count_tail_join, h.queued m', if_neg fun hm ↦ hm.2.2 hline]
        rfl
      · exact hnone
    · rw [if_neg hline]
      constructor
      · intro m'
        rw [count_tail_join, h.queued m']
        by_cases hm : m = m' <;> simp [Place.inLine, hm]
        exact fun hnil ↦ hline (hm ▸ hnil)
      · exact hnone
  · rw [if_neg fun hsome ↦ hd (Option.some.inj hsome)]
    constructor
    · intro m'
      rw [count_tail_join, h.queued m', if_neg fun hm ↦ hd hm.2.1.symm, Nat.add_zero]
    · intro k'
      rw [hcount k', h.waiting k', if_neg fun hm ↦ hd hm.2, Nat.sub_zero]

/-- A move takes each core to its next place. -/
theorem At.next (h : At s d p) {mv : Move Core Mux Cond} (hmv : s.Legal mv) :
    At (s.next mv) d (s.placeAfter d p mv) := by
  cases mv with
  | enter c m => exact h.enter hmv
  | leave c m => exact h.leave
  | park c k m => exact h.park hmv
  | wake k m => exact h.wake hmv

end Places

/-! ### One move -/

section Step

variable {s : State Core Mux Cond} {mv : Move Core Mux Cond}

/-- A line and the arrivals are the departures and the line after the move. -/
theorem line_next (hmv : s.Legal mv) (m : Mux) :
    s.line m ++ coresAt m (s.note mv).arrived =
      coresAt m (s.note mv).left ++ (s.next mv).line m := by
  cases mv with
  | enter c m' =>
    change s.line m ++ coresAt m [(c, m')] = (s.join c m').line m
    rw [line_join, coresAt_singleton]
  | leave c m' =>
    change s.line m ++ [] = coresAt m [(c, m')] ++ update s.line m' (s.line m').tail m
    rw [append_nil, coresAt_singleton]
    by_cases hm : m = m'
    · subst hm
      rw [if_pos rfl, update_self]
      obtain ⟨l, hline⟩ := head?_eq_some_iff.mp hmv.1
      rw [hline]
      rfl
    · rw [if_neg (Ne.symm hm), update_of_ne hm, nil_append]
  | park c k m' =>
    exact append_nil _
  | wake k m' =>
    obtain ⟨c, rest, hwait⟩ := exists_cons_of_ne_nil hmv
    rw [line_wake hwait, note_wake hwait]
    rfl

/-- The owner and the grants are the departures and the owner after the move. -/
theorem head?_next (hmv : s.Legal mv) (m : Mux) :
    (s.line m).head?.toList ++ coresAt m (s.note mv).granted =
      coresAt m (s.note mv).left ++ ((s.next mv).line m).head?.toList := by
  cases mv with
  | enter c m' => exact head?_join s c m' m
  | leave c m' =>
    change (s.line m).head?.toList ++
        coresAt m ((s.line m').tail.head?.toList.map fun d ↦ (d, m')) =
      coresAt m [(c, m')] ++ (update s.line m' (s.line m').tail m).head?.toList
    by_cases hm : m = m'
    · subst hm
      rw [hmv.1, update_self]
      cases (s.line m).tail.head? <;> simp
    · rw [update_of_ne hm]
      cases (s.line m').tail.head? <;> simp [Ne.symm hm]
  | park c k m' => simp [note, State.next]
  | wake k m' =>
    obtain ⟨c, rest, hwait⟩ := exists_cons_of_ne_nil hmv
    rw [next_wake hwait, note_wake hwait]
    exact head?_join s c m' m

/-- A move grants a mutex to the core that becomes its owner, and to no other. -/
theorem granted_eq_gain (hmv : s.Legal mv) (m : Mux) :
    coresAt m (s.note mv).granted = gain (s.line m).head? ((s.next mv).line m).head? := by
  unfold gain
  have hhead := head?_next hmv m
  cases hleft : coresAt m (s.note mv).left with
  | nil =>
    cases hold : (s.line m).head? with
    | none | some c =>
      cases hnew : ((s.next mv).line m).head? <;> simp_all
  | cons c l =>
    -- only a departure reaches this case
    cases mv with
    | leave c' m' =>
      simp only [note, coresAt_singleton] at hleft
      split_ifs at hleft with hm
      subst hm
      obtain ⟨hc, hnot⟩ := hmv
      have hline : (s.next (.leave c' m')).line m' = (s.line m').tail := update_self ..
      rw [hline, hc, if_neg]
      change coresAt m' ((s.line m').tail.head?.toList.map fun d ↦ (d, m')) = _
      · cases (s.line m').tail.head? <;> simp
      · exact fun hd ↦ hnot (mem_of_head? hd)
    | enter c' m' | park c' k' m' => simp [note] at hleft
    | wake k' m' =>
      obtain ⟨d, rest, hwait⟩ := exists_cons_of_ne_nil hmv
      simp [note_wake hwait] at hleft

end Step

/-! ### Runs -/

section Run

/-- The states that legal moves reach from the one with empty lines, with the log. The mutex of a
woken core satisfies `ok`. -/
inductive Run (ok : Log Core Mux → Core → Mux → Prop) : Log Core Mux → State Core Mux Cond → Prop
  | start : Run ok Log.empty ⟨fun _ ↦ [], fun _ ↦ []⟩
  | step {log : Log Core Mux} {s : State Core Mux Cond} (h : Run ok log s)
      (mv : Move Core Mux Cond) (hmv : s.Legal mv)
      (hok : ∀ k m c, mv = .wake k m → (s.waiting k).head? = some c → ok log c m) :
      Run ok (log.append (s.note mv)) (s.next mv)

variable {ok : Log Core Mux → Core → Mux → Prop} {log : Log Core Mux} {s : State Core Mux Cond}

theorem Run.arrived_eq (h : Run ok log s) (m : Mux) :
    coresAt m log.arrived = coresAt m log.left ++ s.line m := by
  induction h with
  | start => rfl
  | step h mv hmv hok ih =>
    simp only [Log.append, coresAt_append]
    rw [ih, append_assoc, append_assoc, line_next hmv]

theorem Run.granted_eq (h : Run ok log s) (m : Mux) :
    coresAt m log.granted = coresAt m log.left ++ (s.line m).head?.toList := by
  induction h with
  | start => rfl
  | step h mv hmv hok ih =>
    simp only [Log.append, coresAt_append]
    rw [ih, append_assoc, append_assoc, head?_next hmv]

theorem at_start (c : Core) :
    At (⟨fun _ ↦ [], fun _ ↦ []⟩ : State Core Mux Cond) c .idle :=
  ⟨fun _ ↦ rfl, fun _ ↦ rfl⟩

/-- The core is at the place, and its requests are its grants and the one that put it there. -/
structure Owes (log : Log Core Mux) (s : State Core Mux Cond) (c : Core) (p : Place Mux Cond) :
    Prop where
  at_place : At s c p
  idle : p = .idle → muxesOf c log.asked = muxesOf c log.granted
  queued : ∀ m, p = .queued m → muxesOf c log.asked = muxesOf c log.granted ++ [m]
  waiting : ∀ k, p = .waiting k → ∃ m, muxesOf c log.asked = muxesOf c log.granted ++ [m]

/-! ### Several moves -/

/-- The facts about a list of wakes, put together from those about one. -/
structure Wakes (s : State Core Mux Cond) (k : Cond) (ws : List (Core × Mux)) : Prop where
  asked : (s.noteAll (ws.map fun x ↦ .wake k x.2)).asked = []
  arrived : (s.noteAll (ws.map fun x ↦ .wake k x.2)).arrived = ws
  left : (s.noteAll (ws.map fun x ↦ .wake k x.2)).left = []
  granted : ∀ m, coresAt m (s.noteAll (ws.map fun x ↦ .wake k x.2)).granted =
    gain (s.line m).head? ((s.nextAll (ws.map fun x ↦ .wake k x.2)).line m).head?

theorem wakes (ws : List (Core × Mux)) {s : State Core Mux Cond}
    (h : s.waiting k = ws.map Prod.fst ++ rest) : Wakes s k ws := by
  induction ws generalizing s with
  | nil => exact ⟨rfl, rfl, rfl, fun m ↦ by simp [noteAll, nextAll, gain, Log.empty]⟩
  | cons x ws ih =>
    obtain ⟨c, m'⟩ := x
    have hnext := waiting_wake h m'
    have hlegal := legal_wake h m'
    have hrest := ih hnext
    have hnote := note_wake (m := m') h
    constructor
    · show (s.note (.wake k m')).asked ++ _ = []
      rw [hnote, hrest.asked]
      rfl
    · show (s.note (.wake k m')).arrived ++ _ = _
      rw [hnote, hrest.arrived]
      rfl
    · show (s.note (.wake k m')).left ++ _ = []
      rw [hnote, hrest.left]
      rfl
    · intro m
      show coresAt m ((s.note (.wake k m')).granted ++ _) = gain (s.line m).head?
        (((s.next (.wake k m')).nextAll (ws.map fun x ↦ .wake k x.2)).line m).head?
      rw [coresAt_append, granted_eq_gain hlegal, hrest.granted, line_wakes _ hnext, line_wake h]
      exact gain_append _ _ _

/-- A run goes on with a list of wakes. -/
theorem Run.wakes (ws : List (Core × Mux)) (h : Run ok log s)
    (hok : ∀ log', log'.asked = log.asked → ∀ x ∈ ws, ok log' x.1 x.2)
    (hwait : s.waiting k = ws.map Prod.fst ++ rest) :
    Run ok (log.append (s.noteAll (ws.map fun x ↦ .wake k x.2)))
      (s.nextAll (ws.map fun x ↦ .wake k x.2)) := by
  induction ws generalizing log s with
  | nil =>
    show Run ok (log.append Log.empty) s
    rw [Log.append_empty]
    exact h
  | cons x ws ih =>
    obtain ⟨c, m'⟩ := x
    have hnext := waiting_wake hwait m'
    have hlegal := legal_wake hwait m'
    have hasked : (log.append (s.note (.wake k m'))).asked = log.asked := by
      rw [note_wake hwait]
      exact append_nil _
    have hstep : Run ok (log.append (s.note (.wake k m'))) (s.next (.wake k m')) := by
      apply h.step _ hlegal
      intro k₁ m₁ c₁ heq hhead
      cases heq
      rw [hwait] at hhead
      cases hhead
      exact hok log rfl _ mem_cons_self
    have hrest := ih hstep
      (fun log' hlog' x hx ↦ hok log' (hlog'.trans hasked) x (mem_cons_of_mem _ hx)) hnext
    rw [Log.append_assoc] at hrest
    exact hrest

section Accounts

variable {c : Core} {p : Place Mux Cond} {mv : Move Core Mux Cond}

section

variable (h : Owes log s c p)

include h

/-- The requests of a core are its grants and at most one more. -/
theorem Owes.exists_pending :
    ∃ o : Option Mux, muxesOf c log.asked = muxesOf c log.granted ++ o.toList ∧
      (o = none ↔ p = .idle) := by
  cases p with
  | idle => exact ⟨none, by simpa using h.idle rfl, by simp⟩
  | queued m => exact ⟨some m, h.queued m rfl, by simp⟩
  | waiting k =>
    obtain ⟨m, hm⟩ := h.waiting k rfl
    exact ⟨some m, hm, by simp⟩

/-- A core that stays and neither asks nor is granted anything. -/
theorem Owes.stay {log' : Log Core Mux} {s' : State Core Mux Cond} (hat : At s' c p)
    (hasked : muxesOf c log'.asked = muxesOf c log.asked)
    (hgranted : muxesOf c log'.granted = muxesOf c log.granted) : Owes log' s' c p where
  at_place := hat
  idle := by rw [hasked, hgranted]; exact h.idle
  queued := by rw [hasked, hgranted]; exact h.queued
  waiting := by rw [hasked, hgranted]; exact h.waiting

theorem Owes.enter {d : Core} (hd : At s d .idle) :
    Owes (log.append (s.note (.enter d m))) (s.next (.enter d m)) c
      (s.placeAfter c p (.enter d m)) := by
  have hplace := h.at_place.enter (m := m) hd
  by_cases hc : c = d
  · subst hc
    obtain rfl := h.at_place.eq_idle hd
    by_cases hline : s.line m = []
    · simp only [placeAfter, hline, ne_eq, not_true_eq_false, and_false, if_false] at hplace ⊢
      refine ⟨hplace, fun _ ↦ ?_, by simp, by simp⟩
      simp [Log.append, note, muxesOf_admitted, hline, h.idle rfl]
    · simp only [placeAfter, hline, ne_eq, not_false_eq_true, and_self, if_true] at hplace ⊢
      refine ⟨hplace, by simp, fun m' hm' ↦ ?_, by simp⟩
      obtain rfl := Place.queued.inj hm'
      simp [Log.append, note, muxesOf_admitted, hline, h.idle rfl]
  · simp only [placeAfter, hc, false_and, if_false] at hplace ⊢
    apply h.stay hplace
    · simp [Log.append, note, Ne.symm hc]
    · simp [Log.append, note, muxesOf_admitted, hc]

theorem Owes.leave {d : Core} :
    Owes (log.append (s.note (.leave d m))) (s.next (.leave d m)) c
      (s.placeAfter c p (.leave d m)) := by
  have hplace := h.at_place.leave (c := d) (m := m)
  by_cases hc : (s.line m).tail.head? = some c
  · obtain rfl := h.at_place.eq_queued (mem_of_head? hc)
    simp only [placeAfter, hc, if_true] at hplace ⊢
    refine ⟨hplace, fun _ ↦ ?_, by simp, by simp⟩
    simp [Log.append, note, hc, h.queued m rfl]
  · simp only [placeAfter, hc, if_false] at hplace ⊢
    apply h.stay hplace
    · simp [Log.append, note]
    · cases hnext : (s.line m).tail.head? with
      | none => simp [Log.append, note, hnext]
      | some e =>
        have he : e ≠ c := fun heq ↦ hc (heq ▸ hnext)
        simp [Log.append, note, hnext, he]

theorem Owes.park {d : Core} (hd : At s d .idle) :
    Owes (log.append (s.note (.park d k m))) (s.next (.park d k m)) c
      (s.placeAfter c p (.park d k m)) := by
  have hplace := h.at_place.park (k := k) (m := m) hd
  by_cases hc : c = d
  · subst hc
    obtain rfl := h.at_place.eq_idle hd
    simp only [placeAfter, if_true] at hplace ⊢
    refine ⟨hplace, by simp, by simp, fun k' _ ↦ ⟨m, ?_⟩⟩
    simp [Log.append, note, h.idle rfl]
  · simp only [placeAfter, hc, if_false] at hplace ⊢
    apply h.stay hplace
    · simp [Log.append, note, Ne.symm hc]
    · simp [Log.append, note]

theorem Owes.wake (hk : s.waiting k ≠ [])
    (hok : ∀ d, (s.waiting k).head? = some d → log.LastAsked d m) :
    Owes (log.append (s.note (.wake k m))) (s.next (.wake k m)) c
      (s.placeAfter c p (.wake k m)) := by
  obtain ⟨d, rest, hwait⟩ := exists_cons_of_ne_nil hk
  have hplace := h.at_place.wake (m := m) hk
  have hlast := hok d (by rw [hwait, head?_cons])
  rw [note_wake hwait]
  by_cases hc : c = d
  · subst hc
    obtain rfl := h.at_place.eq_waiting (hwait ▸ mem_cons_self)
    -- the mutex is the one of the request that put the core here
    obtain ⟨m', hasked⟩ := h.waiting k rfl
    have hm' : m' = m := by
      unfold Log.LastAsked at hlast
      rw [hasked, getLast?_concat] at hlast
      exact Option.some.inj hlast
    subst hm'
    by_cases hline : s.line m' = []
    · simp only [placeAfter, hwait, head?_cons, hline, if_true] at hplace ⊢
      refine ⟨hplace, fun _ ↦ ?_, by simp, by simp⟩
      simp [Log.append, muxesOf_admitted, hline, hasked]
    · simp only [placeAfter, hwait, head?_cons, hline, if_true, if_false] at hplace ⊢
      refine ⟨hplace, by simp, fun m hm ↦ ?_, by simp⟩
      obtain rfl := Place.queued.inj hm
      simp [Log.append, muxesOf_admitted, hline, hasked]
  · have hne : ¬ some d = some c := fun heq ↦ hc (Option.some.inj heq).symm
    simp only [placeAfter, hwait, head?_cons, hne, if_false] at hplace ⊢
    apply h.stay hplace
    · simp [Log.append]
    · simp [Log.append, muxesOf_admitted, hc]

end

/-- If each woken core enters the line that it asked for, the requests of a core are its grants and
at most one more. -/
theorem Run.asked_eq (h : Run ok log s) (hok : ∀ log c m, ok log c m → log.LastAsked c m)
    (c : Core) : ∃ p, Owes log s c p := by
  induction h with
  | start => exact ⟨.idle, at_start c, fun _ ↦ rfl, by simp, by simp⟩
  | step h mv hmv hwake ih =>
    obtain ⟨p, hp⟩ := ih
    cases mv with
    | enter d m => exact ⟨_, hp.enter hmv⟩
    | leave d m => exact ⟨_, hp.leave⟩
    | park d k m => exact ⟨_, hp.park hmv⟩
    | wake k m => exact ⟨_, hp.wake hmv fun d hd ↦ hok _ _ _ (hwake k m d rfl hd)⟩

end Accounts

end Run

end CarbonSim.Monitor
