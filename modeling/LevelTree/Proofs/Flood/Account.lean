import LevelTree.Proofs.Flood.Moves

/-!
# The account of a flood

What every flood keeps, whatever its ranking is. The positions that were seen are those that were
added and those that are awaited, each of them once; a waiting record carries the level of its
position; and the readable neighbours of a position are seen as far as its cursor tells, and all of
them once it is added. Every move keeps this (`Accounted.move`) unless it strands the flood.
-/

namespace LevelTree.Flood

variable {α : Type} {rank : Ranking α} {t : Terrain α} {s u : State α} {p q : Position} {l : α}

/-- What a phase says about the waiting records. -/
def Phase.Allows : Phase → List (Record α) → Prop
  | .rise, waiting => waiting ≠ []
  | .close, waiting | .finished, waiting => waiting = []
  | .survey, _ | .stranded, _ => True

theorem Phase.allows_of_survey {phase : Phase} {waiting : List (Record α)} (h : phase = .survey) :
    phase.Allows waiting := h ▸ trivial

/-- Every marked position is added or awaited, once, and can be reached, and what is readable next
to an added position is marked. -/
structure Tallied (t : Terrain α) (m : Mask) (added awaited : List Position) : Prop where
  marks : ∀ p, m.Marks p ↔ p ∈ added ∨ p ∈ awaited
  nodup : (added ++ awaited).Nodup
  count : m.countUnset + (added ++ awaited).length = m.extents.volume
  reachable : ∀ p, m.Marks p → t.Reachable p
  surrounded : ∀ p ∈ added, ∀ q, t.Readable q → Adjacent p q → m.Marks q

/-- The seen positions are tallied, records carry the levels of their positions, and a cursor tells
which neighbours of its position were looked at. -/
structure Accounted (t : Terrain α) (s : State α) : Prop where
  walk : s.walk.sides = t.sides
  sides : s.visited.extents.sides = t.sides
  full : s.visited.Full
  intact : s.frontier.Intact []
  tallied : Tallied t s.visited s.added s.awaited
  origin : s.visited.Marks (Extents.origin t.sides)
  level : t.level? s.position = some s.level
  levels : ∀ r ∈ s.frontier.waiting, t.level? r.position = some r.level
  resumable : ∀ r ∈ s.frontier.waiting, Examined t s.visited r.position r.cursor
  current : s.phase = .survey → Examined t s.visited s.position s.walk.cursor
  waits : s.phase.Allows s.frontier.waiting

theorem Examined.mono {m n : Mask} {k : Nat} (h : Examined t m p k)
    (hmn : ∀ q, m.Marks q → n.Marks q) : Examined t n p k :=
  fun j hj q hq hr => hmn q (h j hj q hq hr)

theorem Examined.succ {m : Mask} {k : Nat} (h : Examined t m p k)
    (hk : ∀ q, Walk.neighbor t.sides k p = .ok ⟨true, q⟩ → t.Readable q → m.Marks q) :
    Examined t m p (k + 1) := fun j hj q hq hr => by
  rcases Nat.lt_succ_iff_lt_or_eq.1 hj with hj | rfl
  · exact h j hj q hq hr
  · exact hk q hq hr

/-- The sides of a terrain that a flood enters are words. -/
theorem words (flood : t.Floodable) (fits : t.Fits) : ∀ side ∈ t.sides, side < Word.limit := by
  intro side hside
  exact Nat.lt_of_le_of_lt (Word.le_plainProduct flood.positive hside) fits.volume

/-! ## Tallies -/

/-- A position that is seen for the first time is awaited. -/
theorem Tallied.see {m n : Mask} {added awaited awaited' : List Position}
    (h : Tallied t m added awaited) (marked : m.Adds n q) (unseen : ¬ m.Marks q)
    (reachable : t.Reachable q) (seen : awaited'.Perm (q :: awaited)) :
    Tallied t n added awaited' := by
  have hperm : (added ++ awaited').Perm (q :: (added ++ awaited)) :=
    (seen.append_left added).trans List.perm_middle
  refine ⟨fun p => ?_, ?_, ?_, fun p hp => ?_, fun p hp r hr hadj => ?_⟩
  · rw [marked.marks, h.marks, seen.mem_iff, List.mem_cons]
    exact or_left_comm
  · rw [hperm.nodup_iff, List.nodup_cons]
    exact ⟨fun hq => unseen ((h.marks q).2 (List.mem_append.1 hq)), h.nodup⟩
  · rw [hperm.length_eq, marked.extents, ← h.count, ← marked.unset, List.length_cons]
    omega
  · rcases (marked.marks p).1 hp with rfl | hp
    · exact reachable
    · exact h.reachable p hp
  · exact (marked.marks r).2 (.inr (h.surrounded p hp r hr hadj))

/-- An awaited position with all its readable neighbours marked can be added. -/
theorem Tallied.add {m : Mask} {added awaited : List Position}
    (h : Tallied t m added (p :: awaited))
    (surrounded : ∀ q, t.Readable q → Adjacent p q → m.Marks q) :
    Tallied t m (added ++ [p]) awaited := by
  have heq : added ++ [p] ++ awaited = added ++ p :: awaited := by simp
  refine ⟨fun q => ?_, heq ▸ h.nodup, heq ▸ h.count, h.reachable, fun r hr => ?_⟩
  · rw [h.marks, List.mem_append, List.mem_cons, List.mem_singleton, or_assoc]
  · rcases List.mem_append.1 hr with hr | hr
    · exact h.surrounded r hr
    · exact List.mem_singleton.1 hr ▸ surrounded

theorem Tallied.congr {m : Mask} {added awaited awaited' : List Position}
    (h : Tallied t m added awaited) (hperm : awaited'.Perm awaited) :
    Tallied t m added awaited' := by
  have happend : (added ++ awaited').Perm (added ++ awaited) := hperm.append_left added
  refine ⟨fun p => ?_, happend.nodup_iff.2 h.nodup, ?_, h.reachable, h.surrounded⟩
  · rw [h.marks, hperm.mem_iff]
  · rw [happend.length_eq, h.count]

/-! ## Surveys -/

theorem Accounted.position_marked (h : Accounted t s) (phase : s.phase = .survey) :
    s.visited.Marks s.position := (h.tallied.marks _).2 (.inr (by simp [State.awaited, phase]))

/-- A position inside is unseen exactly when it is readable and not marked. -/
theorem unseen?_spec (hsides : s.visited.extents.sides = t.sides) (hp : Extents.Inside t.sides p) :
    s.unseen? t p = .ok none ∧ (t.Readable p → s.visited.Marks p) ∨
      ∃ i l, s.unseen? t p = .ok (some (i, l)) ∧ s.visited.extents.index? p = some i ∧
        t.level? p = some l ∧ ¬ s.visited.Marks p := by
  obtain ⟨i, hi⟩ := Extents.index?_eq_some (e := s.visited.extents) (hsides ▸ hp)
  simp only [State.unseen?, Extents.indexByGrowth_eq, bind, Except.bind, pure, Except.pure, hi]
  by_cases hbit : s.visited.bit i = true
  · refine .inl ⟨by simp [hbit], fun _ => ⟨i, hi, hbit⟩⟩
  · rw [if_neg hbit]
    cases hl : t.level? p with
    | none => exact .inl ⟨rfl, fun hr => absurd hr.2 (by simp [hl])⟩
    | some l =>
      exact .inr ⟨i, l, rfl, rfl, rfl, (Mask.not_marks_iff hi).2 (by simpa using hbit)⟩

/-- A survey with a neighbour left comes to it. -/
theorem Accounted.exists_next (h : Accounted t s) (flood : t.Floodable) (fits : t.Fits)
    (phase : s.phase = .survey) (left : s.walk.hasNext = true) :
    ∃ n, Walk.neighbor t.sides s.walk.cursor s.position = .ok n ∧
      s.walk.next s.position = .ok (n, s.walk.seek (s.walk.cursor + 1)) ∧
      (n.inside = true → Extents.Inside t.sides n.position ∧ Adjacent s.position n.position) := by
  have hinside : Extents.Inside t.sides s.position := h.sides ▸ (h.position_marked phase).inside
  have hleft : s.walk.cursor < t.sides.length * 2 := by
    simpa [Walk.hasNext, Walk.bound, h.walk] using left
  obtain ⟨n, hn, hspec⟩ := Walk.neighbor_spec hinside (words flood fits) hleft
  have hadd : Word.add s.walk.cursor 1 = .ok (s.walk.cursor + 1) :=
    Word.add_of_lt (by have := fits.neighbors; omega)
  exact ⟨n, hn, by simp [Walk.next, h.walk, hn, hadd, Walk.seek], hspec⟩

/-- A survey with a neighbour left looks at it. -/
theorem Accounted.exists_looks (rank : Ranking α) (h : Accounted t s) (flood : t.Floodable)
    (fits : t.Fits) (phase : s.phase = .survey) (left : s.walk.hasNext = true) :
    ∃ u, s.examine rank t = .ok u ∧ Looks rank t s u := by
  obtain ⟨n, hn, hnext, hspec⟩ := h.exists_next flood fits phase left
  simp only [State.examine, hnext, bind, Except.bind]
  have examined : (∀ q, n = ⟨true, q⟩ → t.Readable q → s.visited.Marks q) →
      Examined t s.visited s.position (s.walk.cursor + 1) := fun hq =>
    (h.current phase).succ fun q hk => hq q (by simpa using hn.symm.trans hk)
  by_cases hin : n.inside = true
  · obtain ⟨hqin, hadj⟩ := hspec hin
    have hneighbor : Walk.neighbor t.sides s.walk.cursor s.position = .ok ⟨true, n.position⟩ := by
      rw [hn, ← hin]
    rw [if_pos hin]
    rcases unseen?_spec (s := s.pass) h.sides hqin with ⟨hu, hread⟩ | ⟨i, l, hu, hi, hl, hnew⟩
    · refine ⟨s.pass, by rw [State.pass] at hu; simp [hu, pure, Except.pure, State.pass], .skip ?_⟩
      exact examined fun q hq => by subst hq; exact hread
    · obtain ⟨visited, hset, marked⟩ := Mask.exists_adds h.full hi hnew
      have found : Found t s n.position l := ⟨hneighbor, hqin, hadj, hl, hnew⟩
      rw [State.pass] at hu
      simp only [hu, State.discover, hset, bind, Except.bind]
      by_cases high : rank l s.level ≠ .lt
      · obtain ⟨frontier, pushed, -⟩ := Frontier.push_spec rank ⟨n.position, l, 0⟩ h.intact
        rw [if_pos high]
        simp only [pushed, pure, Except.pure]
        exact ⟨_, rfl, .wait found marked pushed high⟩
      · obtain ⟨frontier, pushed, -⟩ := Frontier.push_spec rank
          ⟨s.position, s.level, s.walk.cursor + 1⟩ h.intact
        rw [if_neg high]
        simp only [Walk.seek, pushed, pure, Except.pure]
        exact ⟨_, rfl, .descend found marked pushed (by simpa using high)⟩
  · rw [if_neg hin]
    refine ⟨s.pass, rfl, .skip (examined fun q hq => ?_)⟩
    simp [hq] at hin

theorem Found.readable (found : Found t s q l) : t.Readable q :=
  ⟨found.inside, by simp [found.level]⟩

theorem Accounted.reachable_found (h : Accounted t s) (phase : s.phase = .survey)
    (found : Found t s q l) : t.Reachable q :=
  (h.tallied.reachable _ (h.position_marked phase)).step found.readable found.adjacent

/-- Where a found position is seen, the survey goes on as before. -/
theorem Accounted.current_see (h : Accounted t s) (phase : s.phase = .survey) (found : Found t s q l)
    {m : Mask} (marked : s.visited.Adds m q) : Examined t m s.position (s.walk.cursor + 1) := by
  refine ((h.current phase).mono fun p hp => (marked.marks p).2 (.inr hp)).succ fun p hp _ => ?_
  obtain rfl : q = p := by simpa using found.neighbor.symm.trans hp
  exact (marked.marks q).2 (.inl rfl)

/-- A record that is pushed joins the waiting ones with its level and its cursor. -/
theorem Accounted.waiting_push (h : Accounted t s) {frontier : Frontier α} {r : Record α} {m : Mask}
    (hperm : frontier.waiting.Perm (r :: s.frontier.waiting)) (marked : s.visited.Adds m q)
    (level : t.level? r.position = some r.level) (resumable : Examined t m r.position r.cursor) :
    ∀ w ∈ frontier.waiting, t.level? w.position = some w.level ∧ Examined t m w.position w.cursor := by
  intro w hw
  rcases List.mem_cons.1 (hperm.mem_iff.1 hw) with rfl | hw
  · exact ⟨level, resumable⟩
  · exact ⟨h.levels w hw, (h.resumable w hw).mono fun p hp => (marked.marks p).2 (.inr hp)⟩

/-- Nothing was looked at around a position that is seen for the first time. -/
theorem examined_zero {m : Mask} : Examined t m p 0 := fun j hj => absurd hj (Nat.not_lt_zero j)

/-- A found position that waits keeps the account. -/
theorem Accounted.see (h : Accounted t s) (phase : s.phase = .survey) (found : Found t s q l)
    {visited : Mask} {frontier : Frontier α} (marked : s.visited.Adds visited q)
    (pushed : s.frontier.push rank ⟨q, l, 0⟩ = .ok frontier) :
    Accounted t (s.see visited frontier) := by
  obtain ⟨intact, hperm⟩ := Frontier.spec_of_push h.intact pushed
  have waiting := h.waiting_push hperm marked found.level examined_zero
  exact {
    walk := h.walk
    sides := marked.extents ▸ h.sides
    full := marked.full
    intact := intact
    tallied := h.tallied.see marked found.unseen (h.reachable_found phase found)
      (awaited_see h.intact pushed phase)
    origin := (marked.marks _).2 (.inr h.origin)
    level := h.level
    levels := fun w hw => (waiting w hw).1
    resumable := fun w hw => (waiting w hw).2
    current := fun _ => h.current_see phase found marked
    waits := Phase.allows_of_survey phase }

/-- Going down adds no position. -/
theorem added_sink {visited : Mask} {frontier : Frontier α} :
    (s.sink visited frontier q l).added = s.added := by
  simp [State.added, additions, Event.position?]

/-- A found position that is entered at once keeps the account, and leaves the one before to wait. -/
theorem Accounted.sink (h : Accounted t s) (phase : s.phase = .survey) (found : Found t s q l)
    {visited : Mask} {frontier : Frontier α} (marked : s.visited.Adds visited q)
    (pushed : s.frontier.push rank ⟨s.position, s.level, s.walk.cursor + 1⟩ = .ok frontier) :
    Accounted t (s.sink visited frontier q l) := by
  obtain ⟨intact, hperm⟩ := Frontier.spec_of_push h.intact pushed
  have waiting := h.waiting_push hperm marked h.level (h.current_see phase found marked)
  exact {
    walk := h.walk
    sides := marked.extents ▸ h.sides
    full := marked.full
    intact := intact
    tallied := by
      rw [added_sink]
      exact h.tallied.see marked found.unseen (h.reachable_found phase found)
        (awaited_sink h.intact pushed phase)
    origin := (marked.marks _).2 (.inr h.origin)
    level := found.level
    levels := fun w hw => (waiting w hw).1
    resumable := fun w hw => (waiting w hw).2
    current := fun _ => examined_zero
    waits := Phase.allows_of_survey phase }

/-- A look keeps the account. -/
theorem Accounted.look (h : Accounted t s) (phase : s.phase = .survey) (looks : Looks rank t s u) :
    Accounted t u ∧ u.phase = .survey := by
  cases looks with
  | skip examined => exact ⟨{ h with walk := h.walk, current := fun _ => examined }, phase⟩
  | wait found marked pushed _ => exact ⟨h.see phase found marked pushed, phase⟩
  | descend found marked pushed _ => exact ⟨h.sink phase found marked pushed, phase⟩

/-- At the end of a survey, all readable neighbours of the position are marked. -/
theorem Accounted.surrounded (h : Accounted t s) (flood : t.Floodable) (fits : t.Fits)
    (phase : s.phase = .survey) (done : s.walk.hasNext = false) (hq : t.Readable q)
    (hadj : Adjacent s.position q) : s.visited.Marks q := by
  have hinside : Extents.Inside t.sides s.position := h.sides ▸ (h.position_marked phase).inside
  have hdone : t.sides.length * 2 ≤ s.walk.cursor := by
    simpa [Walk.hasNext, Walk.bound, h.walk] using done
  obtain ⟨k, hk, hneighbor⟩ := Walk.exists_neighbor hinside hq.1 (words flood fits) hadj
  exact h.current phase k (by omega) q hneighbor hq

theorem added_arrive : s.arrive.added = s.added ++ [s.position] := by
  simp [State.added, additions, Event.position?]

theorem phase_arrive : s.arrive.phase ≠ .survey ∧ s.arrive.phase.Allows s.frontier.waiting := by
  unfold State.arrive
  cases hempty : s.frontier.isEmpty with
  | true => exact ⟨by simp, Frontier.isEmpty_iff.1 hempty⟩
  | false => exact ⟨by simp, fun h => by simp [Frontier.isEmpty_iff.2 h] at hempty⟩

theorem phase_arrive_or : s.arrive.phase = .close ∨ s.arrive.phase = .rise := by
  unfold State.arrive
  dsimp only
  split <;> simp

/-- The position that is added is no longer awaited. -/
theorem awaited_arrive (phase : s.phase = .survey) : s.awaited = s.position :: s.arrive.awaited := by
  rw [State.awaited_of_survey phase, State.awaited_of_ne phase_arrive.1]
  rfl

/-- The end of a survey keeps the account. -/
theorem Accounted.arrive (h : Accounted t s) (flood : t.Floodable) (fits : t.Fits)
    (phase : s.phase = .survey) (done : s.walk.hasNext = false) : Accounted t s.arrive := by
  obtain ⟨hphase, hallows⟩ := phase_arrive (s := s)
  have htallied := h.tallied
  rw [awaited_arrive phase] at htallied
  exact {
    walk := h.walk
    sides := h.sides
    full := h.full
    intact := h.intact
    tallied := by
      rw [added_arrive]
      exact htallied.add fun q hq hadj => h.surrounded flood fits phase done hq hadj
    origin := h.origin
    level := h.level
    levels := h.levels
    resumable := h.resumable
    current := fun hk => absurd hk hphase
    waits := hallows }

/-- Entering a waiting position keeps the account. -/
theorem Accounted.enter (h : Accounted t s) (phase : s.phase = .rise) {slot : Nat} {r : Record α}
    {rest : Frontier α} (popped : s.frontier.pop rank = some (slot, r, rest)) :
    Accounted t (s.enter slot r rest) := by
  obtain ⟨intact, hperm, -⟩ := Frontier.pop_spec h.intact popped
  have hrest : ∀ w ∈ rest.waiting, w ∈ s.frontier.waiting := fun w hw =>
    hperm.mem_iff.2 (List.mem_cons_of_mem _ hw)
  have hr : r ∈ s.frontier.waiting := hperm.mem_iff.2 List.mem_cons_self
  exact {
    walk := h.walk
    sides := h.sides
    full := h.full
    intact := intact.release
    tallied := h.tallied.congr (awaited_enter h.intact phase popped)
    origin := h.origin
    level := h.levels r hr
    levels := fun w hw => h.levels w (hrest w hw)
    resumable := fun w hw => h.resumable w (hrest w hw)
    current := fun _ => h.resumable r hr
    waits := trivial }

/-- Settling the stack adds no position. -/
theorem additions_settle {floor level : α} {basins : List (Basin α)} :
    additions (settle rank floor level basins).events = [] := by
  induction basins with
  | nil => rfl
  | cons b rest ih =>
    simp only [settle]
    split
    · rfl
    · rfl
    · simpa [additions, Event.position?] using ih

theorem added_settleAt {level : α} : (s.settleAt rank level).added = s.added := by
  have hnone : additions (settle rank s.floor level s.basins).events = [] := additions_settle
  simp only [additions] at hnone
  simp [State.added, additions, hnone]

theorem awaited_settleAt {level : α} (phase : (s.settleAt rank level).phase = s.phase) :
    (s.settleAt rank level).awaited = s.awaited := by
  rw [State.awaited, State.awaited, phase]
  rfl

/-- Settling the stack leaves the phase unless the flood is stranded. -/
theorem phase_settleAt_of_running {level : α} (running : (s.settleAt rank level).phase ≠ .stranded) :
    (s.settleAt rank level).phase = s.phase := by
  unfold State.settleAt at running ⊢
  dsimp only at running ⊢
  split
  next hstranded => simp [hstranded] at running
  next => rfl

/-- Settling the stack keeps the account unless the flood is stranded. -/
theorem Accounted.settleAt (h : Accounted t s) {level : α}
    (running : (s.settleAt rank level).phase ≠ .stranded) :
    Accounted t (s.settleAt rank level) := by
  have hphase := phase_settleAt_of_running running
  exact {
    walk := h.walk
    sides := h.sides
    full := h.full
    intact := h.intact
    tallied := by
      rw [added_settleAt, awaited_settleAt hphase]
      exact h.tallied
    origin := h.origin
    level := h.level
    levels := h.levels
    resumable := h.resumable
    current := fun hk => h.current (hphase.symm.trans hk)
    waits := by
      rw [hphase]
      exact h.waits }

/-- An emission adds no position. -/
theorem added_tell_emit {n : Nat} : (s.tell (.emit n)).added = s.added := by
  simp [State.added, additions, Event.position?]

theorem Accounted.waiting_of_close (h : Accounted t s) (phase : s.phase = .close) :
    s.frontier.waiting = [] := by
  have hwaits := h.waits
  rwa [phase] at hwaits

theorem Accounted.close (h : Accounted t s) (phase : s.phase = .close)
    (running : (s.close rank).phase ≠ .stranded) : Accounted t (s.close rank) := by
  have hfinished : Accounted t { s with phase := .finished } := by
    have hawaited : State.awaited { s with phase := .finished } = s.awaited := by
      simp [State.awaited, phase]
    exact {
      walk := h.walk
      sides := h.sides
      full := h.full
      intact := h.intact
      tallied := by
        rw [hawaited]
        exact h.tallied
      origin := h.origin
      level := h.level
      levels := h.levels
      resumable := h.resumable
      current := fun hk => by cases hk
      waits := h.waiting_of_close phase }
  unfold State.close at running ⊢
  split
  · exact { hfinished with tallied := by rw [added_tell_emit]; exact hfinished.tallied }
  next hbasins =>
    rw [if_neg hbasins] at running
    exact hfinished.settleAt running

/-- Every move keeps the account unless it strands the flood. -/
theorem Accounted.move (h : Accounted t s) (flood : t.Floodable) (fits : t.Fits)
    (moves : Moves rank t s u) (running : u.phase ≠ .stranded) : Accounted t u := by
  cases moves with
  | look phase _ looks => exact (h.look phase looks).1
  | arrive phase done => exact h.arrive flood fits phase done
  | stay phase popped _ => exact h.enter phase popped
  | climb phase popped _ => exact (h.enter phase popped).settleAt running
  | close phase => exact h.close phase running

end LevelTree.Flood
