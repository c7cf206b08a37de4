import LevelTree.Proofs.Connectivity
import LevelTree.Proofs.Ledger

/-!
# Terraces

What the regions on the stack of a flood hold, when levels are ranked by a total preorder. Their
levels fall towards the top, no position that is out lies below the top, and what is next to a held
position is held by the same region or is out at no lower level. All that lies up to a level, held
or out, hangs together there. Where nothing is out up to the level of the topmost region, that region
is a component (`Terraced.complete`). Seeing, adding, raising and merging keep this.
-/

namespace LevelTree.Flood

variable {α : Type} {rank : Ranking α} {t : Terrain α} {out out' : Position → Prop}
  {h g : Holding α} {rest : List (Nat × Holding α)} {p q : Position} {a b level : α}

/-- The floor before it takes in a basin, when its level has no part in the stack. -/
def Idle (entry : Nat × Holding α) : Prop := entry.1 = 0 ∧ entry.2.held = []

/-- What a region holds does not lie above it, is fresh when it lies level with it, and has
neighbours that the region holds too or that are out and not below it. -/
structure Sealed (t : Terrain α) (rank : Ranking α) (out : Position → Prop) (h : Holding α) :
    Prop where
  upTo : ∀ p ∈ h.held, t.UpTo rank h.level p
  fresh : ∀ p, p ∈ h.fresh ↔ p ∈ h.held ∧ ∃ l, t.At p l ∧ rank l h.level = .eq
  closed : ∀ p ∈ h.held, ∀ q l, t.At q l → Adjacent p q →
    q ∈ h.held ∨ out q ∧ rank h.level l ≠ .gt

/-- The position is out or held, and lies up to the level, with its region if it is held. -/
def Live (t : Terrain α) (rank : Ranking α) (out : Position → Prop) (regions : List (Holding α))
    (level : α) (p : Position) : Prop :=
  (out p ∧ t.UpTo rank level p) ∨ ∃ h ∈ regions, p ∈ h.held ∧ rank h.level level ≠ .gt

/-- A stack of regions, the topmost one `h`, over a terrain of which the positions `out` were seen
and not added. -/
structure Terraced (t : Terrain α) (rank : Ranking α) (out : Position → Prop) (h : Holding α)
    (rest : List (Nat × Holding α)) : Prop where
  above : ∀ q l, out q → t.At q l → rank h.level l ≠ .gt
  under : ∀ e ∈ rest, Idle e ∨ rank h.level e.2.level = .lt
  chain : rest.Pairwise fun d e => Idle e ∨ rank d.2.level e.2.level = .lt
  /-- The position that was left for a lower one is out. -/
  guarded : ∀ e ∈ rest, Idle e ∨ ∃ q l, out q ∧ t.At q l ∧ rank l e.2.level = .eq
  sealed : ∀ g ∈ h :: rest.map (·.2), Sealed t rank out g
  joined : ∀ level p q, Live t rank out (h :: rest.map (·.2)) level p →
    Live t rank out (h :: rest.map (·.2)) level q → Joined (t.UpTo rank level) p q

/-- What a region is when it is emitted: a component at its level, without repetitions, where some of
it is fresh and what is fresh is what lies level with the region. -/
structure Complete (t : Terrain α) (rank : Ranking α) (h : Holding α) : Prop where
  nodup : h.held.Nodup
  component : IsComponent (t.UpTo rank h.level) (· ∈ h.held)
  recent : h.fresh ≠ []
  fresh : ∀ p, p ∈ h.fresh ↔ p ∈ h.held ∧ ∃ l, t.At p l ∧ rank l h.level = .eq

theorem Sealed.mono (hg : Sealed t rank out g) (hout : ∀ p, out p → out' p) :
    Sealed t rank out' g where
  upTo := hg.upTo
  fresh := hg.fresh
  closed := fun p hp q l hq hpq => (hg.closed p hp q l hq hpq).imp_right (.imp_left (hout q))

theorem sealed_ofLevel : Sealed t rank out (.ofLevel level) where
  upTo := by simp [Holding.ofLevel]
  fresh := by simp [Holding.ofLevel]
  closed := by simp [Holding.ofLevel]

/-- A region keeps its seal when a position that is not next to it is no longer out. -/
theorem Sealed.of_left (hg : Sealed t rank out g) (left : ∀ r, out r ↔ r = p ∨ out' r)
    (away : ∀ q ∈ g.held, ¬ Adjacent q p) : Sealed t rank out' g where
  upTo := hg.upTo
  fresh := hg.fresh
  closed := fun q hq r l hr hqr => by
    rcases hg.closed q hq r l hr hqr with hr' | ⟨hr', hle⟩
    · exact .inl hr'
    · rcases (left r).1 hr' with rfl | hr'
      · exact absurd hqr (away q hq)
      · exact .inr ⟨hr', hle⟩

/-- A position on the level of a region is added when its neighbours are in the region or out. -/
theorem Sealed.add (hg : Sealed t rank out g) (hp : t.At p a) (same : rank a g.level = .eq)
    (left : ∀ r, out r ↔ r = p ∨ out' r) (closed : ∀ q l, t.At q l → Adjacent p q →
      q ∈ g.held ∨ out q ∧ rank g.level l ≠ .gt) : Sealed t rank out' (g.add p) := by
  have hheld : ∀ r, r ∈ (g.add p).held ↔ r ∈ g.held ∨ r = p := by simp [Holding.add]
  have hfresh : ∀ r, r ∈ (g.add p).fresh ↔ r ∈ g.fresh ∨ r = p := by simp [Holding.add]
  constructor
  case upTo =>
    intro r hr
    rcases (hheld r).1 hr with hr | rfl
    · exact hg.upTo r hr
    · exact hp.upTo_iff.2 (by simp [Holding.add, same])
  case fresh =>
    intro r
    rw [hfresh, hheld, hg.fresh, or_and_right]
    refine or_congr_right ⟨?_, And.left⟩
    rintro rfl
    exact ⟨rfl, a, hp, same⟩
  case closed =>
    intro r hr q l hq hrq
    have hor : q ∈ g.held ∨ out q ∧ rank g.level l ≠ .gt := by
      rcases (hheld r).1 hr with hr | rfl
      · exact hg.closed r hr q l hq hrq
      · exact closed q l hq hrq
    rw [hheld]
    rcases hor with hq' | ⟨hq', hle⟩
    · exact .inl (.inl hq')
    · rcases (left q).1 hq' with rfl | hq'
      · exact .inl (.inr rfl)
      · exact .inr ⟨hq', hle⟩

/-- Nothing that a region holds lies level with a higher level, and nothing is fresh after an
emission. -/
theorem not_level_of_lt (order : TotalPreorder rank) (hg : Sealed t rank out g)
    (up : rank g.level level = .lt) (p : Position) :
    p ∈ g.settled.fresh ↔ p ∈ g.held ∧ ∃ l, t.At p l ∧ rank l level = .eq := by
  refine ⟨fun hp => by simp [Holding.settled] at hp, ?_⟩
  rintro ⟨hp, l, hl, heq⟩
  have hle : rank l g.level ≠ .gt := hl.upTo_iff.1 (hg.upTo p hp)
  simp [order.lt_of_le_of_lt hle up] at heq

/-- A region that was emitted can be raised as long as all that is out stays above. -/
theorem Sealed.raise (order : TotalPreorder rank) (hg : Sealed t rank out g)
    (up : rank g.level level = .lt) (low : ∀ q l, out q → t.At q l → rank level l ≠ .gt) :
    Sealed t rank out (g.settled.raise level) where
  upTo := fun p hp => (hg.upTo p hp).mono order (order.le_of_lt up)
  fresh := not_level_of_lt (g := g) order hg up
  closed := by
    intro p hp q l hq hpq
    rcases hg.closed p hp q l hq hpq with hq' | ⟨hq', -⟩
    · exact .inl hq'
    · exact .inr ⟨hq', low q l hq' hq⟩

/-- A region takes in a lower one that was emitted as long as all that is out stays above. -/
theorem Sealed.merge (order : TotalPreorder rank) (hg : Sealed t rank out g)
    (hh : Sealed t rank out h) (up : rank h.level g.level = .lt)
    (low : ∀ q l, out q → t.At q l → rank g.level l ≠ .gt) :
    Sealed t rank out (g.merge h.settled) := by
  have hheld : ∀ p, p ∈ (g.merge h.settled).held ↔ p ∈ g.held ∨ p ∈ h.held := by
    simp [Holding.merge, Holding.settled]
  have hfresh : ∀ p, p ∈ (g.merge h.settled).fresh ↔ p ∈ g.fresh := by
    simp [Holding.merge, Holding.settled]
  constructor
  case upTo =>
    intro p hp
    rcases (hheld p).1 hp with hp | hp
    · exact hg.upTo p hp
    · exact (hh.upTo p hp).mono order (order.le_of_lt up)
  case fresh =>
    intro p
    have hnone := (not_level_of_lt order hh up p).2
    rw [hfresh, hheld, hg.fresh, or_and_right]
    exact (or_iff_left fun hp => by simpa [Holding.settled] using hnone hp).symm
  case closed =>
    intro p hp q l hq hpq
    rw [hheld, or_assoc]
    rcases (hheld p).1 hp with hp | hp
    · exact (hg.closed p hp q l hq hpq).imp_right .inr
    · rcases hh.closed p hp q l hq hpq with hq' | ⟨hq', -⟩
      · exact .inr (.inl hq')
      · exact .inr (.inr ⟨hq', low q l hq' hq⟩)

namespace Terraced

/-- A region for the only position that is out lies over an idle floor. -/
theorem start (order : TotalPreorder rank) (hp : t.At p a) (hout : ∀ r, out r ↔ r = p) (last : α) :
    Terraced t rank out (.ofLevel a) [(0, .ofLevel last)] := by
  have hidle : ∀ e ∈ [((0, .ofLevel last) : Nat × Holding α)], Idle e := by
    simp [Idle, Holding.ofLevel]
  constructor
  case above =>
    intro q l hq hl
    rw [(hout q).1 hq] at hl
    rw [hp.unique hl, Holding.ofLevel, order.refl]
    decide
  case under => exact fun e he => .inl (hidle e he)
  case chain => simp
  case guarded => exact fun e he => .inl (hidle e he)
  case sealed =>
    intro g hg
    rcases List.mem_cons.1 hg with rfl | hg
    · exact sealed_ofLevel
    · obtain rfl : g = .ofLevel last := by simpa using hg
      exact sealed_ofLevel
  case joined =>
    have live : ∀ {level r}, Live t rank out [.ofLevel a, .ofLevel last] level r → r = p := by
      rintro level r (⟨hr, -⟩ | ⟨g, hg, hr, -⟩)
      · exact (hout r).1 hr
      · rcases List.mem_pair.1 hg with rfl | rfl <;> simp [Holding.ofLevel] at hr
    intro level q r hq hr
    rw [live hq, live hr]
    exact .refl

/-- Nothing is out or held below the top. -/
theorem le_of_live (order : TotalPreorder rank) (ht : Terraced t rank out h rest)
    (hp : Live t rank out (h :: rest.map (·.2)) level p) : rank h.level level ≠ .gt := by
  rcases hp with ⟨hout, hup⟩ | ⟨g, hg, hheld, hle⟩
  · obtain ⟨l, hl, hle⟩ := Terrain.upTo_iff.1 hup
    exact order.trans _ _ _ (ht.above p l hout hl) hle
  · rcases List.mem_cons.1 hg with rfl | hg
    · exact hle
    · obtain ⟨e, he, rfl⟩ := List.mem_map.1 hg
      rcases ht.under e he with hidle | hlt
      · simp [hidle.2] at hheld
      · exact order.trans _ _ _ (by simp [hlt]) hle

/-! ## Seeing -/

/-- A position next to one that is out on the top level is joined to all that is live where it
lies. -/
theorem joined_see (order : TotalPreorder rank) (ht : Terraced t rank out h rest) (hout : out p)
    (hp : t.At p a) (same : rank h.level a = .eq) (hq : t.At q b) (hpq : Adjacent p q)
    {r : Position} (hr : Live t rank out (h :: rest.map (·.2)) level r)
    (hb : rank b level ≠ .gt) : Joined (t.UpTo rank level) r q := by
  have hle : rank a level ≠ .gt :=
    order.le_of_eq_of_le (order.eq_symm same) (ht.le_of_live order hr)
  have hpup : t.UpTo rank level p := hp.upTo_iff.2 hle
  exact (ht.joined level r p hr (.inl ⟨hout, hpup⟩)).tail ⟨hpup, hq.upTo_iff.2 hb, hpq⟩

/-- Where `q` gets out and no region gets positions, all that is live hangs together still. -/
theorem joined_of_see (order : TotalPreorder rank) (ht : Terraced t rank out h rest) (hout : out p)
    (hp : t.At p a) (same : rank h.level a = .eq) (hq : t.At q b) (hpq : Adjacent p q)
    (seen : ∀ r, out' r ↔ r = q ∨ out r) {regions : List (Holding α)}
    (held : ∀ g ∈ regions, g ∈ h :: rest.map (·.2) ∨ g.held = []) {r r' : Position}
    (hr : Live t rank out' regions level r) (hr' : Live t rank out' regions level r') :
    Joined (t.UpTo rank level) r r' := by
  have cases_live : ∀ {s}, Live t rank out' regions level s →
      Live t rank out (h :: rest.map (·.2)) level s ∨ s = q ∧ rank b level ≠ .gt := by
    rintro s (⟨hs, hup⟩ | ⟨g, hg, hheld, hle⟩)
    · rcases (seen s).1 hs with rfl | hs
      · exact .inr ⟨rfl, hq.upTo_iff.1 hup⟩
      · exact .inl (.inl ⟨hs, hup⟩)
    · rcases held g hg with hg | hnil
      · exact .inl (.inr ⟨g, hg, hheld, hle⟩)
      · simp [hnil] at hheld
  have see : ∀ {s}, Live t rank out (h :: rest.map (·.2)) level s → rank b level ≠ .gt →
      Joined (t.UpTo rank level) s q := fun hs hb =>
    ht.joined_see order hout hp same hq hpq hs hb
  rcases cases_live hr with hr | ⟨rfl, hb⟩ <;> rcases cases_live hr' with hr' | ⟨rfl, hb'⟩
  · exact ht.joined level r r' hr hr'
  · exact see hr hb'
  · exact (see hr' hb).symm
  · exact .refl

/-- A position that is not lower is seen from the top level. -/
theorem wait (order : TotalPreorder rank) (ht : Terraced t rank out h rest) (hout : out p)
    (hp : t.At p a) (same : rank h.level a = .eq) (hq : t.At q b) (hpq : Adjacent p q)
    (seen : ∀ r, out' r ↔ r = q ∨ out r) (high : rank b a ≠ .lt) :
    Terraced t rank out' h rest where
  above := fun r l hr hl => by
    rcases (seen r).1 hr with rfl | hr
    · rw [hl.unique hq]
      exact order.le_of_eq_of_le same (order.not_lt_iff.1 high)
    · exact ht.above r l hr hl
  under := ht.under
  chain := ht.chain
  guarded := by
    intro e he
    rcases ht.guarded e he with hidle | ⟨r, l, hr, hl⟩
    · exact .inl hidle
    · exact .inr ⟨r, l, (seen r).2 (.inr hr), hl⟩
  sealed := fun g hg => (ht.sealed g hg).mono fun r hr => (seen r).2 (.inr hr)
  joined := fun _ _ _ hr hr' => ht.joined_of_see order hout hp same hq hpq seen
    (fun _ hg => .inl hg) hr hr'

/-- A position that is lower is seen from the top level, and a region for it is put on top. -/
theorem descend (order : TotalPreorder rank) (ht : Terraced t rank out h rest) (hout : out p)
    (hp : t.At p a) (same : rank h.level a = .eq) (hq : t.At q b) (hpq : Adjacent p q)
    (seen : ∀ r, out' r ↔ r = q ∨ out r) (low : rank b a = .lt) (n : Nat) :
    Terraced t rank out' (.ofLevel b) ((n, h) :: rest) := by
  have hlt : rank b h.level = .lt := order.lt_of_lt_of_eq low (order.eq_symm same)
  have mono : ∀ r, out r → out' r := fun r hr => (seen r).2 (.inr hr)
  constructor
  case above =>
    intro r l hr hl
    rcases (seen r).1 hr with rfl | hr
    · rw [hl.unique hq, Holding.ofLevel, order.refl]
      decide
    · exact order.trans _ _ _ (by simp [Holding.ofLevel, hlt]) (ht.above r l hr hl)
  case under =>
    intro e he
    rcases List.mem_cons.1 he with rfl | he
    · exact .inr hlt
    · exact (ht.under e he).imp_right fun hhe => order.lt_trans hlt hhe
  case chain => exact .cons ht.under ht.chain
  case guarded =>
    intro e he
    rcases List.mem_cons.1 he with rfl | he
    · exact .inr ⟨p, a, mono p hout, hp, order.eq_symm same⟩
    · rcases ht.guarded e he with hidle | ⟨r, l, hr, hl⟩
      · exact .inl hidle
      · exact .inr ⟨r, l, mono r hr, hl⟩
  case sealed =>
    intro g hg
    rcases List.mem_cons.1 hg with rfl | hg
    · exact sealed_ofLevel
    · exact (ht.sealed g (by simpa using hg)).mono mono
  case joined =>
    intro level r r' hr hr'
    refine ht.joined_of_see order hout hp same hq hpq seen (fun g hg => ?_) hr hr'
    rcases List.mem_cons.1 hg with rfl | hg
    · exact .inr rfl
    · exact .inl (by simpa using hg)

/-! ## Adding -/

/-- A region beneath the top is not next to what is out on the top level. -/
theorem not_adjacent_under (order : TotalPreorder rank) (ht : Terraced t rank out h rest)
    (hp : t.At p a) (same : rank h.level a = .eq) {e : Nat × Holding α} (he : e ∈ rest)
    (apart : p ∉ e.2.held) (hq : q ∈ e.2.held) : ¬ Adjacent q p := by
  intro hqp
  rcases (ht.sealed e.2 (by simpa using .inr ⟨e.1, he⟩)).closed q hq p a hp hqp with hheld | ⟨-, hle⟩
  · exact apart hheld
  · rcases ht.under e he with hidle | hlt
    · simp [hidle.2] at hq
    · have hback : rank e.2.level h.level ≠ .gt := order.le_of_le_of_eq hle (order.eq_symm same)
      rw [Ne, order.gt_iff_lt] at hback
      exact hback hlt

/-- A region beneath is not guarded by a position on the top level, and keeps its guard when such a
position is no longer out. -/
theorem guarded_of_left (order : TotalPreorder rank) (ht : Terraced t rank out h rest) (hp : t.At p a)
    (same : rank h.level a = .eq) (left : ∀ r, out r ↔ r = p ∨ out' r) :
    ∀ e ∈ rest, Idle e ∨ ∃ q l, out' q ∧ t.At q l ∧ rank l e.2.level = .eq := by
  intro e he
  rcases ht.under e he with hidle | hlt
  · exact .inl hidle
  rcases ht.guarded e he with hidle | ⟨r, l, hr, hl, heq⟩
  · exact .inl hidle
  rcases (left r).1 hr with rfl | hr
  · rw [hl.unique hp] at heq
    have hlevel : rank h.level e.2.level = .eq := order.eq_trans same heq
    simp [hlevel] at hlt
  · exact .inr ⟨r, l, hr, hl, heq⟩

/-- A position that goes from those that are out to the topmost region is live as before. -/
theorem live_of_add (order : TotalPreorder rank) (hp : t.At p a) (same : rank h.level a = .eq)
    (left : ∀ r, out r ↔ r = p ∨ out' r) {regions : List (Holding α)} {r : Position}
    (hr : Live t rank out' (h.add p :: regions) level r) :
    Live t rank out (h :: regions) level r := by
  rcases hr with ⟨hr, hup⟩ | ⟨g, hg, hr, hle⟩
  · exact .inl ⟨(left r).2 (.inr hr), hup⟩
  rcases List.mem_cons.1 hg with rfl | hg
  · have hr : r ∈ h.held ∨ r = p := by simpa [Holding.add] using hr
    rcases hr with hr | rfl
    · exact .inr ⟨h, List.mem_cons_self, hr, hle⟩
    · have hup : rank a level ≠ .gt := order.le_of_eq_of_le (order.eq_symm same) hle
      exact .inl ⟨(left r).2 (.inl rfl), hp.upTo_iff.2 hup⟩
  · exact .inr ⟨g, List.mem_cons_of_mem _ hg, hr, hle⟩

/-- A position on the top level, all of whose neighbours were seen, is added to the top. -/
theorem arrive (order : TotalPreorder rank) (ht : Terraced t rank out h rest) (hp : t.At p a)
    (same : rank h.level a = .eq) (left : ∀ r, out r ↔ r = p ∨ out' r)
    (apart : ∀ g ∈ h :: rest.map (·.2), p ∉ g.held)
    (surrounded : ∀ q, t.Readable q → Adjacent p q →
      out q ∨ ∃ g ∈ h :: rest.map (·.2), q ∈ g.held) :
    Terraced t rank out' (h.add p) rest := by
  have apartUnder : ∀ e ∈ rest, p ∉ e.2.held := fun e he => apart e.2 (by simpa using .inr ⟨e.1, he⟩)
  constructor
  case above => exact fun r l hr hl => ht.above r l ((left r).2 (.inr hr)) hl
  case under => exact ht.under
  case chain => exact ht.chain
  case guarded => exact ht.guarded_of_left order hp same left
  case sealed =>
    intro g hg
    rcases List.mem_cons.1 hg with rfl | hg
    · refine (ht.sealed h List.mem_cons_self).add hp (order.eq_symm same) left fun q l hq hpq => ?_
      rcases surrounded q hq.readable hpq with hq' | ⟨g, hg, hq'⟩
      · exact .inr ⟨hq', ht.above q l hq' hq⟩
      rcases List.mem_cons.1 hg with rfl | hg
      · exact .inl hq'
      · obtain ⟨e, he, rfl⟩ := List.mem_map.1 hg
        exact absurd hpq.symm (ht.not_adjacent_under order hp same he (apartUnder e he) hq')
    · obtain ⟨e, he, rfl⟩ := List.mem_map.1 hg
      exact (ht.sealed _ (List.mem_cons_of_mem _ hg)).of_left left fun q hq =>
        ht.not_adjacent_under order hp same he (apartUnder e he) hq
  case joined =>
    intro level r r' hr hr'
    exact ht.joined level r r' (live_of_add order hp same left hr) (live_of_add order hp same left hr')

/-! ## Settling -/

/-- When nothing is out up to its level, the topmost region is complete. -/
theorem complete (ht : Terraced t rank out h rest) (order : TotalPreorder rank)
    (far : ∀ q l, out q → t.At q l → rank h.level l = .lt) (recent : h.fresh ≠ [])
    (nodup : h.held.Nodup) : Complete t rank h := by
  have hsealed : Sealed t rank out h := ht.sealed h List.mem_cons_self
  have live : ∀ q ∈ h.held, Live t rank out (h :: rest.map (·.2)) h.level q := fun q hq =>
    .inr ⟨h, List.mem_cons_self, hq, by simp [order.refl]⟩
  obtain ⟨p, hp⟩ := List.exists_mem_of_ne_nil _ recent
  have hheld : p ∈ h.held := ((hsealed.fresh p).1 hp).1
  refine ⟨nodup, ?_, recent, hsealed.fresh⟩
  refine .of_closed (hsealed.upTo p hheld) hheld (fun q hq => ?_) fun q r hq hr hqr => ?_
  · exact ht.joined h.level p q (live p hheld) (live q hq)
  · obtain ⟨l, hl, hle⟩ := Terrain.upTo_iff.1 hr
    rcases hsealed.closed q hq r l hl hqr with hr' | ⟨hout, -⟩
    · exact hr'
    · have hlt := far r l hout hl
      exact absurd (order.gt_iff_lt.2 hlt) hle

/-- A region that was emitted is raised to a level that lies below all that is out and all that is
beneath. -/
theorem raise (order : TotalPreorder rank) (ht : Terraced t rank out h rest)
    (up : rank h.level level = .lt) (low : ∀ q l, out q → t.At q l → rank level l ≠ .gt)
    (under : ∀ e ∈ rest, Idle e ∨ rank level e.2.level = .lt) :
    Terraced t rank out (h.settled.raise level) rest := by
  have live : ∀ {l r}, Live t rank out (h.settled.raise level :: rest.map (·.2)) l r →
      Live t rank out (h :: rest.map (·.2)) l r := by
    rintro l r (hr | ⟨g, hg, hr, hle⟩)
    · exact .inl hr
    · rcases List.mem_cons.1 hg with rfl | hg
      · exact .inr ⟨h, List.mem_cons_self, hr, order.trans _ _ _ (order.le_of_lt up) hle⟩
      · exact .inr ⟨g, List.mem_cons_of_mem _ hg, hr, hle⟩
  constructor
  case above => exact low
  case under => exact under
  case chain => exact ht.chain
  case guarded => exact ht.guarded
  case sealed =>
    intro g hg
    rcases List.mem_cons.1 hg with rfl | hg
    · exact (ht.sealed h List.mem_cons_self).raise order up low
    · exact ht.sealed g (List.mem_cons_of_mem _ hg)
  case joined => exact fun l r r' hr hr' => ht.joined l r r' (live hr) (live hr')

/-- A region that was emitted is merged into the one beneath, when nothing that is out lies below
that. -/
theorem merge (order : TotalPreorder rank) {m : Nat} (ht : Terraced t rank out h ((m, g) :: rest))
    (up : rank h.level g.level = .lt) (low : ∀ q l, out q → t.At q l → rank g.level l ≠ .gt) :
    Terraced t rank out (g.merge h.settled) rest := by
  obtain ⟨under, chain⟩ := List.pairwise_cons.1 ht.chain
  have sealed := ht.sealed
  rw [List.map_cons] at sealed
  have live : ∀ {l r}, Live t rank out (g.merge h.settled :: rest.map (·.2)) l r →
      Live t rank out (h :: g :: rest.map (·.2)) l r := by
    rintro l r (hr | ⟨f, hf, hr, hle⟩)
    · exact .inl hr
    · rcases List.mem_cons.1 hf with rfl | hf
      · rcases List.mem_append.1 hr with hr | hr
        · exact .inr ⟨g, by simp, hr, hle⟩
        · exact .inr ⟨h, by simp, hr, order.trans _ _ _ (order.le_of_lt up) hle⟩
      · exact .inr ⟨f, by simp [hf], hr, hle⟩
  constructor
  case above => exact low
  case under => exact under
  case chain => exact chain
  case guarded => exact fun e he => ht.guarded e (List.mem_cons_of_mem _ he)
  case sealed =>
    intro f hf
    rcases List.mem_cons.1 hf with rfl | hf
    · exact (sealed g (by simp)).merge order (sealed h (by simp)) up low
    · exact sealed f (by simp [hf])
  case joined => exact fun l r r' hr hr' => ht.joined l r r' (live hr) (live hr')

end Terraced

end LevelTree.Flood
