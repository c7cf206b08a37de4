import LevelTree.Connectivity
import LevelTree.Proofs.Ranking

/-!
# Joined positions and components

Ways can be turned round and kept in a larger set, and a component is known by any of its positions.
Components at two levels are therefore nested or apart: where they meet, the one at the lower level
lies in the other (`IsComponent.subset_of_mem`).
-/

namespace LevelTree

variable {s u c d : Position → Prop} {p q r : Position}

theorem Joined.symm (h : Joined s p q) : Joined s q p := by
  induction h with
  | refl => exact .refl
  | tail _ hstep ih => exact .head ⟨hstep.2.1, hstep.1, hstep.2.2.symm⟩ ih

theorem Joined.mono (h : Joined s p q) (hsu : ∀ a, s a → u a) : Joined u p q := by
  induction h with
  | refl => exact .refl
  | tail _ hstep ih => exact ih.tail ⟨hsu _ hstep.1, hsu _ hstep.2.1, hstep.2.2⟩

/-- A way that starts in the set ends there. -/
theorem Joined.mem (h : Joined s p q) (hp : s p) : s q := by
  rcases Relation.ReflTransGen.cases_tail h with rfl | ⟨_, -, hstep⟩
  · exact hp
  · exact hstep.2.1

/-- A way from a set that is closed under steps ends there. -/
theorem Joined.closed (h : Joined s p q) (hp : c p)
    (closed : ∀ a b, c a → s b → Adjacent a b → c b) : c q := by
  induction h with
  | refl => exact hp
  | tail _ hstep ih => exact closed _ _ ih hstep.2.1 hstep.2.2

/-- A part that hangs together and is closed under steps is a component. -/
theorem IsComponent.of_closed (hs : s p) (hp : c p) (joined : ∀ q, c q → Joined s p q)
    (closed : ∀ a b, c a → s b → Adjacent a b → c b) : IsComponent s c :=
  ⟨p, hs, fun q => ⟨joined q, fun h => h.closed hp closed⟩⟩

/-- Every position of a component reaches the whole of it. -/
theorem IsComponent.iff_joined (h : IsComponent s c) (hp : c p) : c q ↔ Joined s p q := by
  obtain ⟨o, -, hc⟩ := h
  rw [hc]
  have hop : Joined s o p := (hc p).1 hp
  exact ⟨fun hq => hop.symm.trans hq, fun hq => hop.trans hq⟩

theorem IsComponent.mem (h : IsComponent s c) (hp : c p) : s p := by
  obtain ⟨o, ho, hc⟩ := h
  exact ((hc p).1 hp).mem ho

theorem IsComponent.exists_mem (h : IsComponent s c) : ∃ p, c p := by
  obtain ⟨o, -, hc⟩ := h
  exact ⟨o, (hc o).2 .refl⟩

/-- Where two components meet, the one of the smaller set lies in the other. -/
theorem IsComponent.subset_of_mem (hc : IsComponent s c) (hd : IsComponent u d)
    (hsu : ∀ a, s a → u a) (hpc : c p) (hpd : d p) (hq : c q) : d q :=
  (hd.iff_joined hpd).2 (((hc.iff_joined hpc).1 hq).mono hsu)

namespace Terrain

variable {α : Type} {t : Terrain α} {rank : Ranking α} {a b l : α}

/-- The position is inside and has this level. -/
def At (t : Terrain α) (p : Position) (l : α) : Prop :=
  Extents.Inside t.sides p ∧ t.level? p = some l

/-- A position that lies above a level can be reached. -/
def Exceeds (t : Terrain α) (rank : Ranking α) (level : α) : Prop :=
  ∃ p a, t.Reachable p ∧ t.At p a ∧ rank a level = .gt

theorem At.unique (ha : t.At p a) (hb : t.At p b) : a = b :=
  Option.some.inj (ha.2.symm.trans hb.2)

theorem At.readable (h : t.At p l) : t.Readable p := ⟨h.1, by simp [h.2]⟩

theorem upTo_iff : t.UpTo rank a p ↔ ∃ l, t.At p l ∧ rank l a ≠ .gt :=
  ⟨fun ⟨hin, l, hl, hla⟩ => ⟨l, ⟨hin, hl⟩, hla⟩, fun ⟨l, hl, hla⟩ => ⟨hl.1, l, hl.2, hla⟩⟩

theorem At.upTo_iff (h : t.At p l) : t.UpTo rank a p ↔ rank l a ≠ .gt := by
  rw [Terrain.upTo_iff]
  constructor
  · rintro ⟨m, hm, hma⟩
    rwa [h.unique hm]
  · intro hla
    exact ⟨l, h, hla⟩

/-- What does not rank after a level does not rank after a higher one. -/
theorem UpTo.mono (order : TotalPreorder rank) (hab : rank a b ≠ .gt) (h : t.UpTo rank a p) :
    t.UpTo rank b p := by
  obtain ⟨hin, l, hl, hla⟩ := h
  exact ⟨hin, l, hl, order.trans l a b hla hab⟩

theorem Reachable.readable (h : t.Reachable p) : t.Readable p := h.2.mem h.1

/-- The readable neighbours of what can be reached can be reached. -/
theorem Reachable.step (h : t.Reachable p) (hq : t.Readable q) (hpq : Adjacent p q) :
    t.Reachable q :=
  ⟨h.1, h.2.tail ⟨h.readable, hq, hpq⟩⟩

end Terrain

end LevelTree
