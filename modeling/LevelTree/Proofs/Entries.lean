import Mathlib.Data.List.Forall2
import Mathlib.Data.List.Nodup

/-!
# Entries under names

Lists of values under names, where no name stands twice. Taking a name out leaves the other entries
(`perm_cons_without`), and lists whose entries correspond still do when a name is taken out of both
(`forall₂_without`).
-/

namespace LevelTree.Entries

variable {ν β γ : Type} [DecidableEq ν] {entries : List (ν × β)} {others : List (ν × γ)} {name : ν}
  {b : β} {R : β → γ → Prop}

/-- The entries under other names. -/
abbrev without (entries : List (ν × β)) (name : ν) : List (ν × β) :=
  entries.filter fun entry => entry.1 ≠ name

theorem without_cons_self {e : ν × β} (h : e.1 = name) :
    without (e :: entries) name = without entries name := List.filter_cons_of_neg (by simpa using h)

theorem without_cons_ne {e : ν × β} (h : e.1 ≠ name) :
    without (e :: entries) name = e :: without entries name := List.filter_cons_of_pos (by simpa using h)

theorem without_of_not_mem (h : name ∉ entries.map (·.1)) : without entries name = entries := by
  rw [List.filter_eq_self]
  intro e he
  simp only [ne_eq, decide_not, Bool.not_eq_eq_eq_not, Bool.not_true, decide_eq_false_iff_not]
  rintro rfl
  exact h (List.mem_map_of_mem he)

theorem not_mem_without : name ∉ (without entries name).map (·.1) := by simp

theorem nodup_without (h : (entries.map (·.1)).Nodup) : ((without entries name).map (·.1)).Nodup :=
  h.sublist (List.filter_sublist.map _)

theorem lookup_eq_none_iff : entries.lookup name = none ↔ name ∉ entries.map (·.1) := by
  simp only [List.lookup_eq_none_iff, List.mem_map, bne_iff_ne, ne_eq, not_exists, not_and]
  exact forall₂_congr fun e _ => not_congr eq_comm

/-- Taking an entry out leaves the others. -/
theorem perm_cons_without (nodup : (entries.map (·.1)).Nodup)
    (h : entries.lookup name = some b) : entries.Perm ((name, b) :: without entries name) := by
  induction entries with
  | nil => simp at h
  | cons e rest ih =>
    obtain ⟨n, c⟩ := e
    simp only [List.map_cons, List.nodup_cons] at nodup
    by_cases hn : name = n
    · subst hn
      obtain rfl : c = b := by simpa using h
      rw [without_cons_self rfl, without_of_not_mem nodup.1]
    · have hne : (name == n) = false := by simpa using hn
      rw [List.lookup_cons, hne] at h
      rw [without_cons_ne (Ne.symm hn)]
      exact ((ih nodup.2 h).cons _).trans (.swap ..)

/-- Taking an entry out leaves what stands under the other names. -/
theorem lookup_without {n : ν} :
    (without entries name).lookup n = if n = name then none else entries.lookup n := by
  induction entries with
  | nil => simp
  | cons e rest ih =>
    obtain ⟨m, c⟩ := e
    by_cases hm : m = name
    · subst hm
      rw [without_cons_self rfl, ih, List.lookup_cons]
      by_cases hn : n = m
      · rw [if_pos hn, if_pos hn]
      · have hne : (n == m) = false := by simpa using hn
        rw [if_neg hn, if_neg hn, hne]
    · rw [without_cons_ne hm, List.lookup_cons, List.lookup_cons, ih]
      by_cases hn : n = m
      · simp [hn, hm]
      · have hne : (n == m) = false := by simpa using hn
        simp [hne]

/-- An entry is found under its name. -/
theorem lookup_of_mem (nodup : (entries.map (·.1)).Nodup) (h : (name, b) ∈ entries) :
    entries.lookup name = some b := by
  induction entries with
  | nil => simp at h
  | cons e rest ih =>
    obtain ⟨n, c⟩ := e
    simp only [List.map_cons, List.nodup_cons] at nodup
    rcases List.mem_cons.1 h with heq | hrest
    · cases heq
      simp
    · have hne : (name == n) = false := by
        rw [beq_eq_false_iff_ne]
        rintro rfl
        exact nodup.1 (List.mem_map_of_mem hrest)
      rw [List.lookup_cons, hne]
      exact ih nodup.2 hrest

/-! ## Entries that correspond -/

/-- The entries have the same name, and their values correspond. -/
def Under (R : β → γ → Prop) (e : ν × β) (o : ν × γ) : Prop := e.1 = o.1 ∧ R e.2 o.2

/-- What stands under a name in the one list corresponds to what stands there in the other. -/
theorem exists_lookup (h : List.Forall₂ (Under R) entries others)
    (hb : entries.lookup name = some b) : ∃ c, others.lookup name = some c ∧ R b c := by
  induction h with
  | nil => simp at hb
  | @cons e o _ _ hhead _ ih =>
    obtain ⟨n, v⟩ := e
    obtain ⟨m, w⟩ := o
    obtain ⟨rfl, hvw⟩ : n = m ∧ R v w := hhead
    rw [List.lookup_cons] at hb ⊢
    split at hb
    · obtain rfl := Option.some.inj hb
      exact ⟨w, rfl, hvw⟩
    · exact ih hb

theorem forall₂_without (h : List.Forall₂ (Under R) entries others) :
    List.Forall₂ (Under R) (without entries name) (without others name) := by
  induction h with
  | nil => exact .nil
  | @cons e o _ _ hhead _ ih =>
    by_cases hn : e.1 = name
    · rw [without_cons_self hn, without_cons_self (hhead.1 ▸ hn)]
      exact ih
    · rw [without_cons_ne hn, without_cons_ne (hhead.1 ▸ hn)]
      exact .cons hhead ih

omit [DecidableEq ν] in
theorem exists_of_mem (h : List.Forall₂ (Under R) entries others) {o : ν × γ} (ho : o ∈ others) :
    ∃ e ∈ entries, Under R e o := by
  induction h with
  | nil => simp at ho
  | cons hhead _ ih =>
    rcases List.mem_cons.1 ho with rfl | ho
    · exact ⟨_, List.mem_cons_self, hhead⟩
    · obtain ⟨e, he, hunder⟩ := ih ho
      exact ⟨e, List.mem_cons_of_mem _ he, hunder⟩

omit [DecidableEq ν] in
theorem map_fst_eq (h : List.Forall₂ (Under R) entries others) :
    entries.map (·.1) = others.map (·.1) := by
  induction h with
  | nil => rfl
  | cons hhead _ ih => rw [List.map_cons, List.map_cons, hhead.1, ih]

end LevelTree.Entries
