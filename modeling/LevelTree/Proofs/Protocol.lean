import LevelTree.Proofs.Ledger

/-!
# The protocol of a log

What those who carry out the events of a log can rely on (`Protocol`): which region an event may be
about, that a region which was merged away never comes back, and what comes right before a raise or a
merge. A script goes along with a log and knows, at each event, the open regions and what the youngest
of them did last. A log that a script allows keeps the protocol (`Script.Runs.protocol`).
-/

namespace LevelTree

variable {ν α : Type}

namespace Event

/-- The region that an event creates. -/
def created? : Event ν α → Option ν
  | .floor name _ | .create name _ => some name
  | _ => none

/-- The region that an event uses up. -/
def usedUp? : Event ν α → Option ν
  | .merge _ other => some other
  | _ => none

/-- The region that an event adds to or emits. -/
def served? : Event ν α → Option ν
  | .add name _ | .emit name => some name
  | _ => none

/-- The event names the region. -/
def Mentions (n : ν) : Event ν α → Prop
  | .merge name other => name = n ∨ other = n
  | e => e.subject = n

/-- The region gets positions by the event. -/
def Feeds (n : ν) : Event ν α → Prop
  | .add name _ | .merge name _ => name = n
  | _ => False

end Event

/-- The regions that were created, the first one first. -/
def created (events : List (Event ν α)) : List ν := events.filterMap Event.created?

/-- The regions that were merged into others. -/
def usedUp (events : List (Event ν α)) : List ν := events.filterMap Event.usedUp?

/-- The regions that were created and not merged into others, the youngest first. -/
def openRegions [DecidableEq ν] (events : List (Event ν α)) : List ν :=
  (created events).reverse.filter (· ∉ usedUp events)

/-- The region got positions since its last emission, or since the beginning if there is none. -/
def FedSince (events : List (Event ν α)) (n : ν) : Prop :=
  ∀ before between, events = before ++ between →
    (before = [] ∨ before.getLast? = some (.emit n)) → ∃ e ∈ between, e.Feeds n

/-- The protocol of the events that happen to regions. -/
structure Protocol [DecidableEq ν] (log : List (Event ν α)) : Prop where
  distinct : (created log).Nodup
  /-- What is added to or emitted is the youngest open region. -/
  youngest : ∀ before e after n, log = before ++ e :: after → e.served? = some n →
    (openRegions before).head? = some n
  /-- The floor is added to or emitted only where it is the last open region. -/
  floor : ∀ before e after n level, log = before ++ e :: after → e.served? = some n →
    .floor n level ∈ before → openRegions before = [n]
  /-- The youngest open region is merged into the next youngest. -/
  merge : ∀ before n m after, log = before ++ .merge n m :: after →
    ∃ older, openRegions before = m :: n :: older
  once : (usedUp log).Nodup
  gone : ∀ before n m after, log = before ++ .merge n m :: after → ∀ e ∈ after, ¬ e.Mentions m
  emitted : ∀ before n m after, log = before ++ .merge n m :: after →
    before.getLast? = some (.emit m)
  raised : ∀ before n level after, log = before ++ .raise n level :: after →
    before.getLast? = some (.emit n)
  /-- A region that is merged into another holds no position that it was not emitted with. -/
  settled : ∀ before n m after, log = before ++ .merge n m :: after →
    ∃ l h, Ledger.empty.run before = some l ∧ l.holding? m = some h ∧ h.fresh = []
  fed : ∀ before n after, log = before ++ .emit n :: after → FedSince before n

/-! ## Logs that grow -/

section Concat

variable {events : List (Event ν α)} {e : Event ν α} {n m : ν}

theorem FedSince.of_feeds (hfeeds : e.Feeds n) : FedSince (events ++ [e]) n := by
  intro before between heq hbefore
  rcases List.eq_nil_or_concat between with rfl | ⟨between, last, rfl⟩
  · -- the event would have to be the emission
    rw [List.append_nil] at heq
    obtain rfl : e = .emit n := by simpa [← heq] using hbefore
    exact hfeeds.elim
  · rw [List.concat_eq_append, ← List.append_assoc] at heq
    obtain ⟨-, he⟩ := List.append_inj' heq rfl
    obtain rfl : e = last := by simpa using he
    exact ⟨e, by simp, hfeeds⟩

variable [DecidableEq ν]

theorem openRegions_quiet (hcreated : e.created? = none) (hused : e.usedUp? = none) :
    openRegions (events ++ [e]) = openRegions events := by
  simp [openRegions, created, usedUp, hcreated, hused]

theorem openRegions_create (hcreated : e.created? = some n) (hused : e.usedUp? = none)
    (new : n ∉ usedUp events) : openRegions (events ++ [e]) = n :: openRegions events := by
  have hlast : usedUp (events ++ [e]) = usedUp events := by simp [usedUp, hused]
  rw [openRegions, hlast]
  simp [openRegions, created, hcreated, new]

theorem openRegions_merge :
    openRegions (events ++ [.merge n m]) = (openRegions events).filter (· ≠ m) := by
  simp [openRegions, created, usedUp, Event.created?, Event.usedUp?, List.filter_filter, and_comm]

end Concat

/-! ## Scripts -/

/-- What the youngest open region did last. -/
inductive Turn where
  /-- It was created or raised. -/
  | due
  /-- It got positions. -/
  | fed
  /-- It was emitted. -/
  | emitted
  deriving Repr, DecidableEq

/-- What a log has come to. -/
structure Script (ν : Type) where
  /-- The regions that were created, the youngest first. -/
  names : List ν
  /-- Those of them that are open. -/
  stack : List ν
  turn : Turn
  deriving Repr, DecidableEq

namespace Script

/-- Nothing happened yet. -/
def blank : Script ν := ⟨[], [], .due⟩

/-- The events that a script allows. -/
inductive Step : Script ν → Event ν α → Script ν → Prop
  | floor {name level} : Step blank (.floor name level) ⟨[name], [name], .due⟩
  | create {names stack turn name level} (new : name ∉ names) :
      Step ⟨names, stack, turn⟩ (.create name level) ⟨name :: names, name :: stack, .due⟩
  | add {names rest turn name position} :
      Step ⟨names, name :: rest, turn⟩ (.add name position) ⟨names, name :: rest, .fed⟩
  | emit {names rest name} :
      Step ⟨names, name :: rest, .fed⟩ (.emit name) ⟨names, name :: rest, .emitted⟩
  | raise {names rest name level} :
      Step ⟨names, name :: rest, .emitted⟩ (.raise name level) ⟨names, name :: rest, .due⟩
  | merge {names rest name other} :
      Step ⟨names, other :: name :: rest, .emitted⟩ (.merge name other) ⟨names, name :: rest, .fed⟩

/-- The logs that a script allows. -/
inductive Runs : Script ν → List (Event ν α) → Script ν → Prop
  | nil {s} : Runs s [] s
  | cons {s u v e events} (step : Step s e u) (runs : Runs u events v) : Runs s (e :: events) v

variable {s u v : Script ν} {e : Event ν α} {events more before after : List (Event ν α)} {n m : ν}

theorem Runs.append (h : Runs s events u) (hmore : Runs u more v) : Runs s (events ++ more) v := by
  induction h with
  | nil => exact hmore
  | cons step _ ih => exact .cons step (ih hmore)

theorem Runs.concat (h : Runs s events u) (step : Step u e v) : Runs s (events ++ [e]) v :=
  h.append (.cons step .nil)

/-- A log is allowed up to each of its events. -/
theorem Runs.split (h : Runs s (before ++ e :: after) v) :
    ∃ u w, Runs s before u ∧ Step u e w ∧ Runs w after v := by
  induction before generalizing s with
  | nil =>
    cases h with
    | cons step runs => exact ⟨s, _, .nil, step, runs⟩
  | cons _ before ih =>
    cases h with
    | cons first runs =>
      obtain ⟨u, w, hbefore, step, hafter⟩ := ih runs
      exact ⟨u, w, .cons first hbefore, step, hafter⟩

/-- A region that was created and is no longer open is not named again. -/
theorem Runs.gone (h : Runs s events v) (known : n ∈ s.names) (closed : n ∉ s.stack) :
    ∀ e ∈ events, ¬ e.Mentions n := by
  induction h with
  | nil => simp
  | @cons s u v e events step _ ih =>
    have hstep : ¬ e.Mentions n ∧ n ∈ u.names ∧ n ∉ u.stack := by
      cases step with
      | floor => simp [blank] at known
      | @create _ _ _ name _ new =>
        have hne : n ≠ name := by
          rintro rfl
          exact new known
        simp_all [Event.Mentions, Event.subject, eq_comm]
      | add | emit | raise | merge => simp_all [Event.Mentions, Event.subject, eq_comm]
    intro f hf
    rcases List.mem_cons.1 hf with rfl | hf
    · exact hstep.1
    · exact ih hstep.2.1 hstep.2.2 f hf

/-! ## What a script knows -/

variable [DecidableEq ν]

/-- A script has followed the events. -/
structure Traced (events : List (Event ν α)) (s : Script ν) : Prop where
  names : s.names = (created events).reverse
  nodup : s.names.Nodup
  stack : s.stack = openRegions events
  known : ∀ n ∈ usedUp events, n ∈ s.names
  once : (usedUp events).Nodup
  floor : ∀ n level, .floor n level ∈ events → s.stack.getLast? = some n
  booked : ∃ l, Ledger.empty.run events = some l ∧ l.names = s.stack ∧
    (s.turn = .emitted → ∀ e ∈ l.holdings.head?, e.2.fresh = [])
  fed : s.turn = .fed → ∀ n ∈ s.stack.head?, FedSince events n
  emitted : s.turn = .emitted → ∀ n ∈ s.stack.head?, events.getLast? = some (.emit n)

theorem traced_nil : Traced ([] : List (Event ν α)) blank where
  names := rfl
  nodup := .nil
  stack := rfl
  known := by simp [usedUp]
  once := .nil
  floor := by simp
  booked := ⟨.empty, rfl, rfl, by simp [blank]⟩
  fed := by simp [blank]
  emitted := by simp [blank]

theorem Traced.nodup_stack (h : Traced events s) : s.stack.Nodup := by
  rw [h.stack, openRegions, ← h.names]
  exact h.nodup.filter _

/-- The log has a ledger for the open regions, the youngest in front. -/
theorem Traced.exists_ledger {names rest : List ν} {turn : Turn}
    (h : Traced events ⟨names, n :: rest, turn⟩) : ∃ g holdings done,
    Ledger.empty.run events = some ⟨(n, g) :: holdings, done⟩ ∧ holdings.map (·.1) = rest ∧
      n ∉ holdings.map (·.1) ∧ (turn = .emitted → g.fresh = []) := by
  obtain ⟨⟨holdings, done⟩, hrun, hnames, hfresh⟩ := h.booked
  cases holdings with
  | nil => simp [Ledger.names] at hnames
  | cons e holdings =>
    obtain ⟨k, g⟩ := e
    simp only [Ledger.names, List.map_cons, List.cons.injEq] at hnames
    obtain ⟨rfl, rfl⟩ := hnames
    exact ⟨g, holdings, done, hrun, rfl, (List.nodup_cons.1 h.nodup_stack).1, fun ht =>
      hfresh ht (k, g) rfl⟩

/-- What is open was created. -/
theorem Traced.mem_names (h : Traced events s) (hn : n ∈ s.stack) : n ∈ s.names := by
  rw [h.stack, openRegions, ← h.names] at hn
  exact List.mem_of_mem_filter hn

/-- An event that creates a region puts it in front. -/
theorem Traced.create {names stack : List ν} {turn : Turn} (h : Traced events ⟨names, stack, turn⟩)
    (hcreated : e.created? = some n) (new : n ∉ names)
    (first : ∀ level, e = .floor n level → stack = []) :
    Traced (events ++ [e]) ⟨n :: names, n :: stack, .due⟩ := by
  have hused : e.usedUp? = none := by cases e <;> simp_all [Event.created?, Event.usedUp?]
  have usedUp_concat : usedUp (events ++ [e]) = usedUp events := by simp [usedUp, hused]
  constructor
  case names =>
    have hnames : names = (created events).reverse := h.names
    simp [created, hcreated, hnames]
  case nodup => exact List.nodup_cons.2 ⟨new, h.nodup⟩
  case stack => rw [openRegions_create hcreated hused fun hn => new (h.known n hn), ← h.stack]
  case known =>
    rw [usedUp_concat]
    exact fun k hk => List.mem_cons_of_mem _ (h.known k hk)
  case once => rw [usedUp_concat]; exact h.once
  case floor =>
    intro k level hk
    rcases List.mem_append.1 hk with hk | hk
    · have hlast : stack.getLast? = some k := h.floor k level hk
      simp [List.getLast?_cons, hlast]
    · obtain rfl : .floor k level = e := by simpa using hk
      obtain rfl : k = n := by simpa [Event.created?] using hcreated
      simp [first level rfl]
  case booked =>
    obtain ⟨⟨holdings, done⟩, hrun, hnames, -⟩ := h.booked
    have hnew : n ∉ holdings.map (·.1) := fun hn => new (h.mem_names (hnames ▸ hn))
    have happly : ∃ level, Ledger.apply ⟨holdings, done⟩ e =
        some ⟨(n, .ofLevel level) :: holdings, done⟩ := by
      cases e with
      | floor name level | create name level =>
        obtain rfl : name = n := by simpa [Event.created?] using hcreated
        exact ⟨level, Ledger.apply_create hnew⟩
      | _ => simp [Event.created?] at hcreated
    obtain ⟨level, happly⟩ := happly
    exact ⟨_, (Ledger.run_concat hrun).trans happly, congrArg (n :: ·) hnames, by simp⟩
  case fed => simp
  case emitted => simp

/-- An event about the youngest open region alone leaves all regions open. -/
theorem Traced.serve {names rest : List ν} {turn turn' : Turn}
    (h : Traced events ⟨names, n :: rest, turn⟩) (hcreated : e.created? = none)
    (hused : e.usedUp? = none)
    (booked : ∀ g holdings (done : List (Holding α)), n ∉ holdings.map (·.1) → ∃ g' done',
      Ledger.apply ⟨(n, g) :: holdings, done⟩ e = some ⟨(n, g') :: holdings, done'⟩ ∧
        (turn' = .emitted → g'.fresh = []))
    (fed : turn' = .fed → e.Feeds n) (emitted : turn' = .emitted → e = .emit n) :
    Traced (events ++ [e]) ⟨names, n :: rest, turn'⟩ := by
  have usedUp_concat : usedUp (events ++ [e]) = usedUp events := by simp [usedUp, hused]
  constructor
  case names =>
    have hnames : names = (created events).reverse := h.names
    simp [created, hcreated, hnames]
  case nodup => exact h.nodup
  case stack => rw [openRegions_quiet hcreated hused, ← h.stack]
  case known => rw [usedUp_concat]; exact h.known
  case once => rw [usedUp_concat]; exact h.once
  case floor =>
    intro k level hk
    rcases List.mem_append.1 hk with hk | hk
    · exact h.floor k level hk
    · obtain rfl : .floor k level = e := by simpa using hk
      simp [Event.created?] at hcreated
  case booked =>
    obtain ⟨g, holdings, done, hrun, hrest, hn, -⟩ := h.exists_ledger
    obtain ⟨g', done', happly, hfresh⟩ := booked g holdings done hn
    refine ⟨_, (Ledger.run_concat hrun).trans happly, congrArg (n :: ·) hrest, fun hturn k hk => ?_⟩
    obtain rfl : (n, g') = k := by simpa using hk
    exact hfresh hturn
  case fed =>
    intro hturn k hk
    obtain rfl : n = k := by simpa using hk
    exact .of_feeds (fed hturn)
  case emitted =>
    intro hturn k hk
    obtain rfl : n = k := by simpa using hk
    simp [emitted hturn]

/-- A merge closes the youngest open region and feeds the next one. -/
theorem Traced.merge {names rest : List ν}
    (h : Traced events ⟨names, m :: n :: rest, .emitted⟩) :
    Traced (events ++ [.merge n m]) ⟨names, n :: rest, .fed⟩ := by
  have hnodup : (m :: n :: rest).Nodup := h.nodup_stack
  have hstack : openRegions events = m :: n :: rest := h.stack.symm
  have usedUp_concat : usedUp (events ++ [.merge n m]) = usedUp events ++ [m] := by
    simp [usedUp, Event.usedUp?]
  have unused : m ∉ usedUp events := by
    have hm : m ∈ openRegions events := by simp [hstack]
    simpa using (List.mem_filter.1 hm).2
  constructor
  case names =>
    have hnames : names = (created events).reverse := h.names
    simp [created, Event.created?, hnames]
  case nodup => exact h.nodup
  case stack =>
    have hrest : (n :: rest).filter (· ≠ m) = n :: rest := by
      rw [List.filter_eq_self]
      intro k hk
      simpa using fun heq : k = m => (List.nodup_cons.1 hnodup).1 (heq ▸ hk)
    rw [openRegions_merge, hstack, List.filter_cons_of_neg (by simp), hrest]
  case known =>
    rw [usedUp_concat]
    intro k hk
    rcases List.mem_append.1 hk with hk | hk
    · exact h.known k hk
    · obtain rfl : k = m := by simpa using hk
      exact h.mem_names List.mem_cons_self
  case once =>
    rw [usedUp_concat]
    simpa using h.once.concat unused
  case floor =>
    intro k level hk
    have hlast := h.floor k level (by simpa using hk)
    rwa [List.getLast?_cons_cons] at hlast
  case booked =>
    obtain ⟨g, holdings, done, hrun, hrest, hm, -⟩ := h.exists_ledger
    cases holdings with
    | nil => simp at hrest
    | cons k holdings =>
      obtain ⟨name, f⟩ := k
      simp only [List.map_cons, List.cons.injEq] at hrest
      obtain ⟨rfl, rfl⟩ := hrest
      have hn : name ∉ holdings.map (·.1) := (List.nodup_cons.1 (List.nodup_cons.1 hnodup).2).1
      exact ⟨_, (Ledger.run_concat hrun).trans (Ledger.apply_merge_head hm hn), rfl, by simp⟩
  case fed =>
    intro _ k hk
    obtain rfl : n = k := by simpa using hk
    exact .of_feeds rfl
  case emitted => simp

/-- A script keeps following a log as long as it allows its events. -/
theorem Traced.step (h : Traced events s) (step : Step s e u) : Traced (events ++ [e]) u := by
  cases step with
  | floor => exact h.create rfl (by simp) fun _ _ => rfl
  | create new => exact h.create rfl new (by simp)
  | add =>
    refine h.serve rfl rfl (fun g holdings done hn => ?_) (fun _ => rfl) (by simp)
    exact ⟨_, _, Ledger.apply_add_head hn, by simp⟩
  | emit =>
    refine h.serve rfl rfl (fun g holdings done hn => ?_) (by simp) fun _ => rfl
    exact ⟨_, _, Ledger.apply_emit_head hn, fun _ => rfl⟩
  | raise =>
    refine h.serve rfl rfl (fun g holdings done hn => ?_) (by simp) (by simp)
    exact ⟨_, _, Ledger.apply_raise_head hn, by simp⟩
  | merge => exact h.merge

theorem Traced.runs (h : Traced events s) (runs : Runs s more u) : Traced (events ++ more) u := by
  induction runs generalizing events with
  | nil => simpa using h
  | cons step _ ih =>
    rw [List.append_cons]
    exact ih (h.step step)

/-! ## The protocol -/

/-- A log that a script allows is allowed up to each event, with the script following it there. -/
theorem Runs.traced_split (h : Runs blank (before ++ e :: after) v) :
    ∃ u w, Traced before u ∧ Step u e w ∧ Runs w after v := by
  obtain ⟨u, w, hbefore, step, hafter⟩ := h.split
  exact ⟨u, w, by simpa using traced_nil.runs hbefore, step, hafter⟩

/-- A region that is added to or emitted is the youngest open one. -/
theorem Traced.head_of_served (h : Traced events s) (step : Step s e u) (served : e.served? = some n) :
    ∃ rest, s.stack = n :: rest := by
  cases step with
  | add | emit =>
    obtain rfl : _ = n := by simpa [Event.served?] using served
    exact ⟨_, rfl⟩
  | _ => simp [Event.served?] at served

/-- What a script allows keeps the protocol. -/
theorem Runs.protocol (h : Runs blank events v) : Protocol events where
  distinct := by
    have traced : Traced events v := by simpa using traced_nil.runs h
    exact List.nodup_reverse.1 (traced.names ▸ traced.nodup)
  youngest := by
    rintro before e after n rfl served
    obtain ⟨u, w, traced, step, -⟩ := h.traced_split
    obtain ⟨rest, hstack⟩ := traced.head_of_served step served
    rw [← traced.stack, hstack]
    rfl
  floor := by
    rintro before e after n level rfl served hfloor
    obtain ⟨u, w, traced, step, -⟩ := h.traced_split
    obtain ⟨rest, hstack⟩ := traced.head_of_served step served
    have hlast := traced.floor n level hfloor
    have hnodup := traced.nodup_stack
    rw [← traced.stack]
    rw [hstack] at hlast hnodup ⊢
    rcases List.eq_nil_or_concat rest with rfl | ⟨rest, last, rfl⟩
    · rfl
    · obtain rfl : last = n := by simpa [List.getLast?_cons] using hlast
      simp at hnodup
  merge := by
    rintro before n m after rfl
    obtain ⟨u, w, traced, step, -⟩ := h.traced_split
    cases step with
    | @merge _ rest => exact ⟨rest, traced.stack.symm⟩
  once := by simpa using (traced_nil.runs h).once
  gone := by
    rintro before n m after rfl
    obtain ⟨u, w, traced, step, hafter⟩ := h.traced_split
    cases step with
    | merge =>
      exact hafter.gone (traced.mem_names List.mem_cons_self) (List.nodup_cons.1 traced.nodup_stack).1
  emitted := by
    rintro before n m after rfl
    obtain ⟨u, w, traced, step, -⟩ := h.traced_split
    cases step with
    | merge => exact traced.emitted rfl m rfl
  raised := by
    rintro before n level after rfl
    obtain ⟨u, w, traced, step, -⟩ := h.traced_split
    cases step with
    | raise => exact traced.emitted rfl n rfl
  settled := by
    rintro before n m after rfl
    obtain ⟨u, w, traced, step, -⟩ := h.traced_split
    cases step with
    | merge =>
      obtain ⟨g, holdings, done, hrun, -, -, hfresh⟩ := traced.exists_ledger
      exact ⟨_, g, hrun, Ledger.holding?_head, hfresh rfl⟩
  fed := by
    rintro before n after rfl
    obtain ⟨u, w, traced, step, -⟩ := h.traced_split
    cases step with
    | emit => exact traced.fed rfl n rfl

end Script

end LevelTree
