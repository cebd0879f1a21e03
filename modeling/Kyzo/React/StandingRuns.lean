import Kyzo.React.Standing

/-!
# Convergence of standing queries

The events that are queued or still to be sent lead, one after the other, from the maintained rows
of a base relation to its committed rows.  This is kept by every step under which an event is
neither lost nor seen twice nor out of order; a drained query then holds the committed rows.
-/

namespace Kyzo

open List Function CurrentRows KeyedRow CallbackEvent WriteSession Watch Bool

/-! ## The event of a mutation -/

namespace CurrentRows

variable {rows : CurrentRows} {key : Tuple} {r : KeyedRow}

lemma mem_at : r ∈ rows.at key ↔ r.key = key ∧ rows.has r = true := by
  simp only [CurrentRows.at, has, mem_map, Option.mem_toList, decide_eq_true_eq]
  constructor
  · rintro ⟨vals, hvals, rfl⟩
    exact ⟨rfl, hvals⟩
  · rintro ⟨rfl, hvals⟩
    exact ⟨r.vals, hvals, rfl⟩

lemma has_update_of_ne {vals : Option Tuple} (h : r.key ≠ key) :
    has (update rows key vals) r = rows.has r := by
  rw [has, update_of_ne h, has]

lemma has_update_row {row : KeyedRow} (h : r.key = row.key) :
    has (update rows row.key (some row.vals)) r = decide (r = row) := by
  rw [has, h, update_self]
  refine decide_eq_decide.mpr ⟨fun hvals => ?_, fun heq => by rw [heq]⟩
  obtain ⟨key, vals⟩ := r
  obtain rfl : key = row.key := h
  cases hvals
  rfl

lemma count_at (rows : CurrentRows) (key : Tuple) (r : KeyedRow) :
    (rows.at key).count r = if r.key = key ∧ rows.has r = true then 1 else 0 := by
  have hnodup : (rows.at key).Nodup := by
    rw [CurrentRows.at]
    rcases rows key with _ | vals
    · exact nodup_nil
    · exact nodup_singleton _
  split_ifs with h
  · exact count_eq_one_of_mem hnodup (mem_at.mpr h)
  · exact count_eq_zero_of_not_mem fun hmem => h (mem_at.mp hmem)

end CurrentRows

namespace Mutation

variable {view : CurrentRows} {rows : List KeyedRow} {key : Tuple} {m : Mutation}
  {keys : List Tuple} {r : KeyedRow}

lemma key_of_mem_putRows (h : r ∈ (putRows view rows).2) : r.key ∈ rows.map KeyedRow.key := by
  induction rows generalizing view with
  | nil => exact absurd h not_mem_nil
  | cons row rows ih =>
    obtain hold | hrest := mem_append.mp h
    · rw [(mem_at.mp hold).1]
      exact .head _
    · exact .tail _ (ih hrest)

lemma mem_putRows (hkeys : (rows.map KeyedRow.key).Nodup) :
    r ∈ (putRows view rows).2 ↔ r.key ∈ rows.map KeyedRow.key ∧ view.has r = true := by
  induction rows generalizing view with
  | nil => simp [putRows]
  | cons row rows ih =>
    obtain ⟨hfresh, htail⟩ := nodup_cons.mp hkeys
    have hne : r.key ∈ rows.map key → r.key ≠ row.key := fun hmem heq => hfresh (heq ▸ hmem)
    rw [putRows, mem_append, mem_at, ih htail, map_cons, mem_cons]
    constructor
    · rintro (⟨hkey, hhas⟩ | ⟨hkey, hhas⟩)
      · exact ⟨.inl hkey, hhas⟩
      · rw [has_update_of_ne (hne hkey)] at hhas
        exact ⟨.inr hkey, hhas⟩
    · rintro ⟨hkey | hkey, hhas⟩
      · exact .inl ⟨hkey, hhas⟩
      · rw [has_update_of_ne (hne hkey)]
        exact .inr ⟨hkey, hhas⟩

lemma has_putRows (hkeys : (rows.map KeyedRow.key).Nodup) : (putRows view rows).1.has r = true ↔
      r ∈ rows ∨ (r.key ∉ rows.map KeyedRow.key ∧ view.has r = true) := by
  induction rows generalizing view with
  | nil => simp [putRows]
  | cons row rows ih =>
    obtain ⟨hfresh, htail⟩ := nodup_cons.mp hkeys
    rw [putRows, ih htail]
    by_cases hkey : r.key = row.key
    · have hrest : r ∉ rows := fun hmem => hfresh (hkey ▸ mem_map_of_mem hmem)
      rw [has_update_row hkey, hkey]
      simp [hrest, hfresh]
    · have hne : r ≠ row := fun heq => hkey (congrArg key heq)
      rw [has_update_of_ne hkey]
      simp [hne, hkey]

lemma flag_putRows (r : KeyedRow) (hkeys : (rows.map KeyedRow.key).Nodup) :
    flag ((putRows view rows).1.has r) =
      flag (view.has r) + (CallbackEvent.put rows (putRows view rows).2).delta r := by
  have hnew := @has_putRows view rows r hkeys
  have hold := @mem_putRows view rows r hkeys
  have hmem : r ∈ rows → r.key ∈ rows.map key := fun h => mem_map_of_mem h
  simp only [flag, delta, hnew, hold]
  by_cases hkey : r.key ∈ rows.map key <;> by_cases hrow : r ∈ rows <;>
    by_cases hhas : view.has r = true <;> simp_all

lemma flag_rmRows (r : KeyedRow) : flag ((rmRows view keys).1.has r) =
      flag (view.has r) + (CallbackEvent.rm keys (rmRows view keys).2).delta r := by
  induction keys generalizing view with
  | nil => simp [rmRows, delta]
  | cons key keys ih =>
    have hstep : flag (has (update view key none) r) =
        flag (view.has r) - ((view.at key).count r : ℤ) := by
      rw [count_at]
      by_cases hkey : r.key = key
      · have hgone : has (update view key none) r = false := by
          rw [has, hkey, update_self]
          rfl
        rw [hgone]
        by_cases hhas : view.has r = true <;> simp [flag, hkey, hhas]
      · rw [has_update_of_ne hkey]
        simp [hkey]
    rw [rmRows]
    rw [ih, hstep]
    simp only [delta, count_append]
    push_cast
    ring

/-- A mutation that has one row for each key at most. -/
def OneRowPerKey : Mutation → Prop
  | put rows => (rows.map KeyedRow.key).Nodup
  | rm _ => True

/-- **The event of a mutation is the change it makes.** -/
theorem flag_run (h : m.OneRowPerKey) (r : KeyedRow) :
    flag ((m.run view).1.has r) = flag (view.has r) + (m.run view).2.delta r := by
  cases m with
  | put rows => exact flag_putRows r h
  | rm keys => exact flag_rmRows r

lemma putRows_of_notMem
    (h : key ∉ rows.map KeyedRow.key) : (putRows view rows).1 key = view key := by
  induction rows generalizing view with
  | nil => rfl
  | cons row rows ih =>
    obtain ⟨hne, hrest⟩ := ne_and_not_mem_of_not_mem_cons h
    exact (ih hrest).trans (update_of_ne hne _ _)

lemma rmRows_of_notMem (h : key ∉ keys) : (rmRows view keys).1 key = view key := by
  induction keys generalizing view with
  | nil => rfl
  | cons k keys ih =>
    obtain ⟨hne, hrest⟩ := ne_and_not_mem_of_not_mem_cons h
    exact (ih hrest).trans (update_of_ne hne _ _)

lemma run_of_notMem (h : key ∉ m.keys) : (m.run view).1 key = view key := by
  cases m with
  | put rows => exact putRows_of_notMem h
  | rm keys => exact rmRows_of_notMem h

end Mutation

lemma Mutation.delta_of_notMem {view : CurrentRows} {m : Mutation} {r : KeyedRow}
    (h : r.key ∉ m.keys) : (m.run view).2.delta r = 0 := by
  cases m with
  | put rows =>
    have hnew : r ∉ rows := fun hmem => h (mem_map_of_mem hmem)
    have hold : r ∉ (putRows view rows).2 := fun hmem => h (key_of_mem_putRows hmem)
    simp [run, delta, hnew, hold]
  | rm keys =>
    have hsame : (rmRows view keys).1.has r = view.has r := by
      have hkey : (rmRows view keys).1 r.key = view r.key := rmRows_of_notMem h
      rw [has, hkey, has]
    have hflag := @flag_rmRows view keys r
    rw [hsame] at hflag
    exact add_eq_left.mp hflag.symm

/-! ## The events of a transaction -/

variable {rel : Symbol} {event : CallbackEvent}

section Events

variable {events more : List (Symbol × CallbackEvent)}

lemma eventsOf_append : eventsOf rel (events ++ more) =
    eventsOf rel events ++ eventsOf rel more := by
  rw [eventsOf, filter_append, map_append, eventsOf, eventsOf]

lemma eventsOf_cons_self : eventsOf rel ((rel, event) :: events) =
    event :: eventsOf rel events := by
  simp [eventsOf]

lemma eventsOf_cons_of_ne {other : Symbol} (h : other ≠ rel) :
    eventsOf rel ((other, event) :: events) = eventsOf rel events := by
  simp [eventsOf, h]

lemma eventsOf_eraseP {other : Symbol} : eventsOf other (events.eraseP fun e => e.1 = rel) =
    if rel = other then (eventsOf other events).tail else eventsOf other events := by
  induction events with
  | nil => simp [eventsOf]
  | cons e events ih =>
    obtain ⟨name, event⟩ := e
    by_cases h : name = rel
    · subst h
      rw [eraseP_cons_of_pos (by simp)]
      split_ifs with hname
      · rw [hname, eventsOf_cons_self, tail_cons]
      · rw [eventsOf_cons_of_ne hname]
    · rw [eraseP_cons_of_neg (by simpa using h)]
      by_cases hname : name = other
      · subst hname
        rw [if_neg (Ne.symm h)] at ih ⊢
        rw [eventsOf_cons_self, eventsOf_cons_self, ih]
      · rw [eventsOf_cons_of_ne hname, eventsOf_cons_of_ne hname, ih]

end Events

variable {tx : WriteSession}

namespace WriteSession

variable {tx' : WriteSession}

/-- The events of a relation a transaction has made so far: collected, then those whose triggers are
still running. -/
def events (tx : WriteSession) (rel : Symbol) : List CallbackEvent :=
  eventsOf rel tx.collector ++ eventsOf rel tx.frames

/-- What a running transaction keeps of a relation: at keys it has not read nothing is changed, and
its events lead from its snapshot to its view. -/
structure Faithful (tx : WriteSession) (rel : Symbol) : Prop where
  unread : ∀ r : KeyedRow, (rel, r.key) ∉ tx.reads → tx.view rel r.key = tx.snapshot rel r.key ∧
    ∀ e ∈ tx.events rel, e.delta r = 0
  toggles : tx.targets rel = true → ∀ r : KeyedRow,
    Toggles (flag ((tx.snapshot rel).has r)) ((tx.events rel).map (·.delta r))
      (flag ((tx.view rel).has r))

lemma faithful_start (targets : Symbol → Bool) (committed : Symbol → CurrentRows) (rel : Symbol) :
    (start targets committed).Faithful rel where
  unread := fun _ _ => ⟨rfl, fun _ he => absurd he not_mem_nil⟩
  toggles := fun _ _ => .refl (isFlag_flag _)

lemma Faithful.congr (h : tx.Faithful rel) (hview : tx'.view rel = tx.view rel)
    (hsnapshot : tx'.snapshot = tx.snapshot) (htargets : tx'.targets = tx.targets)
    (hreads : tx.reads ⊆ tx'.reads) (hevents : tx'.events rel ⊆ tx.events rel)
    (hsame : tx.targets rel = true → tx'.events rel = tx.events rel) : tx'.Faithful rel where
  unread r hr := by
    obtain ⟨hkept, hzero⟩ := h.unread r fun hmem => hr (hreads hmem)
    rw [hview, hsnapshot]
    exact ⟨hkept, fun e he => hzero e (hevents he)⟩
  toggles ht r := by
    rw [htargets] at ht
    rw [hview, hsnapshot, hsame ht]
    exact h.toggles ht r

lemma Faithful.mutate {rel other : Symbol} {m : Mutation} (h : tx.Faithful rel)
    (hquiet : other = rel → m.OneRowPerKey ∧ eventsOf rel tx.frames = []) :
    (tx.mutate other m).Faithful rel := by
  rw [WriteSession.mutate]
  split_ifs with hempty
  · exact h
  by_cases hrel : other = rel
  · subst hrel
    obtain ⟨hkeys, hframes⟩ := hquiet rfl
    have hevents : eventsOf other tx.collector ++
        eventsOf other ((other, (m.run (tx.view other)).2) :: tx.frames) =
        tx.events other ++ [(m.run (tx.view other)).2] := by
      rw [eventsOf_cons_self, events, hframes, append_nil]
    refine ⟨fun r hr => ?_, fun htarget r => ?_⟩
    · obtain ⟨hreads, hnew⟩ := not_or.mp (mt mem_append.mpr hr)
      have hkey : r.key ∉ m.keys := fun hmem => hnew (mem_map_of_mem hmem)
      obtain ⟨hview, hzero⟩ := h.unread r hreads
      refine ⟨?_, fun e he => ?_⟩
      · change update tx.view other _ other r.key = _
        rw [update_self, Mutation.run_of_notMem hkey, hview]
      · rw [events, hevents] at he
        obtain hold | hlast := mem_append.mp he
        · exact hzero e hold
        · rw [mem_singleton.mp hlast]
          exact Mutation.delta_of_notMem hkey
    · have hflag := @Mutation.flag_run (tx.view other) m hkeys r
      rw [events, hevents, map_append]
      change Toggles _ _ (flag ((update tx.view other _ other).has r))
      rw [update_self, hflag]
      exact (h.toggles htarget r).concat (hflag ▸ isFlag_flag _)
  · have hevents : eventsOf rel tx.collector ++
        eventsOf rel ((other, (m.run (tx.view other)).2) :: tx.frames) = tx.events rel := by
      rw [eventsOf_cons_of_ne hrel, events]
    exact h.congr (update_of_ne (Ne.symm hrel) _ _) rfl rfl (subset_append_left _ _)
      (fun _ he => hevents ▸ he) fun _ => hevents

lemma Faithful.finish (h : tx.Faithful rel)
    (hfinish : tx.finish = some tx') : tx'.Faithful rel := by
  rw [WriteSession.finish] at hfinish
  split at hfinish
  · exact nomatch hfinish
  rename_i other event frames hframes
  cases hfinish
  have hevents : tx.events rel =
      eventsOf rel tx.collector ++ eventsOf rel ((other, event) :: frames) := by
    rw [events, hframes]
  by_cases htarget : tx.targets other = true
  · -- A collected event changes its list and not its place.
    have hsame : eventsOf rel (tx.collector ++ [(other, event)]) ++ eventsOf rel frames =
        tx.events rel := by
      rw [eventsOf_append, hevents, append_assoc, ← eventsOf_append, singleton_append]
    simp only [htarget, if_true]
    exact h.congr rfl rfl rfl (Subset.refl _) (fun _ he => hsame ▸ he) fun _ => hsame
  · simp only [htarget, false_eq_true, if_false]
    refine h.congr rfl rfl rfl (Subset.refl _) (fun e he => ?_) fun ht => ?_
    · rw [hevents, ← singleton_append, eventsOf_append]
      obtain hc | hf := mem_append.mp he
      · exact mem_append_left _ hc
      · exact mem_append_right _ (mem_append_right _ hf)
    · have hne : other ≠ rel := fun heq => htarget (heq ▸ ht)
      rw [hevents, eventsOf_cons_of_ne hne, events]

lemma Faithful.commit {committed : Symbol → CurrentRows}
    (h : tx.Faithful rel) (htarget : tx.targets rel = true) (hframes : tx.frames = [])
    (hread : tx.Unconflicted committed) (r : KeyedRow) :
    Toggles (flag ((committed rel).has r)) ((eventsOf rel tx.collector).map (·.delta r))
      (flag ((tx.apply committed rel).has r)) := by
  have hevents : tx.events rel = eventsOf rel tx.collector := by
    rw [events, hframes]
    exact append_nil _
  by_cases hmem : (rel, r.key) ∈ tx.reads
  · have hbefore : (committed rel).has r = (tx.snapshot rel).has r := by
      rw [has, has, hread _ hmem]
    have hafter : (tx.apply committed rel).has r = (tx.view rel).has r := by
      rw [has, has, apply, if_pos hmem]
    rw [hbefore, hafter, ← hevents]
    exact h.toggles htarget r
  · have hafter : (tx.apply committed rel).has r = (committed rel).has r := by
      rw [has, has, apply, if_neg hmem]
    rw [hafter]
    refine .of_zero (isFlag_flag _) fun d hd => ?_
    obtain ⟨e, he, rfl⟩ := mem_map.mp hd
    exact (h.unread r hmem).2 e (hevents ▸ he)

end WriteSession

/-! ## Patches -/

lemma flag_patchRow {old : Bool} {n : ℤ} (h : IsFlag (flag old + n)) :
    flag (patchRow old n) = flag old + n := by
  rcases old with _ | _
  · obtain h | h := h
    · obtain rfl : n = 0 := by simpa [flag] using h
      rfl
    · obtain rfl : n = 1 := by simpa [flag] using h
      rfl
  · obtain h | h := h
    · obtain rfl : n = -1 := by
        have : (1 : ℤ) + n = 0 := h
        omega
      rfl
    · obtain rfl : n = 0 := by
        have : (1 : ℤ) + n = 1 := h
        omega
      rfl

namespace Watch

variable {m : Mutation}

/-! ## The invariant -/

/-- The events of a relation that a committed transaction still has to send. -/
def undelivered (s : Watch) (rel : Symbol) (w : ℕ) : List CallbackEvent :=
  match s.writers w with
  | some tx => if tx.committed then eventsOf rel tx.collector else []
  | none => []

variable {s : Watch} {w : ℕ}

lemma undelivered_of_writer (h : s.writers w = some tx) :
    s.undelivered rel w = if tx.committed then eventsOf rel tx.collector else [] := by
  rw [undelivered, h]

lemma undelivered_congr {s' : Watch} (h : s'.writers w = s.writers w) :
    s'.undelivered rel w = s.undelivered rel w := by
  rw [undelivered, h, undelivered]

variable (edb : List Symbol)
  (evaluates : (Symbol → KeyedRow → Bool) → (Symbol → KeyedRow → ℤ) → Bool)

/-- The condition on a step, for the base relations of the query.  A put has one row for each key at
most, and no trigger mutates the relation whose mutation it runs under.  A transaction commits
events of a relation when no other has events of it left to send.  The snapshot of the registration
is read when no event is queued or left to send, and when each transaction under way read the
watched relations after the subscription.  A drained batch that is not empty evaluates. -/
def Quiet (s : Watch) : WatchAction → Prop
  | .mutate w rel m => rel ∈ edb →
    m.OneRowPerKey ∧ ∀ tx, s.writers w = some tx → eventsOf rel tx.frames = []
  | .commit w => ∀ rel ∈ edb, (∀ tx, s.writers w = some tx → eventsOf rel tx.collector = []) ∨
    ∀ v, s.undelivered rel v = []
  | .snapshot => ∀ rel ∈ edb, s.query.queue rel = [] ∧ (∀ w, s.undelivered rel w = []) ∧
    ∀ w tx, s.writers w = some tx → tx.committed = false → tx.targets rel = true
  | .apply => ∀ rows, s.query.rows = some rows → (∃ rel r, s.query.net rel r ≠ 0) →
    evaluates rows s.query.net = true
  | _ => True

/-- A registered query watches a base relation, and the events that are queued or left to send lead
from what it maintains to what is committed. -/
structure Follows (s : Watch) (rows : Symbol → KeyedRow → Bool) (rel : Symbol) : Prop where
  subscribed : s.query.subscribed rel = true
  targets : ∀ w tx, s.writers w = some tx → tx.committed = false → tx.targets rel = true
  toggles : ∃ w, (∀ v ≠ w, s.undelivered rel v = []) ∧ ∀ r : KeyedRow,
    Toggles (flag (rows rel r) + s.query.net rel r)
      ((s.query.queue rel ++ s.undelivered rel w).map (·.delta r)) (flag ((s.committed rel).has r))

/-- What holds in every state of a run of quiet steps. -/
structure Sound (s : Watch) : Prop where
  running : ∀ w tx, s.writers w = some tx → tx.committed = false → ∀ rel ∈ edb, tx.Faithful rel
  follows : ∀ rows, s.query.rows = some rows → ∀ rel ∈ edb, s.Follows rows rel

variable {edb evaluates} {s s' : Watch} {w : ℕ} {rows : Symbol → KeyedRow → Bool}
  {tx' : Option WriteSession}

lemma Follows.setWriter (h : s.Follows rows rel) (hbefore : s.undelivered rel w = [])
    (hafter : ∀ tx, tx' = some tx → if tx.committed then eventsOf rel tx.collector = []
      else tx.targets rel = true) : (s.setWriter w tx').Follows rows rel := by
  have hsame : ∀ v, (s.setWriter w tx').undelivered rel v = s.undelivered rel v := by
    intro v
    by_cases hv : v = w
    · subst hv
      rw [hbefore]
      have hw : (s.setWriter v tx').writers v = tx' := update_self ..
      rcases tx' with _ | tx
      · rw [undelivered, hw]
      · have := hafter tx rfl
        rw [undelivered_of_writer hw]
        split_ifs at this ⊢ with hc
        · exact this
        · rfl
    · exact undelivered_congr (update_of_ne hv _ _)
  refine ⟨h.subscribed, fun v tx hv hrunning => ?_, ?_⟩
  · change update s.writers w tx' v = some tx at hv
    rw [update_apply] at hv
    split_ifs at hv
    · simpa [hrunning] using hafter tx hv
    · exact h.targets v tx hv hrunning
  · obtain ⟨v, hother, htoggles⟩ := h.toggles
    refine ⟨v, fun u hu => (hsame u).trans (hother u hu), fun r => ?_⟩
    rw [hsame]
    exact htoggles r

lemma Sound.setWriter (h : s.Sound edb) (hbefore : ∀ rel ∈ edb, s.undelivered rel w = [])
    (hrunning : ∀ tx, tx' = some tx → tx.committed = false → ∀ rel ∈ edb, tx.Faithful rel)
    (hafter : ∀ rows, s.query.rows = some rows → ∀ rel ∈ edb, ∀ tx, tx' = some tx →
      if tx.committed then eventsOf rel tx.collector = [] else tx.targets rel = true) :
    (s.setWriter w tx').Sound edb where
  running := by
    intro v tx hv hcommitted
    change update s.writers w tx' v = some tx at hv
    rw [update_apply] at hv
    split_ifs at hv
    · exact hrunning tx hv hcommitted
    · exact h.running v tx hv hcommitted
  follows := fun rows hrows rel hrel =>
    (h.follows rows hrows rel hrel).setWriter (hbefore rel hrel) (hafter rows hrows rel hrel)

/-! ## The steps of a transaction -/

variable {tx' : WriteSession}

lemma undelivered_of_running (hw : s.writers w = some tx)
    (hrunning : tx.committed = false) : s.undelivered rel w = [] := by
  rw [undelivered_of_writer hw, hrunning]
  rfl

lemma mutate_committed (tx : WriteSession) (rel : Symbol) (m : Mutation) :
    (tx.mutate rel m).committed = tx.committed ∧ (tx.mutate rel m).targets = tx.targets := by
  rw [mutate]
  split_ifs
  · exact ⟨rfl, rfl⟩
  · exact ⟨rfl, rfl⟩

lemma finish_committed (h : tx.finish = some tx') :
    tx'.committed = tx.committed ∧ tx'.targets = tx.targets := by
  rw [finish] at h
  split at h
  · exact nomatch h
  · cases h
    exact ⟨rfl, rfl⟩

lemma running_of_update {other : WriteSession} {v : ℕ}
    (hv : update s.writers w (some tx') v = some other) (hrunning : other.committed = false)
    (hcommitted : tx'.committed = true) : s.writers v = some other := by
  rw [update_apply] at hv
  split_ifs at hv
  · cases hv
    exact Bool.noConfusion (hcommitted.symm.trans hrunning)
  · exact hv

lemma undelivered_commitWriter {v : ℕ} : (s.commitWriter w tx).undelivered rel v =
      if v = w then eventsOf rel tx.collector else s.undelivered rel v := by
  split_ifs with hv
  · subst hv
    have hself : (s.commitWriter v tx).writers v = some { tx with committed := true } :=
      update_self ..
    exact undelivered_of_writer hself
  · exact undelivered_congr (update_of_ne hv _ _)

lemma undelivered_sendEvent {rel other : Symbol} {v : ℕ} (hcommitted : tx.committed = true) :
    (s.sendEvent w tx rel event).undelivered other v =
      if v = w then eventsOf other (tx.collector.eraseP (fun e => e.1 = rel))
      else s.undelivered other v := by
  split_ifs with hv
  · subst hv
    have hself : (s.sendEvent v tx rel event).writers v =
        some { tx with collector := tx.collector.eraseP (fun e => e.1 = rel) } :=
      update_self ..
    exact (undelivered_of_writer hself).trans (if_pos hcommitted)
  · exact undelivered_congr (update_of_ne hv _ _)

section

variable (h : s.Sound edb)
include h

lemma Sound.begin {others : Symbol → Bool} (hw : s.writers w = none) :
    (s.setWriter w (some (.start (fun rel => s.query.subscribed rel || others rel)
      s.committed))).Sound edb := by
  refine h.setWriter (fun rel _ => by rw [undelivered, hw]) ?_ ?_
  · rintro _ ⟨⟩ - rel -
    exact faithful_start _ _ rel
  · rintro rows hrows rel hrel _ ⟨⟩
    change (s.query.subscribed rel || others rel) = true
    rw [(h.follows rows hrows rel hrel).subscribed, Bool.true_or]

variable (hw : s.writers w = some tx)
include hw

variable (hrunning : tx.committed = false)
include hrunning

lemma Sound.running_step (hrunning' : tx'.committed = false)
    (htargets : tx'.targets = tx.targets) (hfaithful : ∀ rel ∈ edb, tx'.Faithful rel) :
    (s.setWriter w (some tx')).Sound edb := by
  refine h.setWriter (fun rel _ => undelivered_of_running hw hrunning) ?_ ?_
  · rintro _ ⟨⟩ - rel hrel
    exact hfaithful rel hrel
  · rintro rows hrows rel hrel _ ⟨⟩
    rw [hrunning', htargets]
    exact (h.follows rows hrows rel hrel).targets w _ hw hrunning

lemma Sound.mutate (hquiet : s.Quiet edb evaluates (.mutate w rel m)) :
    (s.setWriter w (some (tx.mutate rel m))).Sound edb := by
  obtain ⟨hcommitted, htargets⟩ := mutate_committed tx rel m
  refine h.running_step hw hrunning (hcommitted.trans hrunning) htargets fun other hother => ?_
  refine (h.running w tx hw hrunning other hother).mutate ?_
  rintro rfl
  obtain ⟨hkeys, hframes⟩ := hquiet hother
  exact ⟨hkeys, hframes tx hw⟩

/-- **A commit** makes its events the last of those that lead to the committed rows. -/
theorem Sound.commit (hframes : tx.frames = []) (hread : tx.Unconflicted s.committed)
    (hquiet : s.Quiet edb evaluates (.commit w)) : (s.commitWriter w tx).Sound edb := by
  refine ⟨fun v other hv hr => h.running v other (running_of_update hv hr rfl) hr, ?_⟩
  intro rows hrows rel hrel
  have hfollows := h.follows rows hrows rel hrel
  refine ⟨hfollows.subscribed,
    fun v other hv hr => hfollows.targets v other (running_of_update hv hr rfl) hr, ?_⟩
  have hmoves := (h.running w tx hw hrunning rel hrel).commit (hfollows.targets w tx hw hrunning)
    hframes hread
  obtain ⟨v, hother, htoggles⟩ := hfollows.toggles
  obtain hnone | hsent := hquiet rel hrel
  · have hsame : ∀ u, (s.commitWriter w tx).undelivered rel u = s.undelivered rel u := by
      intro u
      rw [undelivered_commitWriter]
      split_ifs with hu
      · rw [hu, hnone tx hw, undelivered_of_running hw hrunning]
      · rfl
    refine ⟨v, fun u hu => (hsame u).trans (hother u hu), fun r => ?_⟩
    have hchain := (htoggles r).append (hmoves r)
    rw [hnone tx hw, map_nil, append_nil] at hchain
    rw [hsame]
    exact hchain
  · refine ⟨w, fun u hu => ?_, fun r => ?_⟩
    · rw [undelivered_commitWriter, if_neg hu, hsent u]
    · have hchain := (htoggles r).append (hmoves r)
      rw [hsent v, append_nil, ← map_append] at hchain
      rw [undelivered_commitWriter, if_pos rfl]
      exact hchain

omit hrunning

/-- **A delivery** moves an event from its transaction to the queue, in order. -/
theorem Sound.deliver {rest : List CallbackEvent} (hcommitted : tx.committed = true)
    (hevents : eventsOf rel tx.collector = event :: rest) :
    (s.sendEvent w tx rel event).Sound edb := by
  have hstays : ∀ {v other}, (s.sendEvent w tx rel event).writers v = some other →
      other.committed = false → s.writers v = some other := by
    intro v other hv hr
    exact running_of_update hv hr hcommitted
  refine ⟨fun v other hv hr => h.running v other (hstays hv hr) hr, ?_⟩
  intro rows hrows other hother
  have hfollows := h.follows rows hrows other hother
  refine ⟨hfollows.subscribed, fun v tx' hv hr => hfollows.targets v tx' (hstays hv hr) hr, ?_⟩
  obtain ⟨v, hnone, htoggles⟩ := hfollows.toggles
  have hbefore : s.undelivered other w = eventsOf other tx.collector := by
    rw [undelivered_of_writer hw, hcommitted]
    rfl
  by_cases hrel : rel = other
  · subst hrel
    -- Only the one transaction with events left can be sending.
    obtain rfl : v = w := by
      by_contra hne
      have hempty := hnone w fun heq => hne heq.symm
      rw [hbefore, hevents] at hempty
      exact cons_ne_nil _ _ hempty
    have hqueue : (s.sendEvent v tx rel event).query.queue rel = s.query.queue rel ++ [event] := by
      simp [sendEvent, hfollows.subscribed]
    refine ⟨v, fun u hu => ?_, fun r => ?_⟩
    · rw [undelivered_sendEvent hcommitted, if_neg hu, hnone u hu]
    · rw [undelivered_sendEvent hcommitted, if_pos rfl, eventsOf_eraseP, if_pos rfl, hevents,
        tail_cons, hqueue, append_assoc, singleton_append, ← hevents, ← hbefore]
      exact htoggles r
  · have hqueue : (s.sendEvent w tx rel event).query.queue other = s.query.queue other := by
      simp only [sendEvent]
      split_ifs
      · exact update_of_ne (Ne.symm hrel) _ _
      · rfl
    have hsame : ∀ u, (s.sendEvent w tx rel event).undelivered other u = s.undelivered other u := by
      intro u
      rw [undelivered_sendEvent hcommitted]
      split_ifs with hu
      · rw [hu, hbefore, eventsOf_eraseP, if_neg hrel]
      · rfl
    refine ⟨v, fun u hu => (hsame u).trans (hnone u hu), fun r => ?_⟩
    rw [hsame, hqueue]
    exact htoggles r

/-- The transaction a step is of. -/
def writerOf : WatchAction → Option ℕ
  | .mutate w _ _ | .finish w | .retry w | .commit w | .abort w | .deliver w _ | .leave w => some w
  | _ => none

variable {action : WatchAction}

lemma Sound.stepWriter (hquiet : s.Quiet edb evaluates action)
    (hstep : s.stepWriter w tx action = some s')
    (hself : writerOf action = some w) : s'.Sound edb := by
  cases action <;> simp only [stepWriter, reduceCtorEq] at hstep
  case mutate v rel m =>
    cases hself
    split_ifs at hstep with hc
    cases hstep
    exact h.mutate hw (eq_false_of_not_eq_true hc) hquiet
  case finish v =>
    split_ifs at hstep with hc
    obtain ⟨tx', hfinish, rfl⟩ := Option.map_eq_some_iff.mp hstep
    have hrunning := eq_false_of_not_eq_true hc
    obtain ⟨hcommitted, htargets⟩ := finish_committed hfinish
    exact h.running_step hw hrunning (hcommitted.trans hrunning) htargets
      fun rel hrel => (h.running w tx hw hrunning rel hrel).finish hfinish
  case retry v =>
    split_ifs at hstep with hc
    cases hstep
    exact h.running_step hw (eq_false_of_not_eq_true hc) rfl rfl
      fun rel _ => faithful_start _ _ rel
  case commit v =>
    cases hself
    split_ifs at hstep with hready
    cases hstep
    exact h.commit hw hready.1 hready.2.1 hready.2.2 hquiet
  case abort v =>
    split_ifs at hstep with hc
    cases hstep
    have hrunning := eq_false_of_not_eq_true hc
    exact h.setWriter (fun rel _ => undelivered_of_running hw hrunning) (fun _ heq => nomatch heq)
      (fun _ _ _ _ _ heq => nomatch heq)
  case deliver v rel =>
    split_ifs at hstep with hc
    split at hstep
    · exact nomatch hstep
    · rename_i event rest hevents
      cases hstep
      exact h.deliver hw hc hevents
  case leave v =>
    split_ifs at hstep with hdone
    cases hstep
    refine h.setWriter (fun rel _ => ?_) (fun _ heq => nomatch heq)
      (fun _ _ _ _ _ heq => nomatch heq)
    rw [undelivered_of_writer hw, hdone.2, if_pos hdone.1]
    rfl

omit hw

/-! ## The steps of the query -/

/-- **A drained event** is netted, in order. -/
theorem Sound.recv {queue : List CallbackEvent} (hqueue : s.query.queue rel = event :: queue) :
    Sound edb { s with query := { s.query with
      queue := update s.query.queue rel queue
      net := update s.query.net rel fun r => s.query.net rel r + event.delta r } } := by
  refine ⟨h.running, fun rows hrows other hother => ?_⟩
  have hfollows := h.follows rows hrows other hother
  obtain ⟨v, hnone, htoggles⟩ := hfollows.toggles
  refine ⟨hfollows.subscribed, hfollows.targets, v, hnone, fun r => ?_⟩
  have hchain := htoggles r
  change Toggles (_ + update s.query.net rel _ other r)
    ((update s.query.queue rel queue other ++ s.undelivered other v).map _) _
  by_cases hrel : other = rel
  · subst hrel
    rw [hqueue] at hchain
    rw [update_self, update_self, ← add_assoc]
    exact hchain.2
  · rw [update_of_ne hrel, update_of_ne hrel]
    exact hchain

/-- **A batch that evaluates** takes the maintained rows to where its events lead. -/
theorem Sound.apply (hrows : s.query.rows = some rows) : Sound edb { s with query := { s.query with
      rows := some fun rel r => patchRow (rows rel r) (s.query.net rel r)
      net := fun _ _ => 0 } } := by
  refine ⟨h.running, fun patched hpatched rel hrel => ?_⟩
  cases hpatched
  have hfollows := h.follows rows hrows rel hrel
  obtain ⟨v, hnone, htoggles⟩ := hfollows.toggles
  refine ⟨hfollows.subscribed, hfollows.targets, v, hnone, fun r => ?_⟩
  rw [add_zero, flag_patchRow (htoggles r).isFlag]
  exact htoggles r

lemma Sound.snapshot (hquiet : s.Quiet edb evaluates .snapshot)
    (hsubscribed : ∀ rel ∈ edb, s.query.subscribed rel = true) :
    Sound edb { s with query := { s.query with
      rows := some fun rel => (s.committed rel).has
      net := fun _ _ => 0 } } := by
  refine ⟨h.running, fun rows hrows rel hrel => ?_⟩
  cases hrows
  obtain ⟨hqueue, hnone, htargets⟩ := hquiet rel hrel
  refine ⟨hsubscribed rel hrel, htargets, 0, fun v _ => hnone v, fun r => ?_⟩
  have hnothing : s.query.queue rel ++ s.undelivered rel 0 = [] := by
    rw [hqueue, hnone 0]
    rfl
  change Toggles (_ + 0) ((s.query.queue rel ++ s.undelivered rel 0).map _) _
  rw [hnothing, add_zero]
  exact .refl (isFlag_flag _)

lemma Sound.stepQuery (hquiet : s.Quiet edb evaluates action)
    (hstep : s.stepQuery edb evaluates action = some s') : s'.Sound edb := by
  cases action <;> simp only [stepQuery, reduceCtorEq] at hstep
  case subscribe rel =>
    split_ifs at hstep with hready
    cases hstep
    refine ⟨h.running, fun rows hrows => ?_⟩
    exact nomatch (Option.isNone_iff_eq_none.mp hready.2).symm.trans hrows
  case snapshot =>
    split_ifs at hstep with hready
    cases hstep
    exact h.snapshot hquiet hready.1
  case recv rel =>
    split at hstep
    · rename_i rows event queue _ hqueue
      cases hstep
      exact h.recv hqueue
    · exact nomatch hstep
  case apply =>
    obtain ⟨rows, hrows, rfl⟩ := Option.map_eq_some_iff.mp hstep
    have hpatched : (if evaluates rows s.query.net then
        fun rel r => patchRow (rows rel r) (s.query.net rel r) else rows) =
        fun rel r => patchRow (rows rel r) (s.query.net rel r) := by
      by_cases hnet : ∃ rel r, s.query.net rel r ≠ 0
      · rw [if_pos (hquiet rows hrows hnet)]
      · push Not at hnet
        simp only [hnet, patchRow, signOf]
        exact ite_self rows
    simp only [hpatched]
    exact h.apply hrows

/-! ## Runs -/

/-- **A quiet step keeps a sound state sound.** -/
theorem Sound.step (hquiet : s.Quiet edb evaluates action)
    (hstep : s.step edb evaluates action = some s') : s'.Sound edb := by
  cases action with
  | begin w others =>
    simp only [step] at hstep
    split_ifs at hstep with hw
    cases hstep
    exact h.begin hw
  | mutate | finish | retry | commit | abort | deliver | leave =>
    obtain ⟨tx, hw, hnext⟩ := Option.bind_eq_some_iff.mp hstep
    exact h.stepWriter hw hquiet hnext rfl
  | subscribe | snapshot | recv | apply => exact h.stepQuery hquiet hstep

end

lemma sound_opened (committed : Symbol → CurrentRows) : (opened committed).Sound edb where
  running := fun _ _ h => nomatch h
  follows := fun _ h => nomatch h

/-- Every delivered event of a relation is drained, and every committed one is delivered. -/
structure Drained (s : Watch) (rel : Symbol) : Prop where
  queue : s.query.queue rel = []
  net : ∀ r, s.query.net rel r = 0
  delivered : ∀ w, s.undelivered rel w = []

/-- **Standing queries converge.**  In every run whose steps are quiet, a registered query that has
drained every event holds exactly the committed current rows of each of its base relations. -/
theorem standing_converges {committed : Symbol → CurrentRows} {actions : List WatchAction}
    (run : StepRun (step edb evaluates) (Quiet edb evaluates) (opened committed) actions s)
    {rows : Symbol → KeyedRow → Bool} (hrows : s.query.rows = some rows) {rel : Symbol}
    (hrel : rel ∈ edb) (hdrained : s.Drained rel) (r : KeyedRow) :
    rows rel r = (s.committed rel).has r := by
  have h : s.Sound edb :=
    run.invariant (sound_opened committed) fun hsound hquiet hstep => hsound.step hquiet hstep
  obtain ⟨v, -, htoggles⟩ := (h.follows rows hrows rel hrel).toggles
  have hend := htoggles r
  rw [hdrained.queue, hdrained.net, hdrained.delivered v, add_zero] at hend
  exact flag_injective hend.2

/-! ## A commit between the subscription and the snapshot -/

/-- A base relation of keys, and one of its rows. -/
def pricesRel : Symbol := ⟨"prices"⟩

def priceRow : KeyedRow := ⟨[.bool true], []⟩

/-- One put or rm script, from its start to its last event. -/
def script (w : ℕ) (m : Mutation) : List WatchAction :=
  [.begin w fun _ => false, .mutate w pricesRel m, .finish w, .commit w, .deliver w pricesRel,
    .leave w]

/-- The maintained and the committed membership of the row, where the queue is empty. -/
def answers (s : Watch) : Option (Bool × Bool) :=
  if (s.query.queue pricesRel).isEmpty ∧ s.query.net pricesRel priceRow = 0 then
    s.query.rows.map fun rows => (rows pricesRel priceRow, (s.committed pricesRel).has priceRow)
  else none

/-- The row is put between the subscription and the snapshot and removed after it: the redundant
event of the put cancels the event of the removal in one batch, and the query keeps the row. -/
theorem standing_keeps_removed_row :
    (runSteps (step [pricesRel] fun _ _ => true) (opened fun _ _ => none)
      ([.subscribe pricesRel] ++ script 0 (.put [priceRow]) ++ [.snapshot] ++
        script 1 (.rm [priceRow.key]) ++ [.recv pricesRel, .recv pricesRel, .apply])).bind answers =
      some (true, false) := by
  decide

lemma quiet_apply : s.Quiet edb (fun _ _ => true) .apply := fun _ _ _ => rfl

lemma undelivered_eq_nil (rel : Symbol) (hself : s.undelivered rel 0 = [])
    (hother : ∀ v ≠ 0, s.writers v = none) (v : ℕ) : s.undelivered rel v = [] := by
  by_cases hv : v = 0
  · rw [hv, hself]
  · rw [undelivered, hother v hv]

/-- A registered query drains the event of a put. -/
theorem standing_converges_prices : ∃ actions s rows, StepRun (step [pricesRel] fun _ _ => true)
        (Quiet [pricesRel] fun _ _ => true) (opened fun _ _ => none) actions s ∧
      s.query.rows = some rows ∧ (s.committed pricesRel).has priceRow = true ∧
        rows pricesRel priceRow = (s.committed pricesRel).has priceRow := by
  have hsubscribe := (@StepRun.nil _ _ (step [pricesRel] fun _ _ => true)
    (Quiet [pricesRel] fun _ _ => true) (opened fun _ _ => none)).extend
      [.subscribe pricesRel] (by simp [Quiet]) rfl
  have hsnapshot := hsubscribe.snoc (a := .snapshot)
    (fun rel hrel => ⟨rfl, fun _ => rfl, fun _ _ hw => nomatch hw⟩) rfl
  have hbegin := hsnapshot.extend [.begin 0 fun _ => false] (by simp [Quiet]) rfl
  have hput := (hbegin.snoc (a := .mutate 0 pricesRel (.put [priceRow]))
    (fun _ => ⟨nodup_singleton _, fun tx htx => by cases htx; rfl⟩) rfl).extend
      [.finish 0] (by simp [Quiet]) rfl
  have hcommit := (hput.snoc (a := .commit 0) (fun rel hrel => .inr (undelivered_eq_nil rel rfl
    fun v hv => by simp [setWriter, opened, hv])) rfl).extend
      [.deliver 0 pricesRel, .leave 0, .recv pricesRel] (by simp [Quiet]) rfl
  have hdone := hcommit.snoc quiet_apply rfl
  refine ⟨_, _, _, hdone, rfl, rfl, standing_converges hdone rfl (mem_singleton_self _)
    ⟨rfl, fun _ => rfl, ?_⟩ _⟩
  exact undelivered_eq_nil pricesRel rfl fun v hv => by
    simp [setWriter, opened, sendEvent, commitWriter]

end Watch

end Kyzo
