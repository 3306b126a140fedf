import CssText.Proofs.Diagnostic.Emitter

/-!
# The history of an emitter

An emitter remembers little of what was asked of it, but what it has kept and told follows
from all of it. Here the calls are the history: the least severity, the source and the number
of observers at some moment are read off the calls before it, and so are the emissions that
were accepted. Whatever the calls are and in whatever order, the emitter has kept what was
accepted since it was last cleared, and each observer has heard what was accepted since it was
added (`run_history`).
-/

namespace CssText
namespace Emitter

/-!
## Calls
-/

/-- What can be asked of an emitter. Observers that are added only listen. -/
inductive Call where
  | emit (severity : Severity) (component stage message : Bytes)
  | emitAt (severity : Severity) (component stage message : Bytes) (line position : Nat)
  | setSource (source : Bytes)
  | setMinSeverity (minSeverity : Severity)
  | addObserver
  | clear
  | reportErrors (stage : Bytes) (errors : List ParseError)

def call (e : Emitter) : Call → Emitter
  | .emit severity component stage message => e.emit { severity, component, stage, message }
  | .emitAt severity component stage message line position =>
      e.emit { severity, component, stage, message, line, position }
  | .setSource source => e.setSource source
  | .setMinSeverity minSeverity => e.setMinSeverity minSeverity
  | .addObserver => e.addObserver
  | .clear => e.clear
  | .reportErrors stage errors => e.reportErrors stage errors

def run (e : Emitter) (calls : List Call) : Emitter :=
  calls.foldl call e

namespace Call

def emissions : Call → List Event
  | .emit severity component stage message => [{ severity, component, stage, message }]
  | .emitAt severity component stage message line position =>
      [{ severity, component, stage, message, line, position }]
  | .reportErrors stage errors => errors.map (warningOf stage)
  | _ => []

def source? : Call → Option Bytes
  | .setSource source => some source
  | _ => none

def minSeverity? : Call → Option Severity
  | .setMinSeverity minSeverity => some minSeverity
  | _ => none

def addsObserver : Call → Bool
  | .addObserver => true
  | _ => false

end Call

/-!
## What the history says

A setting is at each moment what it was last set to. Which emissions are accepted follows from
the settings of their moment, and an accepted one is told to all observers of its moment before
the next one is.
-/

/-- What was set last, or what there is without any setting. -/
def lastSet {α : Type} (set? : Call → Option α) (initial : α) (past : List Call) : α :=
  (past.filterMap set?).getLast?.getD initial

def sourceAfter (past : List Call) : Bytes :=
  lastSet Call.source? [] past

def minSeverityAfter (past : List Call) : Severity :=
  lastSet Call.minSeverity? .info past

/-- How many observers were added. The next one to be added gets this number. -/
def observersAfter (past : List Call) : Nat :=
  past.countP Call.addsObserver

/-- The emissions of a call that are accepted at its moment, with the source of that moment. -/
def acceptedAt (past : List Call) (c : Call) : List Event :=
  (c.emissions.filter fun event =>
    (minSeverityAfter past).rank ≤ event.severity.rank).map fun event =>
      { event with source := sourceAfter past }

def accepted (past : List Call) : List Call → List Event
  | [] => []
  | c :: calls => acceptedAt past c ++ accepted (past ++ [c]) calls

def announced (past : List Call) : List Call → List (Nat × Event)
  | [] => []
  | c :: calls =>
      announce (observersAfter past) (acceptedAt past c) ++ announced (past ++ [c]) calls

theorem lastSet_append {α : Type} (set? : Call → Option α) (initial : α) (past : List Call)
    (c : Call) :
    lastSet set? initial (past ++ [c]) = (set? c).getD (lastSet set? initial past) := by
  rw [lastSet, List.filterMap_append, List.getLast?_append]
  cases h : set? c with
  | none => simp [h, lastSet]
  | some value => simp [h]

theorem announced_append (past calls more : List Call) :
    announced past (calls ++ more) = announced past calls ++ announced (past ++ calls) more := by
  induction calls generalizing past with
  | nil => rw [List.nil_append, List.append_nil, announced, List.nil_append]
  | cons c calls ih =>
      rw [List.cons_append, announced, announced, ih, List.append_assoc, List.append_assoc,
        List.singleton_append]

theorem observersAfter_append (past calls : List Call) :
    observersAfter (past ++ calls) = observersAfter past + observersAfter calls :=
  List.countP_append

/-- An observer hears of what was accepted after it was there. -/
theorem heard_announced {k : Nat} {past : List Call} (hk : k < observersAfter past)
    (calls : List Call) : heard k (announced past calls) = accepted past calls := by
  induction calls generalizing past with
  | nil => rfl
  | cons c calls ih =>
      have hmore : k < observersAfter (past ++ [c]) := by
        rw [observersAfter_append]
        exact Nat.lt_of_lt_of_le hk (Nat.le_add_right _ _)
      rw [announced, accepted, heard_append, heard_announce, if_pos hk, ih hmore]

theorem heard_announced_before {k : Nat} {past calls : List Call}
    (hk : observersAfter (past ++ calls) ≤ k) : heard k (announced past calls) = [] := by
  induction calls generalizing past with
  | nil => rfl
  | cons c calls ih =>
      have hmore : observersAfter ((past ++ [c]) ++ calls) ≤ k := by
        rw [List.append_assoc]
        exact hk
      have hpast : ¬ k < observersAfter past := by
        rw [observersAfter_append] at hk
        exact Nat.not_lt.mpr (Nat.le_trans (Nat.le_add_right _ _) hk)
      rw [announced, heard_append, heard_announce, if_neg hpast, ih hmore, List.append_nil]

/-!
## One call

A call emits its events and then changes a setting, or forgets what is kept. What the emitter
knows of the past is in its settings (`Follows`).
-/

variable {e : Emitter} {past : List Call}

structure Follows (e : Emitter) (past : List Call) : Prop where
  source : e.source = sourceAfter past
  minSeverity : e.minSeverity = minSeverityAfter past
  observers : e.observers = observersAfter past

theorem follows_nil : Follows {} [] :=
  ⟨rfl, rfl, rfl⟩

theorem Follows.of_settings {e' : Emitter} (h : Follows e past) (c : Call)
    (hsource : e'.source = c.source?.getD e.source)
    (hseverity : e'.minSeverity = c.minSeverity?.getD e.minSeverity)
    (hobservers : e'.observers = e.observers + [c].countP Call.addsObserver) :
    Follows e' (past ++ [c]) where
  source := by rw [hsource, h.source, sourceAfter, sourceAfter, lastSet_append]
  minSeverity := by
    rw [hseverity, h.minSeverity, minSeverityAfter, minSeverityAfter, lastSet_append]
  observers := by
    rw [hobservers, h.observers, observersAfter_append, observersAfter, observersAfter]

theorem exists_foldl_emit (e : Emitter) (events : List Event) :
    ∃ kept told, events.foldl Emitter.emit e = { e with kept, told } := by
  induction events generalizing e with
  | nil => exact ⟨e.kept, e.told, rfl⟩
  | cons event events ih =>
      rcases exists_emit e event with ⟨kept, told, he⟩
      rw [List.foldl_cons, he]
      exact ih { e with kept, told }

/-- A call emits its events and then changes a setting, or forgets what is kept. -/
theorem call_cases (e : Emitter) (c : Call) :
    (e.call c).deliveries = (c.emissions.foldl Emitter.emit e).deliveries ∧
      (c ≠ .clear → (e.call c).events = (c.emissions.foldl Emitter.emit e).events) := by
  cases c with
  | reportErrors stage errors =>
      rw [call, reportErrors_eq]
      exact ⟨rfl, fun _ => rfl⟩
  | clear => exact ⟨rfl, fun h => absurd rfl h⟩
  | _ => exact ⟨rfl, fun _ => rfl⟩

theorem Follows.foldl_emit (h : Follows e past) (events : List Event) :
    Follows (events.foldl Emitter.emit e) past := by
  rcases exists_foldl_emit e events with ⟨kept, told, he⟩
  rw [he]
  exact ⟨h.source, h.minSeverity, h.observers⟩

theorem Follows.call (h : Follows e past) (c : Call) : Follows (e.call c) (past ++ [c]) := by
  cases c with
  | emit severity component stage message =>
      exact (h.foldl_emit [{ severity, component, stage, message }]).of_settings _ rfl rfl rfl
  | emitAt severity component stage message line position =>
      exact (h.foldl_emit
        [{ severity, component, stage, message, line, position }]).of_settings _ rfl rfl rfl
  | reportErrors stage errors =>
      rw [Emitter.call, reportErrors_eq]
      exact (h.foldl_emit (errors.map (warningOf stage))).of_settings _ rfl rfl rfl
  | _ => exact h.of_settings _ rfl rfl rfl

theorem Follows.acceptedAt_eq (h : Follows e past) (c : Call) :
    acceptedAt past c = (c.emissions.filter e.accepts).map e.stamp := by
  rw [acceptedAt, ← h.source, ← h.minSeverity]
  rfl

theorem Follows.events_call (h : Follows e past) {c : Call} (hc : c ≠ .clear) :
    (e.call c).events = e.events ++ acceptedAt past c := by
  rw [(call_cases e c).2 hc, events_foldl_emit, h.acceptedAt_eq]

theorem Follows.deliveries_call (h : Follows e past) (c : Call) :
    (e.call c).deliveries = e.deliveries ++ announce (observersAfter past) (acceptedAt past c) := by
  rw [(call_cases e c).1, deliveries_foldl_emit, h.acceptedAt_eq, h.observers]

/-!
## All calls

The calls are taken one by one from what is still to come to the past, and the settings of the
emitter follow the past all along. What is accepted is kept as long as nothing is cleared, and
it is told in any case.
-/

theorem run_cons (e : Emitter) (c : Call) (calls : List Call) :
    e.run (c :: calls) = (e.call c).run calls :=
  rfl

theorem run_append (e : Emitter) (calls more : List Call) :
    e.run (calls ++ more) = (e.run calls).run more :=
  List.foldl_append

theorem Follows.run (h : Follows e past) (calls : List Call) :
    Follows (e.run calls) (past ++ calls) := by
  induction calls generalizing e past with
  | nil =>
      rw [List.append_nil]
      exact h
  | cons c calls ih =>
      have hmore := ih (h.call c)
      rw [List.append_assoc] at hmore
      exact hmore

theorem Follows.events_run (h : Follows e past) {calls : List Call} (hclear : .clear ∉ calls) :
    (e.run calls).events = e.events ++ accepted past calls := by
  induction calls generalizing e past with
  | nil => exact (List.append_nil _).symm
  | cons c calls ih =>
      have hc : c ≠ .clear := fun hc => hclear (hc ▸ List.mem_cons_self)
      have hmore := ih (h.call c) fun hmem => hclear (List.mem_cons_of_mem c hmem)
      rw [run_cons, hmore, h.events_call hc, accepted, List.append_assoc]

theorem Follows.deliveries_run (h : Follows e past) (calls : List Call) :
    (e.run calls).deliveries = e.deliveries ++ announced past calls := by
  induction calls generalizing e past with
  | nil => exact (List.append_nil _).symm
  | cons c calls ih =>
      rw [run_cons, ih (h.call c), h.deliveries_call, announced, List.append_assoc]

theorem events_clear (e : Emitter) : (e.call .clear).events = [] :=
  rfl

/-!
## Views
-/

/-- A part of a list: the events of one kind, each as often as it is there and in their order. -/
structure Selects (p : Event → Prop) [DecidablePred p] (whole part : List Event) : Prop where
  sublist : part.Sublist whole
  count : ∀ event, part.count event = if p event then whole.count event else 0

theorem selects_filter (p : Event → Prop) [DecidablePred p] (whole : List Event) :
    Selects p whole (whole.filter fun event => p event) where
  sublist := List.filter_sublist
  count event := by
    split
    · rename_i h
      exact List.count_filter (decide_eq_true h)
    · rename_i h
      refine List.count_eq_zero.mpr ?_
      intro hmem
      exact h (of_decide_eq_true (List.mem_filter.mp hmem).2)

/-- How what an emitter has kept and told in the end follows from the calls, from its first on. -/
structure History (calls : List Call) : Prop where
  /-- What was accepted is kept, if nothing was ever cleared. -/
  kept : .clear ∉ calls → (run {} calls).events = accepted [] calls
  /-- Otherwise what was accepted since then. -/
  kept_since : ∀ before after, calls = before ++ .clear :: after → .clear ∉ after →
    (run {} calls).events = accepted (before ++ [.clear]) after
  /-- Each emission has reached all observers, the first one first, before the next emission. -/
  told : (run {} calls).deliveries = announced [] calls
  /-- What an observer was told begins where it was added. -/
  told_since : ∀ before after, calls = before ++ .addObserver :: after →
    (run {} calls).deliveriesTo (observersAfter before) =
      accepted (before ++ [.addObserver]) after
  /-- There are no observers but those that were added. -/
  told_else : ∀ k, observersAfter calls ≤ k → (run {} calls).deliveriesTo k = []
  bySeverity : ∀ severity, Selects (fun event => event.severity = severity)
    (run {} calls).events ((run {} calls).eventsBySeverity severity)
  byComponent : ∀ component, Selects (fun event => event.component = component)
    (run {} calls).events ((run {} calls).eventsByComponent component)

/-- What an emitter has kept and told is told by the history of its calls. -/
theorem run_history (calls : List Call) : History calls := by
  have htold : (run {} calls).deliveries = announced [] calls :=
    follows_nil.deliveries_run calls
  constructor
  · intro hclear
    exact follows_nil.events_run hclear
  · intro before after hcalls hclear
    have hbefore := (follows_nil.run before).call .clear
    rw [hcalls, run_append, run_cons, hbefore.events_run hclear, events_clear]
    rfl
  · exact htold
  · intro before after hcalls
    have hnew : observersAfter before < observersAfter (before ++ [.addObserver]) := by
      rw [observersAfter_append]
      exact Nat.lt_succ_self _
    have hbefore : heard (observersAfter before) (announced [] before) = [] :=
      heard_announced_before (Nat.le_refl _)
    have hself : announced before (.addObserver :: after) =
        announced (before ++ [.addObserver]) after := rfl
    rw [deliveriesTo_eq, htold, hcalls, announced_append, heard_append, hbefore, List.nil_append,
      List.nil_append, hself, heard_announced hnew]
  · intro k hk
    rw [deliveriesTo_eq, htold]
    exact heard_announced_before hk
  · intro severity
    exact selects_filter _ _
  · intro component
    exact selects_filter _ _

/-- The second observer misses the first event, which is also the one that was cleared. -/
example :
    let e := run {} [.addObserver, .emit .error [] [] (ascii "a"), .addObserver, .clear,
      .setMinSeverity .warning, .emit .info [] [] (ascii "b"),
      .reportErrors [] [⟨ascii "c", 2, 7⟩]]
    e.events.map Event.message = [ascii "c"] ∧
      (e.deliveriesTo 0).map Event.message = [ascii "a", ascii "c"] ∧
      (e.deliveriesTo 1).map Event.message = [ascii "c"] := by
  decide +kernel

end Emitter
end CssText
