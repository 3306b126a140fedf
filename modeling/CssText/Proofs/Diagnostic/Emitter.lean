import CssText.Diagnostic.Emitter

/-!
# What an emitter keeps and tells

An emission that is severe enough is appended to the events and told to all observers, and no
emission changes the settings of the emitter. So a series of emissions appends those of them
that are accepted (`events_foldl_emit`, `deliveries_foldl_emit`), and each observer hears of
the same ones (`deliveriesTo_foldl_emit`).
-/

namespace CssText
namespace Emitter

def accepts (e : Emitter) (event : Event) : Bool :=
  e.minSeverity.rank ≤ event.severity.rank

/-- The event as it is kept, about the document that the emitter is at. -/
def stamp (e : Emitter) (event : Event) : Event :=
  { event with source := e.source }

variable {e : Emitter} {event : Event} {k : Nat}

theorem emit_of_accepts (h : e.accepts event = true) :
    e.emit event = e.record (e.stamp event) := by
  rw [emit, if_neg (Nat.not_lt.mpr (of_decide_eq_true h))]
  rfl

theorem emit_of_not_accepts (h : e.accepts event = false) : e.emit event = e := by
  rw [emit, if_pos (Nat.lt_of_not_le (of_decide_eq_false h))]

/-!
## One event

The observers are told of an event one after the other, the first one first. Each of them hears
of it once, since a number belongs to one observer only.
-/

theorem events_record (e : Emitter) (event : Event) :
    (e.record event).events = e.events ++ [event] :=
  List.reverse_cons

/-- What observers are told of some events: of each event all of them, the first one first. -/
def announce (observers : Nat) (events : List Event) : List (Nat × Event) :=
  events.flatMap fun event => (List.range observers).map fun k => (k, event)

def heard (k : Nat) (told : List (Nat × Event)) : List Event :=
  told.filterMap fun d => if d.1 = k then some d.2 else none

theorem deliveriesTo_eq (e : Emitter) (k : Nat) : e.deliveriesTo k = heard k e.deliveries :=
  rfl

theorem announce_cons (observers : Nat) (event : Event) (events : List Event) :
    announce observers (event :: events) =
      ((List.range observers).map fun k => (k, event)) ++ announce observers events :=
  List.flatMap_cons

theorem heard_append (k : Nat) (told told' : List (Nat × Event)) :
    heard k (told ++ told') = heard k told ++ heard k told' :=
  List.filterMap_append

theorem deliveries_record (e : Emitter) (event : Event) :
    (e.record event).deliveries = e.deliveries ++ announce e.observers [event] := by
  rw [deliveries, record, List.reverse_append, List.reverse_reverse, announce_cons, announce,
    List.flatMap_nil, List.append_nil, deliveries]

theorem filterMap_range (event : Event) (k n : Nat) :
    (List.range n).filterMap (fun j => if j = k then some event else none) =
      if k < n then [event] else [] := by
  induction n with
  | zero => rfl
  | succ n ih =>
      rw [List.range_succ, List.filterMap_append, ih]
      rcases Nat.lt_trichotomy k n with h | h | h
      · simp [h, Nat.lt_succ_of_lt h, Nat.ne_of_gt h]
      · simp [h]
      · simp [Nat.not_lt_of_gt h, Nat.ne_of_lt h, show ¬ k < n + 1 by omega]

/-- Each observer hears of every event once, and nobody else does. -/
theorem heard_announce (k observers : Nat) (events : List Event) :
    heard k (announce observers events) = if k < observers then events else [] := by
  induction events with
  | nil => exact (ite_self _).symm
  | cons event events ih =>
      have hone : heard k ((List.range observers).map fun j => (j, event)) =
          if k < observers then [event] else [] := by
        rw [heard, List.filterMap_map]
        exact filterMap_range event k observers
      rw [announce_cons, heard_append, hone, ih]
      split
      · rfl
      · rfl

/-!
## A series of events

An emission changes nothing but what is kept and what was told, so the settings stay as they are.
-/

theorem exists_emit (e : Emitter) (event : Event) :
    ∃ kept told, e.emit event = { e with kept, told } := by
  cases h : e.accepts event with
  | true => exact ⟨_, _, emit_of_accepts h⟩
  | false => exact ⟨e.kept, e.told, emit_of_not_accepts h⟩

theorem settings_emit (e : Emitter) (event : Event) :
    (e.emit event).accepts = e.accepts ∧ (e.emit event).stamp = e.stamp ∧
      (e.emit event).observers = e.observers := by
  rcases exists_emit e event with ⟨kept, told, he⟩
  rw [he]
  exact ⟨rfl, rfl, rfl⟩

theorem events_foldl_emit (e : Emitter) (events : List Event) :
    (events.foldl emit e).events = e.events ++ (events.filter e.accepts).map e.stamp := by
  induction events generalizing e with
  | nil => exact (List.append_nil _).symm
  | cons event events ih =>
      rcases settings_emit e event with ⟨haccepts, hstamp, -⟩
      rw [List.foldl_cons, ih, haccepts, hstamp]
      cases h : e.accepts event with
      | true =>
          rw [emit_of_accepts h, events_record, List.filter_cons_of_pos h, List.append_assoc]
          rfl
      | false => rw [emit_of_not_accepts h, List.filter_cons_of_neg (by simp [h])]

theorem deliveries_foldl_emit (e : Emitter) (events : List Event) :
    (events.foldl emit e).deliveries =
      e.deliveries ++ announce e.observers ((events.filter e.accepts).map e.stamp) := by
  induction events generalizing e with
  | nil => exact (List.append_nil _).symm
  | cons event events ih =>
      rcases settings_emit e event with ⟨haccepts, hstamp, hobservers⟩
      rw [List.foldl_cons, ih, haccepts, hstamp, hobservers]
      cases h : e.accepts event with
      | true =>
          rw [emit_of_accepts h, deliveries_record, List.filter_cons_of_pos h, List.map_cons,
            List.append_assoc, announce, announce, announce, ← List.flatMap_append]
          rfl
      | false => rw [emit_of_not_accepts h, List.filter_cons_of_neg (by simp [h])]

theorem deliveriesTo_foldl_emit (hk : k < e.observers) (events : List Event) :
    (events.foldl emit e).deliveriesTo k =
      e.deliveriesTo k ++ (events.filter e.accepts).map e.stamp := by
  rw [deliveriesTo_eq, deliveries_foldl_emit, heard_append, heard_announce, if_pos hk,
    deliveriesTo_eq]

theorem reportErrors_eq (e : Emitter) (stage : Bytes) (errors : List ParseError) :
    e.reportErrors stage errors = (errors.map (warningOf stage)).foldl emit e := by
  rw [reportErrors, List.foldl_map]

end Emitter
end CssText
