import Mathlib.Data.Finset.Card
import SchedulingLogic.Schedule

/-!
# Writes to a schedule

A schedule comes about by setting points and placing intervals, from the empty one on.
Whatever the labels and names were, it holds under each key the value that was written
there last, and nothing under a key that was never written.
-/

namespace SchedulingLogic

inductive Write where
  | set (point : TimePoint) (value : Int64)
  | place (interval : Interval) (start finish : Int64)

namespace Write

def perform (s : Schedule) : Write → Schedule
  | set p v => (s.set p v).2
  | place x start finish => s.place x start finish

/-- What is written where, in the order of writing. -/
def bindings : Write → List (TimePoint.Key × Int64)
  | set p v => [(p.key, v)]
  | place x start finish => [((x.id, .start), start), ((x.id, .finish), finish)]

/-- All bindings of a sequence of writes, the earliest first. -/
def history (ws : List Write) : List (TimePoint.Key × Int64) := ws.flatMap bindings

def writtenKeys (ws : List Write) : Finset TimePoint.Key := ((history ws).map Prod.fst).toFinset

/-- `v` is bound to `k`, and nothing is bound to `k` later. -/
def IsLatest (bs : List (TimePoint.Key × Int64)) (k : TimePoint.Key) (v : Int64) : Prop :=
  ∃ earlier later, bs = earlier ++ (k, v) :: later ∧ ∀ b ∈ later, b.1 ≠ k

variable {bs : List (TimePoint.Key × Int64)} {k : TimePoint.Key}

theorem lookup_reverse_eq_some_iff {v : Int64} :
    bs.reverse.lookup k = some v ↔ IsLatest bs k v := by
  simp only [List.lookup_eq_some_iff, bne_iff_ne, IsLatest]
  constructor
  · rintro ⟨later, earlier, hsplit, hlater⟩
    refine ⟨earlier.reverse, later.reverse, ?_, ?_⟩
    · simpa using congrArg List.reverse hsplit
    · intro b hb
      exact (hlater b (List.mem_reverse.mp hb)).symm
  · rintro ⟨earlier, later, rfl, hlater⟩
    refine ⟨later.reverse, earlier.reverse, by simp, ?_⟩
    intro b hb
    exact (hlater b (List.mem_reverse.mp hb)).symm

theorem lookup_ne_none_iff : bs.lookup k ≠ none ↔ k ∈ bs.map Prod.fst := by
  rw [Option.ne_none_iff_isSome, List.lookup_isSome_iff, List.mem_map]
  simp only [beq_iff_eq, @eq_comm _ k]

theorem history_cons (w : Write) (ws : List Write) :
    history (w :: ws) = w.bindings ++ history ws := rfl

/-- A write hides what was held under its keys, and nothing else. -/
theorem lookup_perform (s : Schedule) (w : Write) (k : TimePoint.Key) :
    (w.perform s).entries.lookup k = (w.bindings.reverse.lookup k).or (s.entries.lookup k) := by
  cases w with
  | set p v =>
      change (Schedule.exchange p.key v s.entries).2.lookup k = ([(p.key, v)].lookup k).or _
      rw [Schedule.lookup_exchange, Schedule.lookup_cons_eq]
      split <;> rfl
  | place x start finish =>
      change (Schedule.exchange x.finish.key finish
        (Schedule.exchange x.start.key start s.entries).2).2.lookup k =
          ([(x.finish.key, finish), (x.start.key, start)].lookup k).or _
      rw [Schedule.lookup_exchange, Schedule.lookup_exchange, Schedule.lookup_cons_eq,
        Schedule.lookup_cons_eq]
      split
      · rfl
      · split <;> rfl

theorem lookup_foldl_perform (s : Schedule) (ws : List Write) (k : TimePoint.Key) :
    (ws.foldl perform s).entries.lookup k =
      ((history ws).reverse.lookup k).or (s.entries.lookup k) := by
  induction ws generalizing s with
  | nil => rfl
  | cons w ws ih =>
      rw [List.foldl_cons, ih, lookup_perform, history_cons, List.reverse_append,
        List.lookup_append, Option.or_assoc]

end Write

namespace Schedule

open Write

/-- The schedule that a sequence of writes makes out of the empty one. -/
def after (ws : List Write) : Schedule := ws.foldl perform empty

theorem lookup_after (ws : List Write) (k : TimePoint.Key) :
    (after ws).entries.lookup k = (history ws).reverse.lookup k := by
  rw [after, lookup_foldl_perform]
  exact Option.or_none

theorem toFinset_keys_after (ws : List Write) :
    ((after ws).entries.map Prod.fst).toFinset = writtenKeys ws := by
  ext k
  rw [writtenKeys, List.mem_toFinset, List.mem_toFinset, ← lookup_ne_none_iff, lookup_after,
    lookup_ne_none_iff, List.map_reverse, List.mem_reverse]

theorem size_after (ws : List Write) : (after ws).size = (writtenKeys ws).card := by
  rw [← toFinset_keys_after, List.toFinset_card_of_nodup (after ws).nodup_keys, List.length_map,
    size]

theorem after_concat_set (ws : List Write) (p : TimePoint) (v : Int64) :
    after (ws ++ [.set p v]) = ((after ws).set p v).2 :=
  List.foldl_concat perform empty (.set p v) ws

/-- A schedule holds what was written last under each key, counts the keys, and tells what
it held before a point is set, which leaves all other keys alone. -/
theorem keeps_last_writes (ws : List Write) :
    (∀ p v, (after ws).get? p = some v ↔ IsLatest (history ws) p.key v) ∧
      (∀ p, (after ws).get? p = none ↔ p.key ∉ writtenKeys ws) ∧
      (∀ p v, ((after ws).set p v).1 = (after ws).get? p ∧
        ∀ q, (after (ws ++ [.set p v])).get? q =
          if q.key = p.key then some v else (after ws).get? q) ∧
      (after ws).size = (writtenKeys ws).card ∧
      ((after ws).isEmpty = true ↔ writtenKeys ws = ∅) := by
  refine ⟨?_, ?_, ?_, size_after ws, ?_⟩
  · intro p v
    rw [get?, lookup_after, lookup_reverse_eq_some_iff]
  · intro p
    rw [get?, ← toFinset_keys_after, List.mem_toFinset, ← lookup_ne_none_iff, not_not]
  · intro p v
    refine ⟨set_fst (after ws) p v, ?_⟩
    intro q
    rw [after_concat_set, get?_set]
  · rw [← Finset.card_eq_zero, ← size_after, isEmpty, List.isEmpty_iff, size,
      List.length_eq_zero_iff]

end Schedule

end SchedulingLogic
