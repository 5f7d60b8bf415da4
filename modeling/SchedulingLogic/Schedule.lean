import SchedulingLogic.Interval

/-!
# Schedules

A schedule assigns instants to the ends of intervals.  It is kept as a list of
entries with distinct keys, in the order in which the keys were first set; two
schedules are equal when they assign the same instants, whatever that order.
-/

namespace SchedulingLogic

structure Schedule where
  entries : List (TimePoint.Key × Int64)
  nodup_keys : (entries.map Prod.fst).Nodup

namespace Schedule

/-- Binds `k` to `v`, in place of its former value if there is one, which is returned too. -/
def exchange (k : TimePoint.Key) (v : Int64) :
    List (TimePoint.Key × Int64) → Option Int64 × List (TimePoint.Key × Int64)
  | [] => (none, [(k, v)])
  | entry :: rest =>
      if entry.1 = k then (some entry.2, (k, v) :: rest)
      else
        let (former, rest) := exchange k v rest
        (former, entry :: rest)

theorem lookup_cons_eq (k : TimePoint.Key) (entry : TimePoint.Key × Int64)
    (rest : List (TimePoint.Key × Int64)) :
    (entry :: rest).lookup k = if k = entry.1 then some entry.2 else rest.lookup k := by
  obtain ⟨k', v⟩ := entry
  by_cases h : k = k'
  · rw [h, List.lookup_cons_self, if_pos rfl]
  · have hb : (k == k') = false := by simpa using h
    rw [List.lookup_cons, hb, if_neg h]

theorem mem_of_lookup_eq_some {entries : List (TimePoint.Key × Int64)} {k : TimePoint.Key}
    {v : Int64} (h : entries.lookup k = some v) : (k, v) ∈ entries := by
  obtain ⟨before, after, rfl, _⟩ := List.lookup_eq_some_iff.mp h
  exact List.mem_append_right before List.mem_cons_self

theorem exchange_fst (k : TimePoint.Key) (v : Int64) (entries : List (TimePoint.Key × Int64)) :
    (exchange k v entries).1 = entries.lookup k := by
  induction entries with
  | nil => rfl
  | cons entry rest ih =>
      by_cases h : entry.1 = k
      · simp [exchange, lookup_cons_eq, h]
      · simp [exchange, lookup_cons_eq, h, Ne.symm h, ih]

theorem lookup_exchange (k k' : TimePoint.Key) (v : Int64)
    (entries : List (TimePoint.Key × Int64)) :
    (exchange k v entries).2.lookup k' =
      if k' = k then some v else entries.lookup k' := by
  induction entries with
  | nil => simp [exchange, lookup_cons_eq]
  | cons entry rest ih =>
      by_cases h : entry.1 = k
      · by_cases hk : k' = k <;> simp [exchange, lookup_cons_eq, h, hk]
      · by_cases hk : k' = entry.1
        · simp [exchange, lookup_cons_eq, h, hk]
        · simp [exchange, lookup_cons_eq, h, hk, ih]

theorem keys_exchange (k : TimePoint.Key) (v : Int64)
    (entries : List (TimePoint.Key × Int64)) :
    (exchange k v entries).2.map Prod.fst =
      if k ∈ entries.map Prod.fst then entries.map Prod.fst
      else entries.map Prod.fst ++ [k] := by
  induction entries with
  | nil => simp [exchange]
  | cons entry rest ih =>
      by_cases h : entry.1 = k
      · simp [exchange, h]
      · have h' : k ≠ entry.1 := Ne.symm h
        by_cases hk : k ∈ rest.map Prod.fst <;> simp_all [exchange]

theorem nodup_keys_exchange (k : TimePoint.Key) (v : Int64)
    {entries : List (TimePoint.Key × Int64)} (h : (entries.map Prod.fst).Nodup) :
    ((exchange k v entries).2.map Prod.fst).Nodup := by
  rw [keys_exchange]
  split
  · exact h
  · rename_i hk
    exact List.nodup_append.mpr ⟨h, by simp, fun a ha b hb => by
      rw [List.mem_singleton.mp hb]
      exact fun hab => hk (hab ▸ ha)⟩

def empty : Schedule := ⟨[], List.nodup_nil⟩

def get? (s : Schedule) (p : TimePoint) : Option Int64 := s.entries.lookup p.key

/-- Sets the instant of a point, and returns the former one as well. -/
def set (s : Schedule) (p : TimePoint) (v : Int64) : Option Int64 × Schedule :=
  ((exchange p.key v s.entries).1,
    ⟨(exchange p.key v s.entries).2, nodup_keys_exchange p.key v s.nodup_keys⟩)

def place (s : Schedule) (x : Interval) (start finish : Int64) : Schedule :=
  ((s.set x.start start).2.set x.finish finish).2

/-- The number of points that have an instant, as distinct keys. -/
def size (s : Schedule) : Nat := s.entries.length

def isEmpty (s : Schedule) : Bool := s.entries.isEmpty

/-- Equality as maps: as many entries, and each entry of one is found in the other. -/
instance : BEq Schedule where
  beq s t := s.size == t.size && s.entries.all fun entry =>
    t.entries.lookup entry.1 == some entry.2

@[simp] theorem get?_empty (p : TimePoint) : empty.get? p = none := rfl

theorem set_fst (s : Schedule) (p : TimePoint) (v : Int64) : (s.set p v).1 = s.get? p :=
  exchange_fst _ _ _

theorem get?_set (s : Schedule) (p q : TimePoint) (v : Int64) :
    (s.set p v).2.get? q = if q.key = p.key then some v else s.get? q :=
  lookup_exchange _ _ _ _

end Schedule

end SchedulingLogic
