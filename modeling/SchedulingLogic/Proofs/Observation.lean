import Mathlib.Data.List.Perm.Subperm
import Mathlib.Tactic.TFAE
import SchedulingLogic.Proofs.Substitution
import SchedulingLogic.Proofs.Writes

/-!
# Observing schedules

Equality of schedules counts and compares entries, in whatever order these came about.  It
says no more and no less than what can be observed: the instants of all points, or what all
expressions evaluate to.  Of the writes that made a schedule, only the last one under each
key is seen.
-/

namespace SchedulingLogic

theorem Expr.outcome_timePoint_eq_ok_iff {s : Schedule} {p : TimePoint} {v : Int64} :
    ((timePoint p).evaluate s).outcome = .ok (.int v) ↔ s.get? p = some v := by
  rw [outcome_evaluate, run, TimePoint.evaluate]
  cases s.get? p <;> simp [Traced.fail, Traced.pure_eq]

namespace Schedule

variable {s t : Schedule}

theorem lookup_eq_some_of_mem {entries : List (TimePoint.Key × Int64)}
    (h : (entries.map Prod.fst).Nodup) {entry : TimePoint.Key × Int64} (hmem : entry ∈ entries) :
    entries.lookup entry.1 = some entry.2 := by
  induction entries with
  | nil => simp at hmem
  | cons e rest ih =>
      rw [List.map_cons, List.nodup_cons] at h
      rw [lookup_cons_eq]
      rcases List.mem_cons.mp hmem with rfl | hrest
      · exact if_pos rfl
      · have hne : entry.1 ≠ e.1 := by
          intro heq
          exact h.1 (List.mem_map.mpr ⟨entry, hrest, heq⟩)
        rw [if_neg hne]
        exact ih h.2 hrest

theorem beq_iff_entries :
    (s == t) = true ↔
      s.size = t.size ∧ ∀ entry ∈ s.entries, t.entries.lookup entry.1 = some entry.2 := by
  change (s.size == t.size && s.entries.all _) = true ↔ _
  simp only [Bool.and_eq_true, beq_iff_eq, List.all_eq_true]

/-- Schedules are equal when they are the same as maps. -/
theorem beq_iff_lookup_eq :
    (s == t) = true ↔ ∀ k, s.entries.lookup k = t.entries.lookup k := by
  rw [beq_iff_entries]
  constructor
  · rintro ⟨hsize, hentries⟩ k
    have hsub : s.entries.map Prod.fst ⊆ t.entries.map Prod.fst := by
      intro k' hk'
      obtain ⟨entry, hentry, rfl⟩ := List.mem_map.mp hk'
      rw [← Write.lookup_ne_none_iff, hentries entry hentry]
      exact Option.some_ne_none entry.2
    -- As many keys, all of them distinct: so the inclusion leaves no key of `t` over.
    have hkeys : (s.entries.map Prod.fst).Perm (t.entries.map Prod.fst) := by
      apply (List.subperm_of_subset s.nodup_keys hsub).perm_of_length_le
      rw [List.length_map, List.length_map]
      exact hsize.ge
    cases hk : s.entries.lookup k with
    | some v => exact (hentries (k, v) (mem_of_lookup_eq_some hk)).symm
    | none =>
        by_contra hne
        have hmem := hkeys.mem_iff.mpr (Write.lookup_ne_none_iff.mp (Ne.symm hne))
        exact Write.lookup_ne_none_iff.mpr hmem hk
  · intro hlookup
    have hkeys : (s.entries.map Prod.fst).Perm (t.entries.map Prod.fst) := by
      rw [List.perm_ext_iff_of_nodup s.nodup_keys t.nodup_keys]
      intro k
      rw [← Write.lookup_ne_none_iff, ← Write.lookup_ne_none_iff, hlookup k]
    constructor
    · simpa [size] using hkeys.length_eq
    · intro entry hentry
      rw [← hlookup entry.1]
      exact lookup_eq_some_of_mem s.nodup_keys hentry

theorem lookup_eq_iff_get?_eq :
    (∀ k, s.entries.lookup k = t.entries.lookup k) ↔ ∀ p, s.get? p = t.get? p := by
  constructor
  · intro h p
    exact h p.key
  · rintro h ⟨interval, endpoint⟩
    exact h ⟨interval, "", endpoint⟩

theorem get?_eq_iff_evaluate_eq :
    (∀ p, s.get? p = t.get? p) ↔
      ∀ e : Expr, (e.evaluate s).outcome = (e.evaluate t).outcome := by
  constructor
  · intro h e
    have hrun := Expr.run_congr fun p (_ : p ∈ e.timePoints) => h p
    rw [Expr.evaluate, Expr.evaluate, hrun]
  · intro h p
    apply Option.ext
    intro v
    rw [← Expr.outcome_timePoint_eq_ok_iff, h, Expr.outcome_timePoint_eq_ok_iff]

theorem lookup_after_eq_iff (ws us : List Write) :
    (∀ k, (after ws).entries.lookup k = (after us).entries.lookup k) ↔
      ∀ k v, Write.IsLatest (Write.history ws) k v ↔ Write.IsLatest (Write.history us) k v := by
  simp only [lookup_after, ← Write.lookup_reverse_eq_some_iff]
  constructor
  · intro h k v
    rw [h k]
  · intro h k
    exact Option.ext (h k)

/-- Equality is what can be observed: the last writes under each key, the instants of all
points, the outcomes of all evaluations. -/
theorem beq_tfae_observations (ws us : List Write) :
    List.TFAE [(after ws == after us) = true,
      ∀ p, (after ws).get? p = (after us).get? p,
      ∀ e : Expr, (e.evaluate (after ws)).outcome = (e.evaluate (after us)).outcome,
      ∀ k v, Write.IsLatest (Write.history ws) k v ↔ Write.IsLatest (Write.history us) k v] := by
  tfae_have 1 ↔ 2 := beq_iff_lookup_eq.trans lookup_eq_iff_get?_eq
  tfae_have 2 ↔ 3 := get?_eq_iff_evaluate_eq
  tfae_have 2 ↔ 4 := lookup_eq_iff_get?_eq.symm.trans (lookup_after_eq_iff ws us)
  tfae_finish

end Schedule

end SchedulingLogic
