import Mathlib.Data.List.Perm.Basic
import SchedulingLogic.Proofs.Interchange.RoundTrip

/-!
# Fields of records

A record is written as an object that holds each of its fields once, in any order and
among members with other names, or as the list of its fields.  Nothing else has fields.
-/

namespace SchedulingLogic

namespace Json

def asMembers (fields : List (String × Json)) : List (Option String × Json) :=
  fields.map fun field => (some field.1, field.2)

/-- A record with fields of these names and contents. -/
inductive HasFields (names : List String) : Json → List Json → Prop
  | listed {values : List Json} (hlength : values.length = names.length) :
      HasFields names (array values) values
  | members {fields : List (String × Json)} {members unknown : List (Option String × Json)}
      {values : List Json} (hnames : fields.map Prod.fst = names)
      (hvalues : fields.map Prod.snd = values) (hmembers : members.Perm (asMembers fields ++ unknown))
      (hunknown : ∀ m ∈ unknown, ∃ name, m.1 = some name ∧ name ∉ names) :
      HasFields names (object members) values

variable {members members' : List (Option String × Json)} {name : String}

theorem field?_eq_some_iff {content : Json} :
    field? members name = some content ↔
      members.filter (fun m => m.1 == some name) = [(some name, content)] := by
  rw [field?]
  constructor
  · intro h
    split at h
    · rename_i m hm
      have hname : m.1 = some name := by
        have hmem : m ∈ members.filter (fun m => m.1 == some name) := by simp [hm]
        simpa using (List.mem_filter.mp hmem).2
      rw [hm, ← hname, ← Option.some.inj h]
    · simp at h
  · intro h
    rw [h]

theorem field?_of_perm {content : Json} (h : members.Perm members')
    (hfield : field? members' name = some content) : field? members name = some content := by
  rw [field?_eq_some_iff] at hfield ⊢
  have hfilter := h.filter fun m => m.1 == some name
  rw [hfield] at hfilter
  exact List.perm_singleton.mp hfilter

theorem field?_append_unknown {content : Json} {unknown : List (Option String × Json)}
    (hunknown : ∀ m ∈ unknown, m.1 ≠ some name) (h : field? members name = some content) :
    field? (members ++ unknown) name = some content := by
  rw [field?_eq_some_iff] at h ⊢
  rw [List.filter_append, h, List.filter_eq_nil_iff.mpr (by simpa using hunknown),
    List.append_nil]

theorem HasFields.fields?_eq_some {names : List String} (hnodup : names.Nodup) {j : Json}
    {values : List Json} (h : HasFields names j values) : j.fields? names = some values := by
  cases h with
  | listed hlength => exact if_pos hlength
  | @members fields members unknown _ hnames hvalues hmembers hunknown =>
      subst hnames hvalues
      have htext : members.all (fun m => m.1.isSome) = true := by
        rw [List.all_eq_true]
        intro m hm
        rcases List.mem_append.mp (hmembers.mem_iff.mp hm) with hm | hm
        · obtain ⟨field, _, rfl⟩ := List.mem_map.mp hm
          rfl
        · obtain ⟨name, hname, _⟩ := hunknown m hm
          simp [hname]
      rw [fields?, if_pos htext, List.mapM_map]
      apply mapM_eq_some_map
      intro field hfield
      apply field?_of_perm hmembers
      refine field?_append_unknown ?_ (field?_of_mem hnodup hfield)
      intro m hm hname
      obtain ⟨other, hother, hnot⟩ := hunknown m hm
      have heq : other = field.1 := Option.some.inj (hother.symm.trans hname)
      exact hnot (heq ▸ List.mem_map_of_mem hfield)

theorem filter_or_perm {α : Type} {p q : α → Bool} {xs : List α}
    (h : ∀ x ∈ xs, p x = true → q x = false) :
    (xs.filter fun x => p x || q x).Perm (xs.filter p ++ xs.filter q) := by
  have hsplit := List.filter_append_perm p (xs.filter fun x => p x || q x)
  rw [List.filter_filter, List.filter_filter] at hsplit
  have hp : xs.filter (fun x => p x && (p x || q x)) = xs.filter p := by
    apply List.filter_congr
    intro x _
    cases p x <;> simp
  have hq : xs.filter (fun x => !p x && (p x || q x)) = xs.filter q := by
    apply List.filter_congr
    intro x hx
    have hpq := h x hx
    cases hpx : p x <;> simp_all
  rw [hp, hq] at hsplit
  exact hsplit.symm

/-- The members that are fields, each of them found once, are the fields. -/
theorem filter_names_perm {names : List String} {values : List Json} (hnodup : names.Nodup)
    (h : List.Forall₂ (fun name content => field? members name = some content) names values) :
    (members.filter fun m => m.1 ∈ names.map some).Perm (asMembers (names.zip values)) := by
  induction h with
  | nil => simp [asMembers]
  | @cons name content names values hfield _ ih =>
      obtain ⟨hname, hnodup⟩ := List.nodup_cons.mp hnodup
      have hsplit : (members.filter fun m => m.1 ∈ (name :: names).map some) =
          members.filter fun m => m.1 == some name || decide (m.1 ∈ names.map some) := by
        apply List.filter_congr
        intro m _
        rw [Bool.eq_iff_iff]
        simp
      have hdisjoint : ∀ m ∈ members, (m.1 == some name) = true →
          decide (m.1 ∈ names.map some) = false := by
        intro m _ hm
        rw [beq_iff_eq.mp hm]
        simpa using hname
      rw [hsplit]
      refine (filter_or_perm hdisjoint).trans ?_
      rw [field?_eq_some_iff.mp hfield]
      exact (ih hnodup).cons (some name, content)

theorem hasFields_of_fields?_eq_some {names : List String} (hnodup : names.Nodup) {j : Json}
    {values : List Json} (h : j.fields? names = some values) : HasFields names j values := by
  unfold fields? at h
  split at h
  · rw [Option.ite_none_right_eq_some] at h
    obtain ⟨hlength, h⟩ := h
    rw [← Option.some.inj h]
    exact .listed hlength
  · rename_i members
    rw [Option.ite_none_right_eq_some] at h
    obtain ⟨htext, h⟩ := h
    have hfields := mapM_eq_some_iff.mp h
    have hlength := hfields.length_eq
    have hmembers : members.Perm (asMembers (names.zip values) ++
        members.filter fun m => !decide (m.1 ∈ names.map some)) := by
      have hknown := filter_names_perm hnodup hfields
      have hsplit := List.filter_append_perm (fun m => decide (m.1 ∈ names.map some)) members
      exact hsplit.symm.trans (hknown.append_right _)
    refine .members (List.map_fst_zip (Nat.le_of_eq hlength))
      (List.map_snd_zip (Nat.le_of_eq hlength.symm)) hmembers ?_
    intro m hm
    obtain ⟨hmem, hnot⟩ := List.mem_filter.mp hm
    obtain ⟨name, hname⟩ := Option.isSome_iff_exists.mp (List.all_eq_true.mp htext m hmem)
    exact ⟨name, hname, by simpa [hname] using hnot⟩
  · simp at h

theorem HasFields.nesting_lt {names : List String} {j : Json} {values : List Json}
    (h : HasFields names j values) {content : Json} (hcontent : content ∈ values) :
    content.nesting < j.nesting := by
  cases h with
  | listed _ =>
      rw [nesting_array]
      exact Nat.lt_succ_of_le (nestingItems_le_iff.mp (Nat.le_refl _) content hcontent)
  | @members fields members unknown _ _ hvalues hmembers _ =>
      obtain ⟨field, hfield, rfl⟩ := List.mem_map.mp (hvalues ▸ hcontent)
      have hmem : (some field.1, field.2) ∈ members := by
        rw [hmembers.mem_iff]
        exact List.mem_append_left _ (List.mem_map_of_mem hfield)
      rw [nesting, Nat.add_comm]
      exact Nat.lt_succ_of_le (nestingMembers_le_iff.mp (Nat.le_refl _) _ hmem)

theorem fields?_eq_some_iff {names : List String} (hnodup : names.Nodup) {j : Json}
    {values : List Json} : j.fields? names = some values ↔ HasFields names j values :=
  ⟨hasFields_of_fields?_eq_some hnodup, HasFields.fields?_eq_some hnodup⟩

end Json

end SchedulingLogic
