import Libbash.Lib.FirstChoice
import Libbash.Lib.Occurrences

/-!
# Sequences with wildcards

Expressions of a fixed width and loops over everything, one after the other. The first
match of such a sequence is the longest one when the loops are greedy, and the
shortest one when they are lazy (`firstChoices_wildcards`): the more a greedy loop
takes, the farther the rest of the sequence can get.
-/

namespace Lib

namespace Regex

variable {α : Type} [DecidableEq α]

/-- The expression takes a number of characters that is fixed. -/
def width : Regex α → Option Nat
  | any | set _ => some 1
  | text w => some w.length
  | _ => none

/-- A loop over everything, or an expression of a fixed width. -/
def IsWildcard (greedy : Bool) (r : Regex α) : Prop := r = star greedy any ∨ ∃ k, r.width = some k

/-- The outcomes of a sequence of expressions. -/
def runs (size : Nat) (rs : List (Regex α)) (s : Point α) : List (Point α) :=
  sequence (rs.map (run size)) s

/-- An expression of a fixed width has at most one outcome. -/
theorem run_width {size k : Nat} {r : Regex α} {s t : Point α} (hk : r.width = some k)
    (ht : t ∈ r.run size s) : t = ⟨s.rest.drop k, s.kept⟩ ∧ k ≤ s.rest.length := by
  cases r with
  | any =>
    cases hk
    unfold run at ht
    split at ht
    · cases ht
    · next a u hs =>
      rw [List.mem_singleton.mp ht, hs]
      exact ⟨rfl, by simp⟩
  | set p =>
    cases hk
    unfold run at ht
    split at ht
    · cases ht
    · next a u hs =>
      split_ifs at ht with hp
      · rw [List.mem_singleton.mp ht, hs]
        exact ⟨rfl, by simp⟩
      · cases ht
  | text w =>
    cases hk
    unfold run at ht
    split_ifs at ht with hprefix
    · rw [List.mem_singleton.mp ht]
      exact ⟨rfl, hprefix.length_le⟩
    · cases ht
  | seq _ _ | alt _ _ | optional _ _ | star _ _ | plus _ _ | bos | eos | mark _ => cases hk

omit [DecidableEq α] in
theorem drop_suffix_drop {v w : List α} (h : v <:+ w) (k : Nat) : v.drop k <:+ w.drop k := by
  refine List.suffix_of_suffix_length_le ((List.drop_suffix k v).trans h) (List.drop_suffix k w) ?_
  have hle := h.length_le
  rw [List.length_drop, List.length_drop]
  omega

section Wildcards

variable {size : Nat} {greedy : Bool} {rs : List (Regex α)} {s t t' u u' : Point α}

theorem mem_runs_cons {r : Regex α} :
    u ∈ runs size (r :: rs) s ↔ ∃ t ∈ r.run size s, u ∈ runs size rs t := List.mem_flatMap

/-- From a place that is farther on, the rest of the sequence gets as far, if it gets
anywhere. -/
theorem exists_farther (hrs : ∀ r ∈ rs, r.IsWildcard greedy) (hrest : t.rest <:+ t'.rest)
    (hkept : t.kept = t'.kept) (hu : u ∈ runs size rs t) (hu' : u' ∈ runs size rs t') :
    ∃ u₂ ∈ runs size rs t, u₂.rest.length ≤ u'.rest.length := by
  induction rs generalizing t t' with
  | nil =>
    rw [List.mem_singleton.mp hu']
    exact ⟨t, List.mem_singleton_self t, hrest.length_le⟩
  | cons r rs ih =>
    have hrest' : ∀ r ∈ rs, r.IsWildcard greedy := fun r hr => hrs r (List.mem_cons_of_mem _ hr)
    obtain ⟨t₁, ht₁, hu₁⟩ := mem_runs_cons.mp hu
    obtain ⟨t₂, ht₂, hu₂⟩ := mem_runs_cons.mp hu'
    rcases hrs r List.mem_cons_self with rfl | ⟨k, hk⟩
    · rw [mem_star_any] at ht₁ ht₂
      by_cases hfar : t₂.rest.length ≤ t.rest.length
      · -- the other place can be reached from here
        have hsuffix := List.suffix_of_suffix_length_le ht₂.1 hrest hfar
        exact ⟨u', mem_runs_cons.mpr
          ⟨t₂, mem_star_any.mpr ⟨hsuffix, ht₂.2.trans hkept.symm⟩, hu₂⟩, le_rfl⟩
      · have hsuffix := List.suffix_of_suffix_length_le (ht₁.1.trans hrest) ht₂.1
          (ht₁.1.length_le.trans (Nat.le_of_not_le hfar))
        obtain ⟨u₃, hu₃, hlen⟩ := ih hrest' hsuffix
          (ht₁.2.trans (hkept.trans ht₂.2.symm)) hu₁ hu₂
        exact ⟨u₃, mem_runs_cons.mpr ⟨t₁, mem_star_any.mpr ht₁, hu₃⟩, hlen⟩
    · obtain ⟨rfl, hlt⟩ := run_width hk ht₁
      obtain ⟨rfl, hlt'⟩ := run_width hk ht₂
      have hsuffix : (⟨t.rest.drop k, t.kept⟩ : Point α).rest <:+
          (⟨t'.rest.drop k, t'.kept⟩ : Point α).rest := drop_suffix_drop hrest k
      obtain ⟨u₃, hu₃, hlen⟩ := ih hrest' hsuffix hkept hu₁ hu₂
      exact ⟨u₃, mem_runs_cons.mpr ⟨_, ht₁, hu₃⟩, hlen⟩

/-- From a place that is not as far on, the rest of the sequence need not get
farther. -/
theorem exists_nearer (good : Point α → Bool) (hrs : ∀ r ∈ rs, r.IsWildcard greedy)
    (hrest : t'.rest <:+ t.rest) (hkept : t'.kept = t.kept) (hu : u ∈ runs size rs t)
    (hgood : good u = true) (hu' : u' ∈ runs size rs t') (hgood' : good u' = true) :
    ∃ u₂ ∈ runs size rs t, good u₂ = true ∧ u'.rest.length ≤ u₂.rest.length := by
  induction rs generalizing t t' with
  | nil =>
    have ht := List.mem_singleton.mp hu
    rw [List.mem_singleton.mp hu']
    exact ⟨u, hu, hgood, ht ▸ hrest.length_le⟩
  | cons r rs ih =>
    have hrest' : ∀ r ∈ rs, r.IsWildcard greedy := fun r hr => hrs r (List.mem_cons_of_mem _ hr)
    obtain ⟨t₁, ht₁, hu₁⟩ := mem_runs_cons.mp hu
    obtain ⟨t₂, ht₂, hu₂⟩ := mem_runs_cons.mp hu'
    rcases hrs r List.mem_cons_self with rfl | ⟨k, hk⟩
    · rw [mem_star_any] at ht₂
      have hreach : t₂ ∈ (star greedy any).run size t :=
        mem_star_any.mpr ⟨ht₂.1.trans hrest, ht₂.2.trans hkept⟩
      exact ⟨u', mem_runs_cons.mpr ⟨t₂, hreach, hu₂⟩, hgood', le_rfl⟩
    · obtain ⟨rfl, hlt⟩ := run_width hk ht₁
      obtain ⟨rfl, hlt'⟩ := run_width hk ht₂
      have hsuffix : (⟨t'.rest.drop k, t'.kept⟩ : Point α).rest <:+
          (⟨t.rest.drop k, t.kept⟩ : Point α).rest := drop_suffix_drop hrest k
      obtain ⟨u₃, hu₃, hgood₃, hlen⟩ := ih hrest' hsuffix hkept hu₁ hu₂
      exact ⟨u₃, mem_runs_cons.mpr ⟨_, ht₁, hu₃⟩, hgood₃, hlen⟩

/-- The first outcome takes at least as much, for greedy loops; at most as much, for
lazy ones. -/
def Extreme (greedy : Bool) (t t' : Point α) : Prop :=
  if greedy then t.rest.length ≤ t'.rest.length else t'.rest.length ≤ t.rest.length

/-- Whatever is asked of the rest, as long as less is no worse. -/
theorem firstChoices_wildcards {p : Nat → Bool} (hp : ∀ i j, i ≤ j → p j = true → p i = true)
    (hrs : ∀ r ∈ rs, r.IsWildcard greedy) (s : Point α) :
    FirstChoices (fun t : Point α => p t.rest.length) (Extreme greedy) (rs.map (run size)) s := by
  induction rs generalizing s with
  | nil => trivial
  | cons r rs ih =>
    have hrest : ∀ r ∈ rs, r.IsWildcard greedy := fun r hr => hrs r (List.mem_cons_of_mem _ hr)
    refine ⟨?_, fun t _ => ih hrest t⟩
    intro t ht u' hmem' hgood'
    obtain ⟨t', ht', hu'⟩ := List.mem_flatMap.mp hmem'
    obtain ⟨u, hu, hgood⟩ := List.any_eq_true.mp (any_of_chosen ht)
    have htmem := mem_of_chosen ht
    have hsame : ∃ u ∈ sequence (rs.map (run size)) t', p u.rest.length = true ∧
        Extreme greedy u u' := by
      refine ⟨u', hu', hgood', ?_⟩
      unfold Extreme
      split <;> exact le_rfl
    rcases hrs r List.mem_cons_self with rfl | ⟨k, hk⟩
    -- A star that took another part leaves the rest as far on as it can get from the chosen place.
    · have hviable : (sequence (rs.map (run size)) t').any (fun t => p t.rest.length) = true :=
        List.any_eq_true.mpr ⟨u', hu', hgood'⟩
      rcases rel_of_find (pairwise_star_any size greedy s) ht ht' hviable with rfl | hearlier
      · exact hsame
      · have hin := mem_star_any.mp htmem
        have hin' := mem_star_any.mp ht'
        cases greedy with
        | true =>
          have hsuffix := List.suffix_of_suffix_length_le hin.1 hin'.1 (Nat.le_of_lt hearlier)
          obtain ⟨u₂, hu₂, hlen⟩ :=
            exists_farther hrest hsuffix (hin.2.trans hin'.2.symm) hu hu'
          exact ⟨u₂, hu₂, hp _ _ hlen hgood', hlen⟩
        | false =>
          have hsuffix := List.suffix_of_suffix_length_le hin'.1 hin.1 (Nat.le_of_lt hearlier)
          obtain ⟨u₂, hu₂, hgood₂, hlen⟩ := exists_nearer (fun t => p t.rest.length)
            hrest hsuffix (hin'.2.trans hin.2.symm) hu hgood hu' hgood'
          exact ⟨u₂, hu₂, hgood₂, hlen⟩
    -- An expression of one width has one match at a place.
    · obtain rfl := (run_width hk htmem).1
      obtain rfl := (run_width hk ht').1
      exact hsame

end Wildcards

end Regex

end Lib
