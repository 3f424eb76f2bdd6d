import Mathlib.Data.List.Basic

/-!
# The first of many outcomes

A step has a list of outcomes, in the order in which they are tried; what comes after
it tries on from each of them, depth first. A choice decides well (`Decides`) when the
outcome that is taken, the first one from which the rest can still succeed, leads at
least as far as the others.

* **`decides_append`** — a choice between two steps;
* **`decides_flatMap`** — a step after another one;
* **`firstIsBest_iff`** — the first good outcome of a sequence of steps is the best one
  when every step decides well.
-/

namespace Lib

variable {σ : Type}

/-- The outcomes of steps one after the other. -/
def sequence : List (σ → List σ) → σ → List σ
  | [], s => [s]
  | m :: ms, s => (m s).flatMap (sequence ms)

section FirstChoice

variable (good : σ → Bool) (better : σ → σ → Prop)

/-- The outcome from which the rest `k` goes on: the first one from which it has a good
outcome. -/
def chosen (k : σ → List σ) (ts : List σ) : Option σ := ts.find? fun t => (k t).any good

/-- Nothing good is better than everything good here. -/
def NoBetter (us' us : List σ) : Prop :=
  ∀ u' ∈ us', good u' = true → ∃ u ∈ us, good u = true ∧ better u u'

/-- What is chosen leads at least as far as the other outcomes. -/
def Decides (k : σ → List σ) (ts : List σ) : Prop :=
  ∀ t, chosen good k ts = some t → NoBetter good better (ts.flatMap k) (k t)

/-- The first good outcome is as good as any other. -/
def FirstIsBest (ts : List σ) : Prop :=
  ∀ t, ts.find? good = some t → ∀ t' ∈ ts, good t' = true → better t t'

/-- Every step of a sequence decides well. -/
def FirstChoices : List (σ → List σ) → σ → Prop
  | [], _ => True
  | m :: ms, s =>
    Decides good better (sequence ms) (m s) ∧
      ∀ t, chosen good (sequence ms) (m s) = some t → FirstChoices ms t

variable {good better}

theorem find_of_any {l : List σ} (h : l.any good = true) : ∃ t, l.find? good = some t := by
  obtain ⟨t, ht, hgood⟩ := List.any_eq_true.mp h
  exact Option.isSome_iff_exists.mp (List.find?_isSome.mpr ⟨t, ht, hgood⟩)

theorem any_flatMap {ts : List σ} {k : σ → List σ} :
    (ts.flatMap k).any good = ts.any fun t => (k t).any good := by
  induction ts with
  | nil => rfl
  | cons t ts ih => rw [List.flatMap_cons, List.any_append, List.any_cons, ih]

theorem mem_of_chosen {k : σ → List σ} {ts : List σ} {t : σ} (h : chosen good k ts = some t) :
    t ∈ ts := List.mem_of_find?_eq_some h

theorem any_of_chosen {k : σ → List σ} {ts : List σ} {t : σ} (h : chosen good k ts = some t) :
    (k t).any good = true := (List.find?_eq_some_iff_append.mp h).1

theorem chosen_of_any {k : σ → List σ} {ts : List σ} (h : (ts.flatMap k).any good = true) :
    ∃ t, chosen good k ts = some t := by
  rw [any_flatMap] at h
  exact find_of_any h

/-- What is chosen of the outcomes of two steps. -/
theorem chosen_flatMap {f k : σ → List σ} {ts : List σ} {u : σ} :
    chosen good k (ts.flatMap f) = some u ↔
      ∃ t, chosen good (fun t => (f t).flatMap k) ts = some t ∧ chosen good k (f t) = some u := by
  unfold chosen
  rw [List.find?_flatMap, List.findSome?_eq_some_iff]
  constructor
  · rintro ⟨l, t, l', hl, ht, hbefore⟩
    refine ⟨t, ?_, ht⟩
    rw [List.find?_eq_some_iff_append]
    refine ⟨?_, l, l', hl, fun a ha => ?_⟩
    · rw [any_flatMap]
      exact List.any_eq_true.mpr ⟨u, List.mem_of_find?_eq_some ht,
        (List.find?_eq_some_iff_append.mp ht).1⟩
    · have hnone := List.find?_eq_none.mp (hbefore a ha)
      rw [any_flatMap, Bool.not_eq_true', List.any_eq_false]
      exact hnone
  · rintro ⟨t, ht, hu⟩
    obtain ⟨-, l, l', hl, hbefore⟩ := List.find?_eq_some_iff_append.mp ht
    refine ⟨l, t, l', hl, hu, fun a ha => List.find?_eq_none.mpr ?_⟩
    have hnone := hbefore a ha
    rwa [any_flatMap, Bool.not_eq_true', List.any_eq_false] at hnone

theorem NoBetter.mono {us us' us'' : List σ} (h : NoBetter good better us' us)
    (hsub : us'' ⊆ us') : NoBetter good better us'' us := fun u' hu' => h u' (hsub hu')

theorem NoBetter.trans (htrans : ∀ t t' t'', better t t' → better t' t'' → better t t'')
    {us us' us'' : List σ} (h : NoBetter good better us' us)
    (h' : NoBetter good better us'' us') : NoBetter good better us'' us := by
  intro u'' hu'' hgood
  obtain ⟨u', hu', hgood', hbetter'⟩ := h' u'' hu'' hgood
  obtain ⟨u, hu, hgood, hbetter⟩ := h u' hu' hgood'
  exact ⟨u, hu, hgood, htrans u u' u'' hbetter hbetter'⟩

theorem noBetter_self (hrefl : ∀ t, better t t) (us : List σ) : NoBetter good better us us :=
  fun u hu hgood => ⟨u, hu, hgood, hrefl u⟩

theorem decides_nil (k : σ → List σ) : Decides good better k [] := by
  rintro t ht
  cases ht

theorem decides_singleton (hrefl : ∀ t, better t t) (k : σ → List σ) (s : σ) :
    Decides good better k [s] := by
  intro t ht
  rw [List.mem_singleton.mp (mem_of_chosen ht), List.flatMap_singleton]
  exact noBetter_self hrefl (k s)

theorem decides_append (htrans : ∀ t t' t'', better t t' → better t' t'' → better t t'')
    (k : σ → List σ) (ts ts' : List σ) :
    Decides good better k (ts ++ ts') ↔
      if (ts.flatMap k).any good then
        Decides good better k ts ∧ NoBetter good better (ts'.flatMap k) (ts.flatMap k)
      else Decides good better k ts' := by
  have hchosen : chosen good k (ts ++ ts') = (chosen good k ts).or (chosen good k ts') :=
    List.find?_append
  split
  -- A choice of the first list decides, and none of the second may be better.
  · next hany =>
    obtain ⟨t, ht⟩ := chosen_of_any hany
    rw [ht, Option.some_or] at hchosen
    have hmem := mem_of_chosen ht
    have hin : k t ⊆ ts.flatMap k := fun u hu => List.mem_flatMap.mpr ⟨t, hmem, hu⟩
    constructor
    · intro h
      have hall := h t hchosen
      rw [List.flatMap_append] at hall
      refine ⟨fun t' ht' => ?_, ?_⟩
      · obtain rfl : t = t' := Option.some.inj (ht.symm.trans ht')
        exact hall.mono (List.subset_append_left _ _)
      · intro u' hu' hgood
        obtain ⟨u, hu, hbest⟩ := hall u' (List.mem_append_right _ hu') hgood
        exact ⟨u, hin hu, hbest⟩
    · rintro ⟨hfirst, hsecond⟩ t' ht'
      obtain rfl : t = t' := Option.some.inj (hchosen.symm.trans ht')
      rw [List.flatMap_append]
      intro u' hu' hgood
      rcases List.mem_append.mp hu' with hin' | hin'
      · exact hfirst t ht u' hin' hgood
      · exact (hfirst t ht).trans htrans hsecond u' hin' hgood
  · next hany =>
    have hnone : chosen good k ts = none := by
      rw [Bool.not_eq_true, any_flatMap, List.any_eq_false] at hany
      exact List.find?_eq_none.mpr hany
    rw [hnone, Option.none_or] at hchosen
    unfold Decides
    rw [hchosen]
    refine forall₂_congr fun t ht => ?_
    rw [List.flatMap_append]
    constructor
    · exact fun h => h.mono (List.subset_append_right _ _)
    · intro h u' hu' hgood
      rcases List.mem_append.mp hu' with hin' | hin'
      · exact absurd (List.any_eq_true.mpr ⟨u', hin', hgood⟩) hany
      · exact h u' hin' hgood

theorem decides_flatMap (htrans : ∀ t t' t'', better t t' → better t' t'' → better t t'')
    (f k : σ → List σ) (ts : List σ) :
    Decides good better k (ts.flatMap f) ↔
      Decides good better (fun t => (f t).flatMap k) ts ∧
        ∀ t, chosen good (fun t => (f t).flatMap k) ts = some t → Decides good better k (f t) := by
  unfold Decides
  rw [List.flatMap_assoc]
  constructor
  · intro h
    constructor
    · intro t ht u' hu' hgood
      obtain ⟨u, hu⟩ := chosen_of_any (any_of_chosen ht)
      obtain ⟨v, hv, hbest⟩ := h u (chosen_flatMap.mpr ⟨t, ht, hu⟩) u' hu' hgood
      exact ⟨v, List.mem_flatMap.mpr ⟨u, mem_of_chosen hu, hv⟩, hbest⟩
    · intro t ht u hu
      refine (h u (chosen_flatMap.mpr ⟨t, ht, hu⟩)).mono fun v hv => ?_
      exact List.mem_flatMap.mpr ⟨t, mem_of_chosen ht, hv⟩
  · rintro ⟨hfirst, hrest⟩ u hu
    obtain ⟨t, ht, htu⟩ := chosen_flatMap.mp hu
    exact (hrest t ht u htu).trans htrans (hfirst t ht)

/-- A choice with nothing after it. -/
theorem decides_pure {ts : List σ} :
    Decides good better (fun t => [t]) ts ↔ FirstIsBest good better ts := by
  have hchosen : chosen good (fun t => [t]) ts = ts.find? good := by
    unfold chosen
    congr 1
    funext t
    exact List.any_cons.trans (Bool.or_false _)
  unfold Decides FirstIsBest
  rw [hchosen]
  refine forall₂_congr fun t ht => ?_
  have hgood : good t = true := (List.find?_eq_some_iff_append.mp ht).1
  constructor
  · intro h t' ht' hgood'
    obtain ⟨u, hu, -, hbetter⟩ := h t' (List.mem_flatMap.mpr ⟨t', ht', List.mem_singleton_self t'⟩)
      hgood'
    rwa [List.mem_singleton.mp hu] at hbetter
  · intro h u' hu' hgood'
    obtain ⟨t', ht', hu'⟩ := List.mem_flatMap.mp hu'
    obtain rfl := List.mem_singleton.mp hu'
    exact ⟨t, List.mem_singleton_self t, hgood, h u' ht' hgood'⟩

theorem firstIsBest_iff (hrefl : ∀ t, better t t)
    (htrans : ∀ t t' t'', better t t' → better t' t'' → better t t'')
    (ms : List (σ → List σ)) (s : σ) :
    FirstIsBest good better (sequence ms s) ↔ FirstChoices good better ms s := by
  rw [← decides_pure]
  induction ms generalizing s with
  | nil => exact iff_of_true (decides_singleton hrefl _ s) trivial
  | cons m ms ih =>
    have hpure (t : σ) : (sequence ms t).flatMap (fun t => [t]) = sequence ms t :=
      List.flatMap_singleton' _
    rw [sequence, decides_flatMap htrans, FirstChoices]
    simp only [hpure]
    exact and_congr_right fun _ => forall₂_congr fun t _ => ih t

/-- In an ordered list the first element with a property comes before the others. -/
theorem rel_of_find {R : σ → σ → Prop} {p : σ → Bool} {l : List σ} {t t' : σ}
    (hl : l.Pairwise R) (ht : l.find? p = some t) (ht' : t' ∈ l) (hp : p t' = true) :
    t' = t ∨ R t t' := by
  obtain ⟨-, before, after, rfl, hbefore⟩ := List.find?_eq_some_iff_append.mp ht
  rcases List.mem_append.mp ht' with hin | hin
  · have hnot := hbefore t' hin
    rw [hp] at hnot
    cases hnot
  · rcases List.mem_cons.mp hin with heq | hlater
    · exact .inl heq
    · exact .inr (List.rel_of_pairwise_cons (List.pairwise_append.mp hl).2.1 hlater)

end FirstChoice

end Lib
