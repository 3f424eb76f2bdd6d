import Libbash.Lib.Backtracking

/-!
# Replacing an occurrence

What replacing one occurrence of a language in a text means, when there are several:
the candidates and the order between them are parameters (`ReplacesBest`). Anchored
expressions are compared with it.

* **`replacesBest_suffix`** — the expression before the end of the text;
* **`keeps_shortest_suffix`** — a marked part, the expression and the end of the text;
* **`substitute_bos`** — the expression after the beginning of the text.
-/

namespace Lib

open Computability

variable {α : Type}

/-- A part of a text, with what is around it. -/
structure Occurrence (α : Type) where
  before : List α
  found : List α
  after : List α

namespace Occurrence

def InText (L : Language α) (v : List α) (o : Occurrence α) : Prop :=
  o.before ++ o.found ++ o.after = v ∧ o.found ∈ L

def IsPrefix (L : Language α) (v : List α) (o : Occurrence α) : Prop :=
  o.InText L v ∧ o.before = []

def IsSuffix (L : Language α) (v : List α) (o : Occurrence α) : Prop :=
  o.InText L v ∧ o.after = []

def Shorter (o o' : Occurrence α) : Prop := o.found.length ≤ o'.found.length

def Longer (o o' : Occurrence α) : Prop := o'.found.length ≤ o.found.length

/-- The occurrence begins before the other, or there and is not shorter. -/
def LeftmostLongest (o o' : Occurrence α) : Prop :=
  o.before.length < o'.before.length ∨
    o.before.length = o'.before.length ∧ o'.found.length ≤ o.found.length

end Occurrence

/-- The text with the best of the candidates replaced, or the text itself when there
is none. -/
def ReplacesBest (C : Occurrence α → Prop) (better : Occurrence α → Occurrence α → Prop)
    (w v out : List α) : Prop :=
  (∃ o, C o ∧ (∀ o', C o' → better o o') ∧ out = o.before ++ w ++ o.after) ∨
    ((∀ o, ¬C o) ∧ out = v)

namespace Regex

open Occurrence

variable [DecidableEq α] {r : Regex α} {L : Language α} {v w : List α}

/-! ## One place -/

/-- What the matches that start here leave. -/
def rests (size : Nat) (r : Regex α) (u : List α) : List (List α) :=
  (r.run size ⟨u, []⟩).map Point.rest

theorem mem_rests_iff (h : r.Plain) {size : Nat} {u rest : List α} :
    rest ∈ r.rests size u ↔ ∃ x ∈ r.lang, u = x ++ rest := by
  unfold rests
  rw [List.mem_map]
  constructor
  · rintro ⟨t, ht, rfl⟩
    obtain ⟨x, hx, hrest, -⟩ := (mem_run_iff h size _ t).mp ht
    exact ⟨x, hx, hrest⟩
  · rintro ⟨x, hx, hrest⟩
    exact ⟨⟨rest, []⟩, (mem_run_iff h size _ _).mpr ⟨x, hx, hrest, rfl⟩, rfl⟩

theorem matchAt_some {size : Nat} {notNull : Bool} {u rest : List α}
    (h : r.matchAt size notNull u = some rest) :
    rest ∈ r.rests size u ∧ (notNull = true → rest.length < u.length) := by
  refine ⟨List.mem_of_find?_eq_some h, ?_⟩
  rintro rfl
  have hfound := List.find?_some h
  simpa using hfound

theorem matchAt_none_iff {size : Nat} {notNull : Bool} {u : List α} :
    r.matchAt size notNull u = none ↔
      ∀ rest ∈ r.rests size u, notNull = true ∧ u.length ≤ rest.length := by
  unfold matchAt
  rw [List.find?_eq_none]
  refine forall₂_congr fun rest _ => ?_
  simp

theorem exists_match {size : Nat} {u rest : List α} (h : rest ∈ r.rests size u) :
    ∃ rest', r.matchAt size false u = some rest' := by
  cases hm : r.matchAt size false u with
  | some rest' => exact ⟨rest', rfl⟩
  | none =>
    have hnull := (matchAt_none_iff.mp hm rest h).1
    cases hnull

/-- At the end of the text there is no match that is not empty. -/
theorem matchAt_nil (size : Nat) (r : Regex α) : r.matchAt size true [] = none :=
  matchAt_none_iff.mpr fun _ _ => ⟨rfl, Nat.zero_le _⟩

theorem substituteFrom_nil {size n : Nat} {notNull once : Bool} (w : List α)
    (h : r.matchAt size notNull [] = none) : r.substituteFrom size w once n notNull [] = [] := by
  cases n with
  | zero => rfl
  | succ n => rw [substituteFrom_succ, h]

omit [DecidableEq α] in
/-- The first place in a text with a property. -/
theorem exists_leftmost (P : List α → Prop) (v : List α) :
    (∃ before u, v = before ++ u ∧ P u ∧ ∀ u', u' <:+ before → u' ≠ [] → ¬P (u' ++ u)) ∨
      ∀ u, u <:+ v → ¬P u := by
  induction v with
  | nil =>
    by_cases hP : P []
    · exact .inl ⟨[], [], rfl, hP, fun u' hu' hne => absurd (List.suffix_nil.mp hu') hne⟩
    · refine .inr fun u hu => ?_
      rwa [List.suffix_nil.mp hu]
  | cons a v ih =>
    by_cases hP : P (a :: v)
    · exact .inl ⟨[], a :: v, rfl, hP, fun u' hu' hne => absurd (List.suffix_nil.mp hu') hne⟩
    · rcases ih with ⟨before, u, rfl, hu, hfirst⟩ | hnone
      · refine .inl ⟨a :: before, u, rfl, hu, fun u' hu' hne => ?_⟩
        rcases List.suffix_cons_iff.mp hu' with rfl | hsuffix
        · exact hP
        · exact hfirst u' hsuffix hne
      · refine .inr fun u hu => ?_
        rcases List.suffix_cons_iff.mp hu with rfl | hsuffix
        · exact hP
        · exact hnone u hsuffix

/-! ## Everything -/

section Everything

omit [DecidableEq α] in
theorem mem_any_kstar (w : List α) : w ∈ (any : Regex α).lang∗ := by
  induction w with
  | nil => exact Language.nil_mem_kstar _
  | cons a w ih =>
    have ha : [a] ∈ (any : Regex α).lang := ⟨a, rfl⟩
    rw [← Language.one_add_self_mul_kstar_eq_kstar]
    exact (Language.mem_add _ _ _).mpr (.inr (Language.append_mem_mul ha ih))

theorem mem_star_any {size : Nat} {greedy : Bool} {s t : Point α} :
    t ∈ (star greedy any).run size s ↔ t.rest <:+ s.rest ∧ t.kept = s.kept := by
  rw [mem_run_iff (r := star greedy any) trivial]
  constructor
  · rintro ⟨w, -, hrest, hkept⟩
    exact ⟨⟨w, hrest.symm⟩, hkept⟩
  · rintro ⟨⟨w, hrest⟩, hkept⟩
    exact ⟨w, mem_any_kstar w, hrest.symm, hkept⟩

/-- The first outcome leaves less than the second, for a greedy loop; more, for a lazy
one. -/
def Earlier (greedy : Bool) (t t' : Point α) : Prop :=
  if greedy then t.rest.length < t'.rest.length else t'.rest.length < t.rest.length

theorem pairwise_loop_any (size : Nat) (greedy : Bool) {n : Nat} {s : Point α}
    (hn : s.rest.length ≤ n) : (loop (any.run size) greedy n s).Pairwise (Earlier greedy) := by
  induction n generalizing s with
  | zero => exact List.pairwise_singleton _ _
  | succ n ih =>
    cases hs : s.rest with
    | nil =>
      have hnone : (any : Regex α).run size s = [] := by
        unfold run
        rw [hs]
      rw [loop, hnone]
      cases greedy <;> exact List.pairwise_singleton _ _
    | cons a u =>
      have hone : (any : Regex α).run size s = [{ s with rest := u }] := by
        unfold run
        rw [hs]
      have hu : u.length ≤ n := by
        rw [hs] at hn
        exact Nat.le_of_succ_le_succ hn
      have hlt : u.length < s.rest.length := by
        rw [hs]
        exact Nat.lt_succ_self _
      have hless (t : Point α) (ht : t ∈ loop (any.run size) greedy n { s with rest := u }) :
          t.rest.length < s.rest.length := by
        have hreach := (mem_loop_iff (mem_run_iff (r := any) trivial size) greedy hu).mp ht
        exact Nat.lt_of_le_of_lt hreach.length_le hlt
      rw [loop, hone, List.flatMap_singleton, if_pos hlt]
      cases greedy with
      | true =>
        refine List.pairwise_append.mpr ⟨ih hu, List.pairwise_singleton _ _, ?_⟩
        intro t ht t' ht'
        rw [List.mem_singleton.mp ht']
        exact hless t ht
      | false => exact List.pairwise_cons.mpr ⟨hless, ih hu⟩

theorem pairwise_star_any (size : Nat) (greedy : Bool) (s : Point α) :
    ((star greedy any).run size s).Pairwise (Earlier greedy) :=
  pairwise_loop_any size greedy le_rfl

end Everything

/-! ## The end of the text -/

section End

theorem mem_rests_eos (h : r.Plain) {size : Nat} {u rest : List α} :
    rest ∈ (seq r eos).rests size u ↔ rest = [] ∧ u ∈ r.lang := by
  unfold rests
  rw [run, List.mem_map]
  constructor
  · rintro ⟨t, ht, rfl⟩
    obtain ⟨s, hs, hend⟩ := List.mem_flatMap.mp ht
    unfold run at hend
    split_ifs at hend with hempty
    · obtain rfl := List.mem_singleton.mp hend
      obtain ⟨x, hx, hrest, -⟩ := (mem_run_iff h size _ t).mp hs
      rw [hempty, List.append_nil] at hrest
      obtain rfl : u = x := hrest
      exact ⟨hempty, hx⟩
    · cases hend
  · rintro ⟨rfl, hu⟩
    refine ⟨⟨[], []⟩, List.mem_flatMap.mpr ⟨⟨[], []⟩, ?_, ?_⟩, rfl⟩
    · exact (mem_run_iff h size _ _).mpr ⟨u, hu, (List.append_nil u).symm, rfl⟩
    · simp [run]

theorem matchAt_eos_of_mem (h : r.Plain) {size : Nat} {u : List α} (hu : u ∈ r.lang) :
    (seq r eos).matchAt size false u = some [] := by
  have hmem : [] ∈ (seq r eos).rests size u := (mem_rests_eos h).mpr ⟨rfl, hu⟩
  obtain ⟨rest, hrest⟩ := exists_match hmem
  rw [hrest, ((mem_rests_eos h).mp (matchAt_some hrest).1).1]

theorem matchAt_eos_of_notMem (h : r.Plain) {size : Nat} {u : List α} (hu : u ∉ r.lang)
    (notNull : Bool) : (seq r eos).matchAt size notNull u = none :=
  matchAt_none_iff.mpr fun _ hrest => absurd ((mem_rests_eos h).mp hrest).2 hu

/-- The matches before the end of the text: the longest one, and an empty one after
it. -/
theorem substitute_eos (h : r.Plain) (w v : List α) :
    (∃ before u extra, v = before ++ u ∧ u ∈ r.lang ∧
        (∀ u', u' <:+ before → u' ≠ [] → u' ++ u ∉ r.lang) ∧
        (seq r eos).substitute w false v = before ++ w ++ extra ∧
        (u ≠ [] → [] ∈ r.lang → extra = w) ∧ (u = [] ∨ [] ∉ r.lang → extra = [])) ∨
      (∀ u, u <:+ v → u ∉ r.lang) ∧ (seq r eos).substitute w false v = v := by
  rcases exists_leftmost (· ∈ r.lang) v with ⟨before, u, rfl, hu, hfirst⟩ | hnone
  · left
    have hfuel : 2 * (before ++ u).length + 2 =
        before.length + (before.length + 2 * u.length + 1 + 1) := by
      rw [List.length_append]
      omega
    have hsub : (seq r eos).substitute w false (before ++ u) = before ++ (w ++
        (seq r eos).substituteFrom (before ++ u).length w false
          (before.length + 2 * u.length + 1) (!decide (0 < u.length)) []) := by
      unfold substitute
      rw [hfuel, substituteFrom_append before fun u' hu' hne =>
        matchAt_eos_of_notMem h (hfirst u' hu' hne) false,
        substituteFrom_of_match (matchAt_eos_of_mem h hu)]
      rfl
    refine ⟨before, u, _, rfl, hu, hfirst, hsub.trans (List.append_assoc _ _ _).symm, ?_, ?_⟩
    · intro hne hnil
      have hpos := List.length_pos_of_ne_nil hne
      rw [decide_eq_true hpos, Bool.not_true, substituteFrom_of_match (matchAt_eos_of_mem h hnil)]
      show w ++ substituteFrom _ _ _ _ _ true [] = w
      rw [substituteFrom_nil w (matchAt_nil _ _), List.append_nil]
    · rintro (rfl | hnil)
      · exact substituteFrom_nil w (matchAt_nil _ _)
      · exact substituteFrom_nil w (matchAt_eos_of_notMem h hnil _)
  · right
    refine ⟨hnone, substituteFrom_of_none (by omega) fun u' hu' notNull => ?_⟩
    exact matchAt_eos_of_notMem h (hnone u' hu') notNull

/-- The longest suffix is replaced, unless an empty match after it is replaced too. -/
theorem replacesBest_suffix (h : r.Plain) (w v : List α)
    (honce : w = [] ∨ [] ∉ r.lang ∨ ∀ u, u <:+ v → u ∈ r.lang → u = []) :
    ReplacesBest (IsSuffix r.lang v) Longer w v ((seq r eos).substitute w false v) := by
  rcases substitute_eos h w v with
    ⟨before, u, extra, rfl, hu, hfirst, hsub, hextra, hnone⟩ | ⟨hnone, hsub⟩
  · left
    refine ⟨⟨before, u, []⟩, ⟨⟨List.append_nil _, hu⟩, rfl⟩, ?_, ?_⟩
    · rintro ⟨before', u', after'⟩ ⟨⟨htext, hu'⟩, rfl⟩
      show u'.length ≤ u.length
      rw [List.append_nil] at htext
      by_contra hlong
      rcases List.append_eq_append_iff.mp htext with ⟨x, hx, rfl⟩ | ⟨x, rfl, hx⟩
      · refine hfirst x ⟨before', hx.symm⟩ ?_ hu'
        rintro rfl
        exact hlong le_rfl
      · apply hlong
        rw [hx, List.length_append]
        exact Nat.le_add_left _ _
    · have hnothing : extra = [] := by
        by_cases hne : u = []
        · exact hnone (.inl hne)
        · rcases honce with rfl | hnil | hall
          · by_cases hnil : [] ∈ r.lang
            · exact hextra hne hnil
            · exact hnone (.inr hnil)
          · exact hnone (.inr hnil)
          · exact absurd (hall u (List.suffix_append before u) hu) hne
      rw [hsub, hnothing]
  · refine .inr ⟨?_, hsub⟩
    rintro ⟨before, u, after⟩ ⟨⟨rfl, hu⟩, rfl⟩
    refine hnone u ?_ hu
    simp

/-- The longest suffix is replaced, and nothing else, exactly in these cases. -/
theorem replacesBest_suffix_iff (h : r.Plain) (w v : List α) :
    ReplacesBest (IsSuffix r.lang v) Longer w v ((seq r eos).substitute w false v) ↔
      w = [] ∨ [] ∉ r.lang ∨ ∀ u, u <:+ v → u ∈ r.lang → u = [] := by
  refine ⟨fun hbest => ?_, replacesBest_suffix h w v⟩
  by_contra hnot
  simp only [not_or, not_not] at hnot
  obtain ⟨hw, hnil, hsome⟩ := hnot
  refine hsome fun u₀ hsuffix hu₀ => ?_
  by_contra hne
  rcases substitute_eos h w v with ⟨before, u, extra, rfl, hu, hfirst, hsub, hextra, -⟩ | ⟨hnone, -⟩
  · have hu_ne : u ≠ [] := by
      rintro rfl
      refine hfirst u₀ ?_ hne (by rwa [List.append_nil])
      rwa [List.append_nil] at hsuffix
    rw [hsub, hextra hu_ne hnil] at hbest
    have hcandidate : IsSuffix r.lang (before ++ u) ⟨before, u, []⟩ :=
      ⟨⟨List.append_nil _, hu⟩, rfl⟩
    rcases hbest with ⟨o, ⟨⟨htext, -⟩, hafter⟩, hall, hout⟩ | ⟨hnone, -⟩
    · -- the replacement stands there twice, which makes the text too long
      have hlong : u.length ≤ o.found.length := hall _ hcandidate
      have hpos := List.length_pos_of_ne_nil hw
      rw [hafter, List.append_nil] at htext hout
      have hlen := congrArg List.length htext
      have hlen' := congrArg List.length hout
      simp only [List.length_append] at hlen hlen'
      omega
    · exact hnone _ hcandidate
  · exact hnone u₀ hsuffix hu₀

/-! ### A part that is kept -/

/-- Everything up to a suffix, which is kept. -/
def untilSuffix (r : Regex α) : Regex α := seq (seq (seq bos (mark (star true any))) r) eos

theorem find_end_some (h : r.Plain) {size : Nat} {s t : Point α}
    (ht : ((seq r eos).run size s).find? (fun t => t.rest.isEmpty) = some t) :
    s.rest ∈ r.lang ∧ t.kept = s.kept := by
  obtain ⟨u, hu, hend⟩ := List.mem_flatMap.mp (List.mem_of_find?_eq_some ht)
  unfold run at hend
  split_ifs at hend with hempty
  · obtain rfl := List.mem_singleton.mp hend
    obtain ⟨x, hx, hrest, hkept⟩ := (mem_run_iff h size s t).mp hu
    rw [hempty, List.append_nil] at hrest
    exact ⟨hrest ▸ hx, hkept⟩
  · cases hend

theorem find_end_none (h : r.Plain) {size : Nat} {s : Point α}
    (ht : ((seq r eos).run size s).find? (fun t => t.rest.isEmpty) = none) : s.rest ∉ r.lang := by
  intro hs
  have hmem : (⟨[], s.kept⟩ : Point α) ∈ (seq r eos).run size s := by
    refine List.mem_flatMap.mpr ⟨⟨[], s.kept⟩, ?_, ?_⟩
    · exact (mem_run_iff h size _ _).mpr ⟨s.rest, hs, (List.append_nil _).symm, rfl⟩
    · simp [run]
  have hfalse := List.find?_eq_none.mp ht _ hmem
  simp at hfalse

theorem run_untilSuffix (r : Regex α) (v : List α) :
    r.untilSuffix.run v.length ⟨v, []⟩ =
      (((star true any).run v.length ⟨v, []⟩).map fun t =>
        { t with kept := v.take (v.length - t.rest.length) }).flatMap
          ((seq r eos).run v.length) := by
  have hbos : (bos : Regex α).run v.length ⟨v, []⟩ = [⟨v, []⟩] := if_pos rfl
  show ((((bos : Regex α).run v.length ⟨v, []⟩).flatMap _).flatMap _).flatMap _ = _
  rw [hbos, List.flatMap_singleton, List.flatMap_assoc]
  rfl

/-- What is kept before a suffix is followed by the shortest one. -/
theorem replacesBest_untilSuffix (h : r.Plain) (v : List α) :
    ReplacesBest (IsSuffix r.lang v) Shorter [] v
      (((r.untilSuffix.matchWhole v).map Point.kept).getD v) := by
  have hmem (u : List α) (hu : u <:+ v) :
      (⟨u, []⟩ : Point α) ∈ (star true any).run v.length ⟨v, []⟩ :=
    mem_star_any.mpr ⟨hu, rfl⟩
  have hsorted := pairwise_star_any v.length true (⟨v, []⟩ : Point α)
  unfold matchWhole
  rw [run_untilSuffix, List.flatMap_map, List.find?_flatMap]
  cases hfind : ((star true any).run v.length ⟨v, []⟩).findSome? fun t =>
      ((seq r eos).run v.length
        { t with kept := v.take (v.length - t.rest.length) }).find? fun t => t.rest.isEmpty with
  | none =>
    refine .inr ⟨?_, rfl⟩
    rintro ⟨before, u, after⟩ ⟨⟨rfl, hu⟩, rfl⟩
    have hsuffix : u <:+ before ++ u ++ [] := by simp
    exact find_end_none h (List.findSome?_eq_none_iff.mp hfind _ (hmem u hsuffix)) hu
  | some t =>
    left
    obtain ⟨l, s, l', hl, hs, hbefore⟩ := List.findSome?_eq_some_iff.mp hfind
    obtain ⟨hword, hkept⟩ := find_end_some h hs
    have hsmem : s ∈ (star true any).run v.length ⟨v, []⟩ := by
      rw [hl]
      simp
    obtain ⟨before, hv⟩ := (mem_star_any.mp hsmem).1
    obtain rfl : before ++ s.rest = v := hv
    have hkeep : t.kept = before := by
      rw [hkept]
      simp
    refine ⟨⟨before, s.rest, []⟩, ⟨⟨List.append_nil _, hword⟩, rfl⟩, ?_, ?_⟩
    · rintro ⟨before', u, after'⟩ ⟨⟨htext, hu⟩, rfl⟩
      show s.rest.length ≤ u.length
      -- a shorter suffix would have been tried before
      have hsuffix : u <:+ before ++ s.rest := ⟨before', by rwa [List.append_nil] at htext⟩
      have hcandidate := hmem u hsuffix
      rw [hl] at hcandidate hsorted
      rcases List.mem_append.mp hcandidate with hin | hin
      · exact absurd hu (find_end_none h (hbefore _ hin))
      · rcases List.mem_cons.mp hin with heq | hlater
        · rw [← heq]
        · have hlt : s.rest.length < u.length :=
            List.rel_of_pairwise_cons (List.pairwise_append.mp hsorted).2.1 hlater
          exact le_of_lt hlt
    · show t.kept = before ++ [] ++ []
      rw [hkeep, List.append_nil, List.append_nil]

end End

/-! ## The beginning of the text -/

section Beginning

theorem matchAt_bos (size : Nat) (r : Regex α) (notNull : Bool) (u : List α) :
    (seq bos r).matchAt size notNull u =
      if u.length = size then r.matchAt size notNull u else none := by
  unfold matchAt
  rw [run, run]
  dsimp only
  by_cases hu : u.length = size
  · rw [if_pos hu, if_pos hu, List.flatMap_singleton]
  · rw [if_neg hu, if_neg hu]
    rfl

theorem matchAt_bos_of_lt {size : Nat} {u : List α} (hu : u.length < size) (notNull : Bool) :
    (seq bos r).matchAt size notNull u = none := by
  rw [matchAt_bos, if_neg (Nat.ne_of_lt hu)]

/-- Behind the beginning of the text nothing is replaced any more. -/
theorem substituteFrom_bos {size n : Nat} {notNull once : Bool} {u : List α} (hu : u.length < size)
    (hn : u.length < n) : (seq bos r).substituteFrom size w once n notNull u = u := by
  refine substituteFrom_of_none hn fun u' hu' notNull => ?_
  exact matchAt_bos_of_lt (Nat.lt_of_le_of_lt hu'.length_le hu) notNull

/-- The second match, which may not be empty, of an expression that has matched
nothing. -/
theorem substituteFrom_bos_again (w v : List α) {n : Nat} (hn : v.length < n) :
    (seq bos r).substituteFrom v.length w false n true v =
      match r.matchAt v.length true v with
      | none => v
      | some rest => w ++ rest := by
  obtain ⟨n, rfl⟩ : ∃ m, n = m + 1 := ⟨n - 1, by omega⟩
  have hmatch := matchAt_bos v.length r true v
  rw [if_pos rfl] at hmatch
  rw [substituteFrom_succ, hmatch]
  cases hm : r.matchAt v.length true v with
  | some rest =>
    have hlt := (matchAt_some hm).2 rfl
    dsimp only
    rw [substituteFrom_bos hlt (by omega)]
    rfl
  | none =>
    cases v with
    | nil => rfl
    | cons a u =>
      have hlt : u.length < (a :: u).length := Nat.lt_succ_self _
      dsimp only
      rw [substituteFrom_bos hlt (Nat.lt_of_succ_lt_succ hn)]

theorem substitute_bos (h : r.Plain) (w v : List α) :
    (seq bos r).substitute w false v =
      match r.matchAt v.length false v with
      | none => v
      | some rest =>
        if rest.length < v.length then w ++ rest
        else
          w ++ match r.matchAt v.length true v with
            | none => v
            | some rest => w ++ rest := by
  have hmatch := matchAt_bos v.length r false v
  rw [if_pos rfl] at hmatch
  unfold substitute
  cases hm : r.matchAt v.length false v with
  | some rest =>
    rw [hm] at hmatch
    rw [substituteFrom_of_match hmatch, if_neg Bool.false_ne_true]
    dsimp only
    by_cases hlt : rest.length < v.length
    · rw [if_pos hlt, substituteFrom_bos hlt (by omega)]
    -- The match is empty, and the loop tries again at the same place.
    · obtain ⟨x, -, hx⟩ := (mem_rests_iff h).mp (matchAt_some hm).1
      have hrest : rest = v := by
        have hlen : x = [] := by
          apply List.eq_nil_of_length_eq_zero
          rw [hx, List.length_append] at hlt
          omega
        rw [hx, hlen, List.nil_append]
      subst hrest
      rw [if_neg hlt, decide_eq_false hlt, Bool.not_false,
        substituteFrom_bos_again w rest (by omega)]
  | none =>
    rw [hm] at hmatch
    rw [substituteFrom_succ, hmatch]
    cases v with
    | nil => rfl
    | cons a u =>
      have hlt : u.length < (a :: u).length := Nat.lt_succ_self _
      dsimp only
      rw [substituteFrom_bos hlt (by omega)]

/-- What is removed at the beginning is the first match that is not empty. -/
theorem substitute_bos_nil (h : r.Plain) (v : List α) :
    (seq bos r).substitute [] false v = (r.matchAt v.length true v).getD v := by
  rw [substitute_bos h]
  have hagain : (match r.matchAt v.length true v with
      | none => v
      | some rest => [] ++ rest) = (r.matchAt v.length true v).getD v := by
    cases r.matchAt v.length true v <;> rfl
  cases hm : r.matchAt v.length false v with
  | none =>
    have hnone : r.matchAt v.length true v = none := by
      rw [matchAt_none_iff] at hm ⊢
      intro rest hrest
      have hfalse := (hm rest hrest).1
      cases hfalse
    rw [hnone]
    rfl
  | some rest =>
    dsimp only
    by_cases hlt : rest.length < v.length
    · have hsame : r.matchAt v.length true v = some rest := by
        unfold matchAt at hm ⊢
        obtain ⟨-, before, after, hl, hbefore⟩ := List.find?_eq_some_iff_append.mp hm
        refine List.find?_eq_some_iff_append.mpr ⟨by simpa using hlt, before, after, hl, ?_⟩
        intro a ha
        have hfalse := hbefore a ha
        cases hfalse
      rw [if_pos hlt, hsame]
      rfl
    · rw [if_neg hlt, hagain]
      rfl

/-- The longest prefix is replaced, where the first match is the longest one. -/
theorem replacesBest_prefix (h : r.Plain) (w v : List α)
    (hlongest : ∀ rest, r.matchAt v.length false v = some rest →
      ∀ x ∈ r.lang, ∀ rest', v = x ++ rest' → rest.length ≤ rest'.length) :
    ReplacesBest (IsPrefix r.lang v) Longer w v ((seq bos r).substitute w false v) := by
  rw [substitute_bos h]
  cases hm : r.matchAt v.length false v with
  | none =>
    refine .inr ⟨?_, rfl⟩
    rintro ⟨before, x, rest⟩ ⟨⟨htext, hx⟩, rfl⟩
    have hmem : rest ∈ r.rests v.length v := (mem_rests_iff h).mpr ⟨x, hx, htext.symm⟩
    have hfalse := (matchAt_none_iff.mp hm rest hmem).1
    cases hfalse
  | some rest =>
    left
    obtain ⟨x, hx, hv⟩ := (mem_rests_iff h).mp (matchAt_some hm).1
    have hlen := congrArg List.length hv
    rw [List.length_append] at hlen
    refine ⟨⟨[], x, rest⟩, ⟨⟨hv.symm, hx⟩, rfl⟩, ?_, ?_⟩
    · rintro ⟨before, x', rest'⟩ ⟨⟨htext, hx'⟩, rfl⟩
      have hle := hlongest rest hm x' hx' rest' htext.symm
      have hlen' := congrArg List.length htext
      simp only [List.nil_append, List.length_append] at hlen'
      show x'.length ≤ x.length
      omega
    · dsimp only
      split_ifs with hlt
      · rfl
      · -- the match is empty, and no longer one follows
        have hx' : x = [] := List.eq_nil_of_length_eq_zero (by omega)
        have hnone : r.matchAt v.length true v = none := by
          refine matchAt_none_iff.mpr fun rest' hrest' => ⟨rfl, ?_⟩
          obtain ⟨x', hx', hv'⟩ := (mem_rests_iff h).mp hrest'
          have hle := hlongest rest hm x' hx' rest' hv'
          omega
        rw [hx', List.nil_append] at hv
        rw [hnone, hv]
        rfl

end Beginning

/-! ## Anywhere in the text -/

section Anywhere

omit [DecidableEq α] in
/-- An occurrence that begins before a part of the text begins inside of what stands
before it. -/
theorem exists_before {before u : List α} {o : Occurrence α}
    (htext : o.before ++ o.found ++ o.after = before ++ u)
    (hlt : o.before.length < before.length) :
    ∃ y, y <:+ before ∧ y ≠ [] ∧ y ++ u = o.found ++ o.after := by
  rw [List.append_assoc] at htext
  rcases List.append_eq_append_iff.mp htext with ⟨y, hy, hu⟩ | ⟨y, hy, -⟩
  · refine ⟨y, ⟨o.before, hy.symm⟩, ?_, hu.symm⟩
    rintro rfl
    rw [hy, List.append_nil] at hlt
    exact Nat.lt_irrefl _ hlt
  · rw [hy, List.length_append] at hlt
    omega

/-- The first replacement is that of the leftmost and longest occurrence, where the
first match at a place is the longest one. -/
theorem replacesBest_first (h : r.Plain) (w v : List α)
    (hlongest : ∀ u rest, r.matchAt v.length false u = some rest →
      ∀ x ∈ r.lang, ∀ rest', u = x ++ rest' → rest.length ≤ rest'.length) :
    ReplacesBest (InText r.lang v) LeftmostLongest w v (r.substitute w true v) := by
  have hnone (u : List α) (hu : ¬∃ x ∈ r.lang, x <+: u) (notNull : Bool) :
      r.matchAt v.length notNull u = none := by
    rw [matchAt_none_iff]
    intro rest hrest
    obtain ⟨x, hx, rfl⟩ := (mem_rests_iff h).mp hrest
    exact absurd ⟨x, hx, List.prefix_append x rest⟩ hu
  rcases exists_leftmost (fun u => ∃ x ∈ r.lang, x <+: u) v with
    ⟨before, u, hv, ⟨x₀, hx₀, rest₀, hrest₀⟩, hfirst⟩ | hall
  · left
    have hmem : rest₀ ∈ r.rests v.length u := (mem_rests_iff h).mpr ⟨x₀, hx₀, hrest₀.symm⟩
    obtain ⟨rest, hmatch⟩ := exists_match hmem
    obtain ⟨x, hx, hu⟩ := (mem_rests_iff h).mp (matchAt_some hmatch).1
    refine ⟨⟨before, x, rest⟩, ⟨?_, hx⟩, ?_, ?_⟩
    · show before ++ x ++ rest = v
      rw [hv, hu, List.append_assoc]
    · rintro o' ⟨htext, hfound⟩
      rw [hv] at htext
      -- An occurrence more to the left would be a match before the first one.
      by_cases hlt : o'.before.length < before.length
      · obtain ⟨y, hy, hne, hyu⟩ := exists_before htext hlt
        refine absurd ⟨o'.found, hfound, ?_⟩ (hfirst y hy hne)
        rw [hyu]
        exact List.prefix_append _ _
      · rcases Nat.lt_or_eq_of_le (Nat.le_of_not_lt hlt) with hgt | heq
        · exact .inl hgt
        · refine .inr ⟨heq, ?_⟩
          rw [List.append_assoc] at htext
          have hrest := (List.append_inj htext heq.symm).2
          have hlong := hlongest u rest hmatch o'.found hfound o'.after hrest.symm
          have hlen := congrArg List.length (hu.symm.trans hrest.symm)
          rw [List.length_append, List.length_append] at hlen
          show o'.found.length ≤ x.length
          omega
    · show r.substitute w true v = before ++ w ++ rest
      have hfuel : 2 * v.length + 2 = before.length + (before.length + 2 * u.length + 1 + 1) := by
        rw [hv, List.length_append]
        omega
      -- What stands before the first match is copied.
      have happend : r.substituteFrom v.length w true
          (before.length + (before.length + 2 * u.length + 1 + 1)) false (before ++ u) =
            before ++ r.substituteFrom v.length w true
              (before.length + 2 * u.length + 1 + 1) false u :=
        substituteFrom_append before fun u' hu' hne => hnone _ (hfirst u' hu' hne) false
      unfold substitute
      rw [hfuel, List.append_assoc]
      nth_rewrite 2 [hv]
      rw [happend, substituteFrom_of_match hmatch, if_pos rfl]
  · refine .inr ⟨?_, substituteFrom_of_none (by omega) fun u' hu' notNull =>
      hnone u' (hall u' hu') notNull⟩
    rintro o ⟨htext, hfound⟩
    refine hall (o.found ++ o.after) ⟨o.before, ?_⟩ ⟨o.found, hfound, List.prefix_append _ _⟩
    rw [← htext, List.append_assoc]

end Anywhere

end Regex

end Lib
