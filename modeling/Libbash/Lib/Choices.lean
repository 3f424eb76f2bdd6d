import Libbash.Lib.Occurrences
import Libbash.Lib.Wildcards

/-!
# Choices in an expression

Where a backtracking matcher chooses: between two alternatives, and at a quantifier
between another repetition and none. `ChoosesWell` asks of every choice that is made
that what is tried first, when it can succeed, leads at least as far as what would be
tried after it.

* **`choosesWell_iff`** — the first match is the best one when every choice is made
  well;
* **`replacesBest_longest_iff`**, **`replacesBest_shortest_iff`** — the prefix that is
  removed by a greedy expression is the longest one, and by a lazy one the shortest,
  exactly when its choices are made well;
* **`firstIsBest_wildcards`** — in a sequence with wildcards the first match is the best
  one.
-/

namespace Lib

namespace Regex

variable {α : Type}

section Choices

variable (good : Point α → Bool) (better : Point α → Point α → Prop)

/-- A choice between two ways to go on, with the outcomes of both; `P` and `P'` say that
the choices within each of them are made well. -/
def EitherWell (us us' : List (Point α)) (P P' : Prop) : Prop :=
  if us.any good then P ∧ NoBetter good better us' us else P'

/-- A choice between another repetition and none. -/
def RepeatWell (greedy : Bool) (again stop : List (Point α)) (P : Prop) : Prop :=
  if greedy then EitherWell good better again stop P True
  else EitherWell good better stop again True P

/-- The choices of a repetition before the rest `k`; `well` says that those of an
iteration are made well. -/
def LoopWell (m : Point α → List (Point α))
    (well : (Point α → List (Point α)) → Point α → Prop) (greedy : Bool)
    (k : Point α → List (Point α)) : Nat → Point α → Prop
  | 0, _ => True
  | n + 1, s =>
    let next t := if t.rest.length < s.rest.length then loop m greedy n t else [t]
    RepeatWell good better greedy (((m s).flatMap next).flatMap k) (k s)
      (well (fun t => (next t).flatMap k) s ∧
        ∀ t, chosen good (fun t => (next t).flatMap k) (m s) = some t →
          t.rest.length < s.rest.length → LoopWell m well greedy k n t)

variable [DecidableEq α] (size : Nat)

/-- The choices of an expression before the rest `k` are made well. -/
def ChoosesWell : Regex α → (Point α → List (Point α)) → Point α → Prop
  | any, _, _ | set _, _, _ | text _, _, _ | bos, _, _ | eos, _, _ => True
  | seq r q, k, s =>
    r.ChoosesWell (fun t => (q.run size t).flatMap k) s ∧
      ∀ t, chosen good (fun t => (q.run size t).flatMap k) (r.run size s) = some t →
        q.ChoosesWell k t
  | alt r q, k, s =>
    EitherWell good better ((r.run size s).flatMap k) ((q.run size s).flatMap k)
      (r.ChoosesWell k s) (q.ChoosesWell k s)
  | optional greedy r, k, s =>
    RepeatWell good better greedy ((r.run size s).flatMap k) (k s) (r.ChoosesWell k s)
  | star greedy r, k, s =>
    LoopWell good better (r.run size) r.ChoosesWell greedy k s.rest.length s
  | plus greedy r, k, s =>
    let next t := loop (r.run size) greedy t.rest.length t
    r.ChoosesWell (fun t => (next t).flatMap k) s ∧
      ∀ t, chosen good (fun t => (next t).flatMap k) (r.run size s) = some t →
        LoopWell good better (r.run size) r.ChoosesWell greedy k t.rest.length t
  | mark r, k, s =>
    r.ChoosesWell
      (fun t => k { t with kept := s.rest.take (s.rest.length - t.rest.length) }) s

end Choices

section Decides

variable {good : Point α → Bool} {better : Point α → Point α → Prop}

theorem decides_ite (hrefl : ∀ t, better t t) (k : Point α → List (Point α)) {p : Prop}
    [Decidable p] (t : Point α) : Decides good better k (if p then [t] else []) := by
  split
  · exact decides_singleton hrefl k t
  · exact decides_nil k

theorem decides_repeat (hrefl : ∀ t, better t t)
    (htrans : ∀ t t' t'', better t t' → better t' t'' → better t t'') (greedy : Bool)
    (k : Point α → List (Point α)) (ts : List (Point α)) (s : Point α) :
    Decides good better k (if greedy then ts ++ [s] else s :: ts) ↔
      RepeatWell good better greedy (ts.flatMap k) (k s) (Decides good better k ts) := by
  have hstop : Decides good better k [s] := decides_singleton hrefl k s
  cases greedy with
  | true =>
    rw [if_pos rfl, decides_append htrans, List.flatMap_singleton]
    exact iff_of_eq (congrArg (ite _ _) (eq_true hstop))
  | false =>
    rw [if_neg Bool.false_ne_true, ← List.singleton_append, decides_append htrans,
      List.flatMap_singleton, eq_true hstop]
    rfl

theorem loopWell_iff (hrefl : ∀ t, better t t)
    (htrans : ∀ t t' t'', better t t' → better t' t'' → better t t'')
    {m : Point α → List (Point α)} {well : (Point α → List (Point α)) → Point α → Prop}
    (hwell : ∀ k s, well k s ↔ Decides good better k (m s)) (greedy : Bool)
    (k : Point α → List (Point α)) (n : Nat) (s : Point α) :
    LoopWell good better m well greedy k n s ↔ Decides good better k (loop m greedy n s) := by
  induction n generalizing s with
  | zero => exact iff_of_true trivial (decides_singleton hrefl k s)
  | succ n ih =>
    rw [loop, decides_repeat hrefl htrans, decides_flatMap htrans, LoopWell, hwell]
    refine iff_of_eq (congrArg (RepeatWell _ _ _ _ _) (propext (and_congr_right fun _ =>
      forall₂_congr fun t _ => ?_)))
    by_cases hlt : t.rest.length < s.rest.length
    · rw [if_pos hlt, ← ih t]
      exact ⟨fun h => h hlt, fun h _ => h⟩
    · rw [if_neg hlt]
      exact iff_of_true (fun h => absurd h hlt) (decides_singleton hrefl k t)

variable [DecidableEq α]

theorem choosesWell_iff (hrefl : ∀ t, better t t)
    (htrans : ∀ t t' t'', better t t' → better t' t'' → better t t'') (size : Nat) (r : Regex α)
    (k : Point α → List (Point α)) (s : Point α) :
    ChoosesWell good better size r k s ↔ Decides good better k (r.run size s) := by
  induction r generalizing k s with
  | any =>
    refine iff_of_true trivial ?_
    unfold run
    split
    · exact decides_nil k
    · exact decides_singleton hrefl k _
  | set p =>
    refine iff_of_true trivial ?_
    unfold run
    split
    · exact decides_nil k
    · exact decides_ite hrefl k _
  | text w => exact iff_of_true trivial (decides_ite hrefl k _)
  | bos => exact iff_of_true trivial (decides_ite hrefl k _)
  | eos => exact iff_of_true trivial (decides_ite hrefl k _)
  | seq r q ihr ihq =>
    rw [run, decides_flatMap htrans, ChoosesWell, ihr]
    exact and_congr_right fun _ => forall₂_congr fun t _ => ihq k t
  | alt r q ihr ihq =>
    rw [run, decides_append htrans, ChoosesWell, EitherWell, ihr, ihq]
  | optional greedy r ih =>
    rw [run, decides_repeat hrefl htrans, ChoosesWell, ih]
  | star greedy r ih => exact loopWell_iff hrefl htrans ih greedy k _ s
  | plus greedy r ih =>
    rw [run, decides_flatMap htrans, ChoosesWell, ih]
    exact and_congr_right fun _ => forall₂_congr fun t _ => loopWell_iff hrefl htrans ih greedy k _ t
  | mark r ih =>
    rw [run, List.map_eq_flatMap, decides_flatMap htrans, ChoosesWell, ih]
    simp only [List.flatMap_singleton]
    exact (and_iff_left fun t _ => decides_singleton hrefl k _).symm

end Decides

/-! ## Removing a prefix -/

section Prefixes

open Occurrence

/-- Something of a text of the given length has been taken. -/
def notNull (size : Nat) (t : Point α) : Bool := decide (t.rest.length < size)

theorem Extreme.refl (greedy : Bool) (t : Point α) : Extreme greedy t t := by
  unfold Extreme
  split <;> exact le_rfl

theorem Extreme.trans (greedy : Bool) (t t' t'' : Point α) (h : Extreme greedy t t')
    (h' : Extreme greedy t' t'') : Extreme greedy t t'' := by
  cases greedy with
  | true => exact le_trans (α := Nat) h h'
  | false => exact le_trans (α := Nat) h' h

theorem isPrefix_length {L : Language α} {v : List α} {o : Occurrence α} (h : o.IsPrefix L v) :
    o.found.length + o.after.length = v.length := by
  obtain ⟨⟨rfl, -⟩, hbefore⟩ := h
  rw [hbefore, List.nil_append, List.length_append]

/-- Of two prefixes the longer one leaves less. -/
theorem better_prefix_iff {L : Language α} {v : List α} {o o' : Occurrence α}
    (h : o.IsPrefix L v) (h' : o'.IsPrefix L v) (greedy : Bool) (kept kept' : List α) :
    (if greedy then Longer else Shorter) o o' ↔
      Extreme greedy ⟨o.after, kept⟩ ⟨o'.after, kept'⟩ := by
  have hlen := isPrefix_length h
  have hlen' := isPrefix_length h'
  cases greedy with
  | true =>
    show o'.found.length ≤ o.found.length ↔ o.after.length ≤ o'.after.length
    omega
  | false =>
    show o.found.length ≤ o'.found.length ↔ o'.after.length ≤ o.after.length
    omega

variable [DecidableEq α] {r : Regex α} {v : List α}

/-- The first match that takes something is the best one if all choices are made
well. -/
theorem choosesWell_iff_firstIsBest (greedy : Bool) (r : Regex α) (v : List α) :
    ChoosesWell (notNull v.length) (Extreme greedy) v.length r (fun t => [t]) ⟨v, []⟩ ↔
      FirstIsBest (notNull v.length) (Extreme greedy) (r.run v.length ⟨v, []⟩) :=
  (choosesWell_iff (Extreme.refl greedy) (Extreme.trans greedy) _ _ _ _).trans decides_pure

theorem substitute_bos_find (h : r.Plain) (v : List α) :
    (seq bos r).substitute [] false v =
      (((r.run v.length ⟨v, []⟩).find? (notNull v.length)).map Point.rest).getD v := by
  rw [substitute_bos_nil h, matchAt, List.find?_map]
  rfl

/-- A match at the beginning of the text is a prefix. -/
theorem exists_prefix (h : r.Plain) {t : Point α} (ht : t ∈ r.run v.length ⟨v, []⟩) :
    ∃ x, IsPrefix r.lang v ⟨[], x, t.rest⟩ := by
  obtain ⟨x, hx, hrest, -⟩ := (mem_run_iff h _ _ t).mp ht
  exact ⟨x, ⟨hrest.symm, hx⟩, rfl⟩

theorem mem_run_of_isPrefix (h : r.Plain) {o : Occurrence α} (ho : o.IsPrefix r.lang v) :
    ⟨o.after, []⟩ ∈ r.run v.length ⟨v, []⟩ := by
  obtain ⟨⟨rfl, hfound⟩, hbefore⟩ := ho
  refine (mem_run_iff h _ _ _).mpr ⟨o.found, hfound, ?_, rfl⟩
  rw [hbefore, List.nil_append]

/-- Where no match takes anything, nothing but the empty prefix can be replaced. -/
theorem replacesBest_prefix_none (h : r.Plain) (better : Occurrence α → Occurrence α → Prop)
    (hrefl : ∀ o, better o o)
    (hnone : (r.run v.length ⟨v, []⟩).find? (notNull v.length) = none) :
    ReplacesBest (IsPrefix r.lang v) better [] v v := by
  have hempty (o : Occurrence α) (ho : o.IsPrefix r.lang v) : o = ⟨[], [], v⟩ := by
    have hno := List.find?_eq_none.mp hnone _ (mem_run_of_isPrefix h ho)
    have hlen := isPrefix_length ho
    obtain ⟨⟨htext, -⟩, hbefore⟩ := ho
    have hfound : o.found = [] := by
      apply List.eq_nil_of_length_eq_zero
      simp only [notNull, decide_eq_true_eq] at hno
      omega
    cases o
    simp_all
  by_cases hnil : [] ∈ r.lang
  · refine .inl ⟨⟨[], [], v⟩, ⟨⟨rfl, hnil⟩, rfl⟩, fun o ho => ?_, rfl⟩
    rw [hempty o ho]
    exact hrefl _
  · refine .inr ⟨fun o ho => ?_, rfl⟩
    have hfound := ho.1.2
    rw [hempty o ho] at hfound
    exact hnil hfound

/-- What is removed is the best prefix when the first match that takes something is the
best one; for the shortest prefix, an empty one leaves no room for another. -/
theorem replacesBest_prefix_iff (h : r.Plain) (greedy : Bool) (v : List α)
    (hnull : greedy = false → [] ∈ r.lang → ∀ x, x <+: v → x ∈ r.lang → x = []) :
    ReplacesBest (IsPrefix r.lang v) (if greedy then Longer else Shorter) [] v
        ((seq bos r).substitute [] false v) ↔
      FirstIsBest (notNull v.length) (Extreme greedy) (r.run v.length ⟨v, []⟩) := by
  rw [substitute_bos_find h]
  constructor
  · intro hbest t ht t' ht' hgood
    rw [ht] at hbest
    -- The match found and the other one are prefixes, so the best one bounds them.
    obtain ⟨x, hx⟩ := exists_prefix h (List.mem_of_find?_eq_some ht)
    obtain ⟨x', hx'⟩ := exists_prefix h ht'
    rcases hbest with ⟨o, ho, hall, hout⟩ | ⟨hnone, -⟩
    · have hafter : t.rest = o.after := by
        rw [ho.2] at hout
        exact hout
      have hextreme := (better_prefix_iff ho hx' greedy t.kept t'.kept).mp (hall _ hx')
      rw [← hafter] at hextreme
      exact hextreme
    · exact absurd hx (hnone _)
  · intro hfirst
    cases hfind : (r.run v.length ⟨v, []⟩).find? (notNull v.length) with
    | none =>
      refine replacesBest_prefix_none h _ (fun o => ?_) hfind
      cases greedy <;> exact Nat.le_refl _
    | some t =>
      have htakes : t.rest.length < v.length :=
        of_decide_eq_true (List.find?_eq_some_iff_append.mp hfind).1
      obtain ⟨x, hx⟩ := exists_prefix h (List.mem_of_find?_eq_some hfind)
      refine .inl ⟨⟨[], x, t.rest⟩, hx, fun o ho => ?_, rfl⟩
      by_cases hsome : o.after.length < v.length
      · have hextreme := hfirst t hfind _ (mem_run_of_isPrefix h ho) (decide_eq_true hsome)
        exact (better_prefix_iff hx ho greedy t.kept []).mpr hextreme
      · -- the other prefix is empty
        have hlen := isPrefix_length ho
        have hzero : o.found = [] := List.eq_nil_of_length_eq_zero (by omega)
        cases greedy with
        | true =>
          show o.found.length ≤ x.length
          rw [hzero]
          exact Nat.zero_le _
        | false =>
          have hprefix : x <+: v := ⟨t.rest, hx.1.1⟩
          have hempty := hnull rfl (hzero ▸ ho.1.2) x hprefix hx.1.2
          have hlen' := isPrefix_length hx
          simp only [hempty, List.length_nil] at hlen'
          omega

theorem replacesBest_longest_iff (h : r.Plain) (v : List α) :
    ReplacesBest (IsPrefix r.lang v) Longer [] v ((seq bos r).substitute [] false v) ↔
      ChoosesWell (notNull v.length) (Extreme true) v.length r (fun t => [t]) ⟨v, []⟩ := by
  have hbest := replacesBest_prefix_iff h true v nofun
  rw [if_pos rfl] at hbest
  rw [hbest, choosesWell_iff_firstIsBest]

theorem replacesBest_shortest_iff (h : r.Plain) (v : List α) :
    ReplacesBest (IsPrefix r.lang v) Shorter [] v ((seq bos r).substitute [] false v) ↔
      ([] ∈ r.lang → ∀ x, x <+: v → x ∈ r.lang → x = []) ∧
        ChoosesWell (notNull v.length) (Extreme false) v.length r (fun t => [t]) ⟨v, []⟩ := by
  rw [choosesWell_iff_firstIsBest]
  by_cases hnull : [] ∈ r.lang → ∀ x, x <+: v → x ∈ r.lang → x = []
  · have hbest := replacesBest_prefix_iff h false v fun _ => hnull
    rw [if_neg Bool.false_ne_true] at hbest
    rw [hbest]
    exact (and_iff_right hnull).symm
  · refine iff_of_false (fun hbest => hnull fun hnil x hprefix hx => ?_) fun hall => hnull hall.1
    obtain ⟨rest, rfl⟩ := hprefix
    by_contra hne
    have hpos := List.length_pos_of_ne_nil hne
    -- the empty prefix is the shortest one, but something is taken
    have htakes : rest.length < (x ++ rest).length := by
      rw [List.length_append]
      omega
    have hmem : ⟨rest, []⟩ ∈ r.run (x ++ rest).length ⟨x ++ rest, []⟩ :=
      mem_run_of_isPrefix (o := ⟨[], x, rest⟩) h ⟨⟨rfl, hx⟩, rfl⟩
    have hany : (r.run (x ++ rest).length ⟨x ++ rest, []⟩).any (notNull (x ++ rest).length) = true :=
      List.any_eq_true.mpr ⟨_, hmem, decide_eq_true htakes⟩
    obtain ⟨t, ht⟩ := find_of_any hany
    have hlt : t.rest.length < (x ++ rest).length :=
      of_decide_eq_true (List.find?_eq_some_iff_append.mp ht).1
    have hempty : IsPrefix r.lang (x ++ rest) ⟨[], [], x ++ rest⟩ := ⟨⟨rfl, hnil⟩, rfl⟩
    rw [substitute_bos_find h, ht] at hbest
    rcases hbest with ⟨o, ho, hall, hout⟩ | ⟨hnone, -⟩
    · have hshort : o.found.length ≤ 0 := hall _ hempty
      have hlen := isPrefix_length ho
      have hafter : t.rest = o.after := by
        rw [ho.2] at hout
        exact hout
      rw [hafter] at hlt
      omega
    · exact hnone _ hempty

end Prefixes

/-! ## Wildcards -/

section Wildcards

variable [DecidableEq α] {greedy : Bool}

theorem run_foldl_seq {β : Type} (g : β → Regex α) (size : Nat) (l : List β) (r : Regex α)
    (s : Point α) :
    (l.foldl (fun r b => seq r (g b)) r).run size s =
      (r.run size s).flatMap (sequence (l.map fun b => (g b).run size)) := by
  induction l generalizing r with
  | nil => exact (List.flatMap_singleton' _).symm
  | cons b l ih =>
    rw [List.foldl_cons, ih, run, List.flatMap_assoc]
    rfl

/-- The first match of a sequence with wildcards is the longest one, or the shortest
one. -/
theorem firstIsBest_wildcards {β : Type} (g : β → Regex α) (b : β) (l : List β)
    (hg : ∀ b' ∈ b :: l, (g b').IsWildcard greedy) {p : Nat → Bool}
    (hp : ∀ i j, i ≤ j → p j = true → p i = true) (size : Nat) (s : Point α) :
    FirstIsBest (fun t : Point α => p t.rest.length) (Extreme greedy)
      ((l.foldl (fun r b => seq r (g b)) (g b)).run size s) := by
  have hrs : ∀ r ∈ (b :: l).map g, r.IsWildcard greedy := by
    intro r hr
    obtain ⟨b', hb', rfl⟩ := List.mem_map.mp hr
    exact hg b' hb'
  have hchoices : FirstChoices (fun t => p t.rest.length) (Extreme greedy)
      (((b :: l).map g).map (run size)) s := firstChoices_wildcards hp hrs s
  rw [← firstIsBest_iff (Extreme.refl greedy) (Extreme.trans greedy), List.map_map] at hchoices
  rw [run_foldl_seq]
  exact hchoices

/-- The first match of a sequence with greedy wildcards leaves the least. -/
theorem matchAt_wildcards {β : Type} (g : β → Regex α) (b : β) (l : List β)
    (hg : ∀ b' ∈ b :: l, (g b').IsWildcard true)
    (hplain : (l.foldl (fun r b => seq r (g b)) (g b)).Plain) {size : Nat} {u rest : List α}
    (hm : (l.foldl (fun r b => seq r (g b)) (g b)).matchAt size false u = some rest) :
    ∀ x ∈ (l.foldl (fun r b => seq r (g b)) (g b)).lang, ∀ rest', u = x ++ rest' →
      rest.length ≤ rest'.length := by
  intro x hx rest' hu
  have hbest := firstIsBest_wildcards g b l hg (p := fun _ => true) (fun _ _ _ _ => rfl) size ⟨u, []⟩
  rw [matchAt, List.find?_map] at hm
  obtain ⟨t, ht, rfl⟩ := Option.map_eq_some_iff.mp hm
  exact hbest t ht ⟨rest', []⟩ ((mem_run_iff hplain _ _ _).mpr ⟨x, hx, hu, rfl⟩) rfl

end Wildcards

end Regex

end Lib
