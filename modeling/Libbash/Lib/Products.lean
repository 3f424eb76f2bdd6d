import Mathlib.Algebra.BigOperators.Group.List.Basic
import Mathlib.Algebra.GroupWithZero.Nat
import Mathlib.Computability.Language

/-!
# Products of languages

Languages one after the other. What the product says of a single factor shows in its
shortest words: `shortest_of_prod` recovers the shortest words of every factor from
those of the product.
-/

namespace Lib

variable {α : Type}

theorem nil_mem_prod {Ls : List (Language α)} : [] ∈ Ls.prod ↔ ∀ L ∈ Ls, [] ∈ L := by
  induction Ls with
  | nil => exact iff_of_true Language.nil_mem_one nofun
  | cons L Ls ih =>
    rw [List.prod_cons, List.forall_mem_cons, ← ih, Language.mem_mul]
    constructor
    · rintro ⟨a, ha, b, hb, hnil⟩
      obtain ⟨rfl, rfl⟩ := List.append_eq_nil_iff.mp hnil
      exact ⟨ha, hb⟩
    · rintro ⟨hL, hLs⟩
      exact ⟨[], hL, [], hLs, rfl⟩

/-- One factor that has every word is enough, if the others have the empty one. -/
theorem mem_prod_of_all {Ls : List (Language α)} (hnil : ∀ L ∈ Ls, [] ∈ L)
    (hall : ∃ L ∈ Ls, ∀ w, w ∈ L) (w : List α) : w ∈ Ls.prod := by
  induction Ls with
  | nil =>
    obtain ⟨L, hL, -⟩ := hall
    cases hL
  | cons L Ls ih =>
    obtain ⟨hnilL, hnilLs⟩ := List.forall_mem_cons.mp hnil
    rw [List.prod_cons]
    rcases List.or_exists_of_exists_mem_cons hall with hword | hrest
    · exact Language.mem_mul.mpr ⟨w, hword w, [], nil_mem_prod.mpr hnilLs, List.append_nil w⟩
    · exact Language.mem_mul.mpr ⟨[], hnilL, w, ih hnilLs hrest, rfl⟩

theorem exists_mem_of_prod {Ls : List (Language α)} {w : List α} (h : w ∈ Ls.prod) :
    ∀ L ∈ Ls, ∃ u, u ∈ L := by
  induction Ls generalizing w with
  | nil => exact nofun
  | cons L Ls ih =>
    rw [List.prod_cons] at h
    obtain ⟨u, hu, r, hr, -⟩ := Language.mem_mul.mp h
    exact List.forall_mem_cons.mpr ⟨⟨u, hu⟩, ih hr⟩

/-! ## Shortest words -/

/-- The shortest words of the language have the length. -/
def Shortest (n : Nat) (L : Language α) : Prop :=
  (∀ w ∈ L, n ≤ w.length) ∧ ∃ w ∈ L, w.length = n

section Shortest

variable {L M : Language α} {n m : Nat}

/-- A word that is as short as can be comes apart in one way. -/
theorem append_mem_mul_iff (hL : ∀ w ∈ L, n ≤ w.length) (hM : ∀ w ∈ M, m ≤ w.length)
    {u r : List α} (hu : u.length = n) (hr : r.length = m) : u ++ r ∈ L * M ↔ u ∈ L ∧ r ∈ M := by
  constructor
  · intro h
    obtain ⟨u', hu', r', hr', happend⟩ := Language.mem_mul.mp h
    have hlen := congrArg List.length happend
    rw [List.length_append, List.length_append] at hlen
    have hle := hL u' hu'
    have hle' := hM r' hr'
    obtain ⟨rfl, rfl⟩ := List.append_inj happend (by omega)
    exact ⟨hu', hr'⟩
  · rintro ⟨hu', hr'⟩
    exact Language.append_mem_mul hu' hr'

theorem Shortest.mul (hL : Shortest n L) (hM : Shortest m M) : Shortest (n + m) (L * M) := by
  obtain ⟨hleL, u, hu, rfl⟩ := hL
  obtain ⟨hleM, r, hr, rfl⟩ := hM
  constructor
  · intro w hw
    obtain ⟨u', hu', r', hr', rfl⟩ := Language.mem_mul.mp hw
    rw [List.length_append]
    exact Nat.add_le_add (hleL u' hu') (hleM r' hr')
  · exact ⟨u ++ r, Language.append_mem_mul hu hr, List.length_append⟩

variable {β : Type} {size : β → Nat} {F G : β → Language α}

theorem shortest_prod {l : List β} (h : ∀ b ∈ l, Shortest (size b) (F b)) :
    Shortest (l.map size).sum (l.map F).prod := by
  induction l with
  | nil => exact ⟨fun _ _ => Nat.zero_le _, [], Language.nil_mem_one, rfl⟩
  | cons b l ih =>
    obtain ⟨hb, hl⟩ := List.forall_mem_cons.mp h
    rw [List.map_cons, List.map_cons, List.sum_cons, List.prod_cons]
    exact hb.mul (ih hl)

/-- When two products have the same shortest words, so have their factors. -/
theorem shortest_of_prod {l : List β} (hF : ∀ b ∈ l, Shortest (size b) (F b))
    (hG : ∀ b ∈ l, Shortest (size b) (G b))
    (heq : ∀ w, w.length = (l.map size).sum → (w ∈ (l.map F).prod ↔ w ∈ (l.map G).prod)) :
    ∀ b ∈ l, ∀ w, w.length = size b → (w ∈ F b ↔ w ∈ G b) := by
  induction l with
  | nil => exact nofun
  | cons b l ih =>
    obtain ⟨hFb, hFl⟩ := List.forall_mem_cons.mp hF
    obtain ⟨hGb, hGl⟩ := List.forall_mem_cons.mp hG
    have hFrest := shortest_prod hFl
    have hGrest := shortest_prod hGl
    have hboth (u r : List α) (hu : u.length = size b) (hr : r.length = (l.map size).sum) :
        (u ∈ F b ∧ r ∈ (l.map F).prod) ↔ (u ∈ G b ∧ r ∈ (l.map G).prod) := by
      have hlen : (u ++ r).length = ((b :: l).map size).sum := by
        rw [List.length_append, hu, hr, List.map_cons, List.sum_cons]
      have hword := heq (u ++ r) hlen
      rw [List.map_cons, List.map_cons, List.prod_cons, List.prod_cons,
        append_mem_mul_iff hFb.1 hFrest.1 hu hr, append_mem_mul_iff hGb.1 hGrest.1 hu hr] at hword
      exact hword
    obtain ⟨u₀, hu₀, hulen⟩ := hFb.2
    obtain ⟨r₀, hr₀, hrlen⟩ := hFrest.2
    obtain ⟨hu₀', hr₀'⟩ := (hboth u₀ r₀ hulen hrlen).mp ⟨hu₀, hr₀⟩
    have hfirst (u : List α) (hu : u.length = size b) : u ∈ F b ↔ u ∈ G b :=
      ⟨fun h => ((hboth u r₀ hu hrlen).mp ⟨h, hr₀⟩).1,
        fun h => ((hboth u r₀ hu hrlen).mpr ⟨h, hr₀'⟩).1⟩
    have hrest (r : List α) (hr : r.length = (l.map size).sum) :
        r ∈ (l.map F).prod ↔ r ∈ (l.map G).prod :=
      ⟨fun h => ((hboth u₀ r hulen hr).mp ⟨hu₀, h⟩).2,
        fun h => ((hboth u₀ r hulen hr).mpr ⟨hu₀', h⟩).2⟩
    exact List.forall_mem_cons.mpr ⟨hfirst, ih hFl hGl hrest⟩

end Shortest

end Lib
