import Libbash.Lib.Fields

/-!
# Two kinds of delimiters

A text is divided at delimiters of two kinds. White ones are dropped at both ends
and separate as a run; a hard one ends a field of its own, together with the white
ones next to it, so that the field is empty when nothing stands before it.

* **`delimited`** — the division, as a scan from the left;
* **`filter_delimited`** — the fields that are not empty are those that any run of
  delimiters separates;
* **`nil_notMem_delimited`** — no field is empty if and only if a character stands
  before every hard delimiter.
-/

namespace Lib

variable {A : Type}

inductive Delimiting where
  | plain | white | hard
  deriving DecidableEq

/-- Where a scan stands: before a field, in one that has some characters, or
behind one that white delimiters have ended. -/
inductive Place (A : Type) where
  | before
  | within (field : List A)
  | behind

namespace Place

/-- The fields that a character ends, and the place behind it. -/
def step (c : A) : Delimiting → Place A → List (List A) × Place A
  | .plain, within field => ([], within (field ++ [c]))
  | .plain, _ => ([], within [c])
  | .white, within field => ([field], behind)
  | .white, place => ([], place)
  | .hard, before => ([[]], before)
  | .hard, within field => ([field], before)
  | .hard, behind => ([], before)

/-- The field that the end of the text ends. -/
def rest : Place A → List (List A)
  | within field => [field]
  | _ => []

end Place

/-- The fields from a place on. -/
def delimitedFrom (kind : A → Delimiting) : Place A → List A → List (List A)
  | place, [] => place.rest
  | place, c :: cs =>
    (place.step c (kind c)).1 ++ delimitedFrom kind (place.step c (kind c)).2 cs

def delimited (kind : A → Delimiting) (cs : List A) : List (List A) :=
  delimitedFrom kind .before cs

variable (kind : A → Delimiting)

/-! ## Fields that are not empty -/

def Place.begun : Place A → Option (List A)
  | within field => some field
  | _ => none

/-- The field that has been begun has a character. -/
def Place.Proper : Place A → Prop
  | within field => field ≠ []
  | _ => True

theorem filter_delimitedFrom (place : Place A) (h : place.Proper) (cs : List A) :
    (delimitedFrom kind place cs).filter (fun f => !f.isEmpty) =
      fieldsFrom place.begun (cs.map (.mark fun c => kind c != .plain)) := by
  have hkeep : ∀ field : List A, field ≠ [] → ∀ rest : List (List A),
      (field :: rest).filter (fun f => !f.isEmpty) =
        field :: rest.filter fun f => !f.isEmpty := by
    intro field hfield rest
    rw [List.filter_cons_of_pos]
    cases field with
    | nil => exact absurd rfl hfield
    | cons c cs => rfl
  -- The scan and the fields go side by side; `before` and `behind` are one place for the fields.
  induction cs generalizing place with
  | nil =>
    cases place with
    | before => rfl
    | within field => exact hkeep field h []
    | behind => rfl
  | cons c cs ih =>
    rw [List.map_cons]
    cases hc : kind c with
    | plain =>
      rw [Item.mark, hc, if_neg (by decide)]
      cases place with
      | before =>
        rw [delimitedFrom, hc]
        exact ih (.within [c]) (List.cons_ne_nil _ _)
      | within field =>
        rw [delimitedFrom, hc]
        exact ih (.within (field ++ [c])) (by simp [Place.Proper])
      | behind =>
        rw [delimitedFrom, hc]
        exact ih (.within [c]) (List.cons_ne_nil _ _)
    | white =>
      rw [Item.mark, hc, if_pos (by decide)]
      cases place with
      | before =>
        rw [delimitedFrom, hc]
        exact ih .before trivial
      | within field =>
        rw [delimitedFrom, hc]
        exact (hkeep field h _).trans (congrArg (field :: ·) (ih .behind trivial))
      | behind =>
        rw [delimitedFrom, hc]
        exact ih .behind trivial
    | hard =>
      rw [Item.mark, hc, if_pos (by decide)]
      cases place with
      | before =>
        rw [delimitedFrom, hc]
        exact ih .before trivial
      | within field =>
        rw [delimitedFrom, hc]
        exact (hkeep field h _).trans (congrArg (field :: ·) (ih .before trivial))
      | behind =>
        rw [delimitedFrom, hc]
        exact ih .before trivial

theorem filter_delimited (cs : List A) :
    (delimited kind cs).filter (fun f => !f.isEmpty) =
      fields (cs.map (.mark fun c => kind c != .plain)) :=
  filter_delimitedFrom kind .before trivial cs

theorem fields_eq_delimited_iff (cs : List A) :
    fields (cs.map (.mark fun c => kind c != .plain)) = delimited kind cs ↔
      [] ∉ delimited kind cs := by
  rw [← filter_delimited, List.filter_eq_self]
  constructor
  · intro h hmem
    exact absurd (h [] hmem) (by simp)
  · intro h f hf
    cases f with
    | nil => exact absurd hf h
    | cons c cs => rfl

/-! ## Empty fields -/

/-- The last character that is not white is a plain one. -/
def endsPlain (cs : List A) : Prop :=
  ∃ c ∈ (cs.reverse.dropWhile fun c => kind c == .white).head?, kind c = .plain

/-- A character stands before every hard delimiter, white delimiters apart. -/
def HardAfterPlain (cs : List A) : Prop :=
  ∀ a d b, cs = a ++ d :: b → kind d = .hard → endsPlain kind a

variable {kind}

theorem endsPlain_append_singleton {cs : List A} {c : A} :
    endsPlain kind (cs ++ [c]) ↔
      if kind c = .white then endsPlain kind cs else kind c = .plain := by
  unfold endsPlain
  rw [List.reverse_append, List.reverse_singleton, List.singleton_append]
  by_cases hc : kind c = .white
  · rw [List.dropWhile_cons_of_pos (by rw [hc]; rfl), if_pos hc]
  · rw [List.dropWhile_cons_of_neg (by simpa using hc), if_neg hc, List.head?_cons]
    simp

/-- The place agrees with the text before it. -/
def Place.At (kind : A → Delimiting) (read : List A) : Place A → Prop
  | before => ¬ endsPlain kind read
  | within field => field ≠ [] ∧ endsPlain kind read
  | behind => endsPlain kind read

theorem nil_notMem_delimitedFrom (place : Place A) (read : List A) (h : place.At kind read)
    (cs : List A) :
    [] ∉ delimitedFrom kind place cs ↔
      ∀ a d b, cs = a ++ d :: b → kind d = .hard → endsPlain kind (read ++ a) := by
  induction cs generalizing place read with
  | nil =>
    refine iff_of_true ?_ fun a d b heq => absurd heq (by simp)
    cases place with
    | before => exact List.not_mem_nil
    | within field => exact fun hmem => h.1 (List.mem_singleton.mp hmem).symm
    | behind => exact List.not_mem_nil
  | cons c cs ih =>
    -- The condition on `c :: cs` is one on `c` behind what was read, and one on `cs` behind `c`.
    have hstep : (∀ a d b, c :: cs = a ++ d :: b → kind d = .hard → endsPlain kind (read ++ a)) ↔
        (kind c = .hard → endsPlain kind read) ∧
          ∀ a d b, cs = a ++ d :: b → kind d = .hard → endsPlain kind (read ++ [c] ++ a) := by
      constructor
      · intro hall
        refine ⟨fun hc => ?_, fun a d b heq hd => ?_⟩
        · have hhead := hall [] c cs rfl hc
          rwa [List.append_nil] at hhead
        · rw [List.append_assoc]
          exact hall (c :: a) d b (by rw [heq]; rfl) hd
      · rintro ⟨hhead, htail⟩ a d b heq hd
        cases a with
        | nil =>
          obtain ⟨rfl, -⟩ := List.cons.inj heq
          rw [List.append_nil]
          exact hhead hd
        | cons x xs =>
          obtain ⟨rfl, hcs⟩ := List.cons.inj heq
          have hrest := htail xs d b hcs hd
          rwa [List.append_assoc] at hrest
    rw [hstep]
    cases hc : kind c with
    | plain =>
      have hplain : endsPlain kind (read ++ [c]) := by
        rw [endsPlain_append_singleton, hc, if_neg (by decide)]
      rw [and_iff_right fun heq => absurd heq (by decide)]
      cases place with
      | before =>
        rw [delimitedFrom, hc]
        exact ih (.within [c]) _ ⟨List.cons_ne_nil _ _, hplain⟩
      | within field =>
        rw [delimitedFrom, hc]
        exact ih (.within (field ++ [c])) _ ⟨by simp, hplain⟩
      | behind =>
        rw [delimitedFrom, hc]
        exact ih (.within [c]) _ ⟨List.cons_ne_nil _ _, hplain⟩
    | white =>
      have hsame : endsPlain kind (read ++ [c]) ↔ endsPlain kind read := by
        rw [endsPlain_append_singleton, if_pos hc]
      rw [and_iff_right fun heq => absurd heq (by decide)]
      cases place with
      | before =>
        rw [delimitedFrom, hc]
        exact ih .before _ (mt hsame.mp h)
      | within field =>
        rw [delimitedFrom, hc]
        refine Iff.trans ?_ (ih .behind _ (hsame.mpr h.2))
        show ¬[] ∈ field :: _ ↔ _
        rw [List.mem_cons, not_or]
        exact and_iff_right h.1.symm
      | behind =>
        rw [delimitedFrom, hc]
        exact ih .behind _ (hsame.mpr h)
    | hard =>
      have hnot : ¬ endsPlain kind (read ++ [c]) := by
        rw [endsPlain_append_singleton, hc, if_neg (by decide)]
        decide
      cases place with
      | before =>
        rw [delimitedFrom, hc]
        -- No field is begun, so this delimiter ends an empty one.
        exact iff_of_false (fun hnil => hnil List.mem_cons_self) fun hall => h (hall.1 rfl)
      | within field =>
        rw [delimitedFrom, hc, and_iff_right fun _ => h.2]
        refine Iff.trans ?_ (ih .before _ hnot)
        show ¬[] ∈ field :: _ ↔ _
        rw [List.mem_cons, not_or]
        exact and_iff_right h.1.symm
      | behind =>
        have hbefore : endsPlain kind read := h
        rw [delimitedFrom, hc, and_iff_right fun _ => hbefore]
        exact ih .before _ hnot

theorem nil_notMem_delimited (cs : List A) : [] ∉ delimited kind cs ↔ HardAfterPlain kind cs := by
  refine nil_notMem_delimitedFrom .before [] ?_ cs
  rintro ⟨c, hc, -⟩
  cases hc

end Lib
