import Mathlib.Data.List.Infix
import Mathlib.Tactic.Basic
import Mathlib.Tactic.SplitIfs

/-!
# Fields of a marked text

A text is divided at its separators. What stands between two separators is a
field as soon as it holds a character or an anchor; an anchor is the place of an
empty text that still counts.

* **`fields`** — the division, as a scan from the left;
* **`flatten_fields`** — the fields have all characters, in their order;
* **`fields_of_noSeparator`** — without a separator there is at most one field;
* **`filter_fields`** — the fields without the anchors are those that are not
  empty;
* **`fields_separated`** — the fields of texts with a separator between two of
  them are these texts;
* **`of_mem_fields`**, **`exists_field_of_infix`** — a text without a separator is a
  part of the whole when it is a part of a field.
-/

namespace Lib

variable {A : Type}

inductive Item (A : Type) where
  | char (a : A)
  | anchor
  | separator

namespace Item

def isAnchor : Item A → Bool
  | anchor => true
  | _ => false

def isSeparator : Item A → Bool
  | separator => true
  | _ => false

/-- A character, or nothing. -/
def char? : Item A → Option A
  | char a => some a
  | _ => none

/-- A character that separates when it satisfies `p`. -/
def mark (p : A → Bool) (a : A) : Item A := if p a then separator else char a

end Item

/-- Divide the items, with the field that has been begun. -/
def fieldsFrom : Option (List A) → List (Item A) → List (List A)
  | begun, [] => begun.toList
  | begun, .char a :: is => fieldsFrom (some (begun.getD [] ++ [a])) is
  | begun, .anchor :: is => fieldsFrom (some (begun.getD [])) is
  | begun, .separator :: is => begun.toList ++ fieldsFrom none is

def fields (is : List (Item A)) : List (List A) := fieldsFrom none is

/-! ## All characters -/

theorem flatten_fieldsFrom (begun : Option (List A)) (is : List (Item A)) :
    (fieldsFrom begun is).flatten = begun.getD [] ++ is.filterMap Item.char? := by
  induction is generalizing begun with
  | nil => cases begun <;> simp [fieldsFrom]
  | cons i is ih =>
    cases i with
    | char a =>
      rw [fieldsFrom, ih, Option.getD_some, List.append_assoc]
      rfl
    | anchor =>
      rw [fieldsFrom, ih, Option.getD_some]
      rfl
    | separator =>
      rw [fieldsFrom, List.flatten_append, ih, Option.getD_none, List.nil_append]
      show begun.toList.flatten ++ _ = begun.getD [] ++ is.filterMap Item.char?
      cases begun <;> simp

theorem flatten_fields (is : List (Item A)) : (fields is).flatten = is.filterMap Item.char? := by
  rw [fields, flatten_fieldsFrom]
  rfl

/-! ## No separator -/

theorem fieldsFrom_of_noSeparator {is : List (Item A)} (h : ∀ i ∈ is, i.isSeparator = false)
    (cs : List A) : fieldsFrom (some cs) is = [cs ++ is.filterMap Item.char?] := by
  induction is generalizing cs with
  | nil => simp [fieldsFrom]
  | cons i is ih =>
    have hrest : ∀ j ∈ is, j.isSeparator = false := fun j hj => h j (List.mem_cons_of_mem _ hj)
    cases i with
    | char a =>
      rw [fieldsFrom, ih hrest, Option.getD_some, List.append_assoc]
      rfl
    | anchor =>
      rw [fieldsFrom, ih hrest, Option.getD_some]
      rfl
    | separator => exact absurd (h _ List.mem_cons_self) (by simp [Item.isSeparator])

/-- A text that has no separator is one field, unless it has nothing at all. -/
theorem fields_of_noSeparator {is : List (Item A)} (h : ∀ i ∈ is, i.isSeparator = false)
    (hne : is ≠ []) : fields is = [is.filterMap Item.char?] := by
  cases is with
  | nil => exact absurd rfl hne
  | cons i is =>
    have hrest : ∀ j ∈ is, j.isSeparator = false := fun j hj => h j (List.mem_cons_of_mem _ hj)
    cases i with
    | char a =>
      rw [fields, fieldsFrom, fieldsFrom_of_noSeparator hrest]
      rfl
    | anchor =>
      rw [fields, fieldsFrom, fieldsFrom_of_noSeparator hrest]
      rfl
    | separator => exact absurd (h _ List.mem_cons_self) (by simp [Item.isSeparator])

/-! ## Anchors -/

theorem filter_fieldsFrom (begun : Option (List A)) (is : List (Item A)) :
    (fieldsFrom begun is).filter (fun f => !f.isEmpty) =
      fieldsFrom (begun.filter fun f => !f.isEmpty) (is.filter fun i => !i.isAnchor) := by
  have hgetD : ∀ begun : Option (List A),
      (begun.filter fun f => !f.isEmpty).getD [] = begun.getD [] := by
    intro begun
    rcases begun with _ | _ | ⟨c, cs⟩ <;> rfl
  have htoList : ∀ begun : Option (List A),
      begun.toList.filter (fun f => !f.isEmpty) = (begun.filter fun f => !f.isEmpty).toList := by
    intro begun
    rcases begun with _ | _ | ⟨c, cs⟩ <;> rfl
  induction is generalizing begun with
  | nil => exact htoList begun
  | cons i is ih =>
    cases i with
    | char a =>
      have hsome : ((some (begun.getD [] ++ [a])).filter fun f => !f.isEmpty) =
          some (begun.getD [] ++ [a]) := by simp
      rw [fieldsFrom, ih, hsome, ← hgetD begun]
      rfl
    | anchor =>
      have hsome : ((some (begun.getD [])).filter fun f => !f.isEmpty) =
          begun.filter fun f => !f.isEmpty := by
        rcases begun with _ | _ | ⟨c, cs⟩ <;> rfl
      rw [fieldsFrom, ih, hsome]
      rfl
    | separator =>
      rw [fieldsFrom, List.filter_append, ih, htoList]
      rfl

theorem filter_fields (is : List (Item A)) :
    (fields is).filter (fun f => !f.isEmpty) = fields (is.filter fun i => !i.isAnchor) :=
  filter_fieldsFrom none is

/-- Leaving the anchors out makes no difference exactly when no field is empty. -/
theorem fields_filter_eq_iff (is : List (Item A)) :
    fields (is.filter fun i => !i.isAnchor) = fields is ↔ [] ∉ fields is := by
  rw [← filter_fields, List.filter_eq_self]
  constructor
  · intro h hmem
    exact absurd (h [] hmem) (by simp)
  · intro h f hf
    cases f with
    | nil => exact absurd hf h
    | cons c cs => rfl

/-! ## Separators at the ends -/

theorem fieldsFrom_append_separators (begun : Option (List A)) (is js : List (Item A))
    (h : ∀ j ∈ js, j.isSeparator = true) : fieldsFrom begun (is ++ js) = fieldsFrom begun is := by
  induction is generalizing begun with
  | nil =>
    rw [List.nil_append]
    induction js generalizing begun with
    | nil => rfl
    | cons j js ih =>
      cases j with
      | separator =>
        show begun.toList ++ fieldsFrom none js = begun.toList
        rw [ih (fun j hj => h j (List.mem_cons_of_mem _ hj)) none]
        exact List.append_nil _
      | char a => exact absurd (h _ List.mem_cons_self) (by simp [Item.isSeparator])
      | anchor => exact absurd (h _ List.mem_cons_self) (by simp [Item.isSeparator])
  | cons i is ih =>
    rw [List.cons_append]
    cases i <;> simp only [fieldsFrom, ih]

theorem fields_separators_append (is js : List (Item A)) (h : ∀ j ∈ js, j.isSeparator = true) :
    fields (js ++ is) = fields is := by
  induction js with
  | nil => rfl
  | cons j js ih =>
    cases j with
    | separator => exact ih fun j hj => h j (List.mem_cons_of_mem _ hj)
    | char a => exact absurd (h _ List.mem_cons_self) (by simp [Item.isSeparator])
    | anchor => exact absurd (h _ List.mem_cons_self) (by simp [Item.isSeparator])

/-! ## Joined texts -/

theorem fieldsFrom_chars_separator (begun cs : List A) (is : List (Item A)) :
    fieldsFrom (some begun) (cs.map .char ++ .separator :: is) = (begun ++ cs) :: fields is := by
  induction cs generalizing begun with
  | nil =>
    rw [List.append_nil]
    rfl
  | cons c cs ih =>
    rw [List.map_cons, List.cons_append, fieldsFrom, ih, Option.getD_some, List.append_assoc]
    rfl

/-- Texts that are not empty, with a separator between two of them. -/
theorem fields_separated (texts : List (List A)) (h : [] ∉ texts) :
    fields ([Item.separator].intercalate (texts.map (·.map .char))) = texts := by
  induction texts with
  | nil => rfl
  | cons text texts ih =>
    cases text with
    | nil => exact absurd List.mem_cons_self h
    | cons c cs =>
      cases texts with
      | nil =>
        rw [List.map_singleton, List.intercalate_singleton]
        have hall : ∀ i ∈ (c :: cs).map Item.char, i.isSeparator = false := by
          intro i hi
          obtain ⟨x, -, rfl⟩ := List.mem_map.mp hi
          rfl
        rw [fields_of_noSeparator hall (List.cons_ne_nil _ _), List.filterMap_map]
        show [(c :: cs).filterMap some] = [c :: cs]
        rw [List.filterMap_some]
      | cons text' texts =>
        have hrest := ih fun hmem => h (List.mem_cons_of_mem _ hmem)
        show fields ([Item.separator].intercalate
          ((c :: cs).map .char :: text'.map .char :: texts.map (·.map .char))) = _
        rw [List.intercalate_cons_cons, List.append_assoc, List.map_cons, List.cons_append, fields,
          fieldsFrom, Option.getD_none, List.nil_append, List.singleton_append,
          fieldsFrom_chars_separator]
        exact congrArg ((c :: cs) :: ·) hrest

/-! ## A text and its fields -/

theorem fieldsFrom_append_separator (begun : Option (List A)) (is js : List (Item A)) :
    fieldsFrom begun (is ++ .separator :: js) = fieldsFrom begun is ++ fields js := by
  induction is generalizing begun with
  | nil => rfl
  | cons i is ih =>
    rw [List.cons_append]
    cases i <;> simp only [fieldsFrom, ih, List.append_assoc]

theorem fields_append_separator (is js : List (Item A)) :
    fields (is ++ .separator :: js) = fields is ++ fields js :=
  fieldsFrom_append_separator none is js

variable {p : A → Bool} {cs f t : List A}

/-- A field is a part of the text without a separator, and it is not empty. -/
theorem of_mem_fieldsFrom {begun : Option (List A)}
    (hbegun : ∀ b ∈ begun, b ≠ [] ∧ ∀ c ∈ b, p c = false)
    (h : f ∈ fieldsFrom begun (cs.map (.mark p))) :
    (f ≠ [] ∧ ∀ c ∈ f, p c = false) ∧ f <:+: begun.getD [] ++ cs := by
  induction cs generalizing begun with
  | nil =>
    have hf : f ∈ begun := Option.mem_toList.mp h
    refine ⟨hbegun f hf, ?_⟩
    rw [Option.mem_def.mp hf, Option.getD_some, List.append_nil]
  | cons c cs ih =>
    cases hc : p c with
    | true =>
      simp only [List.map_cons, Item.mark, hc, if_true, fieldsFrom, List.mem_append] at h
      rcases h with h | h
      · have hf : f ∈ begun := Option.mem_toList.mp h
        refine ⟨hbegun f hf, ?_⟩
        rw [Option.mem_def.mp hf, Option.getD_some]
        exact (List.prefix_append f (c :: cs)).isInfix
      · obtain ⟨hplain, hinfix⟩ := ih (by simp) h
        rw [Option.getD_none, List.nil_append] at hinfix
        exact ⟨hplain, hinfix.trans ⟨begun.getD [] ++ [c], [], by simp⟩⟩
    | false =>
      simp only [List.map_cons, Item.mark, hc, Bool.false_eq_true, if_false, fieldsFrom] at h
      have hnext : ∀ b ∈ some (begun.getD [] ++ [c]), b ≠ [] ∧ ∀ x ∈ b, p x = false := by
        rintro b ⟨⟩
        refine ⟨by simp, ?_⟩
        intro x hx
        rcases List.mem_append.mp hx with hx | hx
        · cases begun with
          | none => exact absurd hx (by simp)
          | some b => exact (hbegun b rfl).2 x hx
        · rwa [List.mem_singleton.mp hx]
      obtain ⟨hplain, hinfix⟩ := ih hnext h
      rw [Option.getD_some, List.append_assoc, List.singleton_append] at hinfix
      exact ⟨hplain, hinfix⟩

theorem of_mem_fields (h : f ∈ fields (cs.map (.mark p))) :
    (f ≠ [] ∧ ∀ c ∈ f, p c = false) ∧ f <:+: cs := by
  have hnone : ∀ b ∈ (none : Option (List A)), b ≠ [] ∧ ∀ c ∈ b, p c = false := by
    intro b hb
    cases hb
  have hparts := of_mem_fieldsFrom hnone h
  rwa [Option.getD_none, List.nil_append] at hparts

/-- The first field goes on from what has been begun. -/
theorem fieldsFrom_some_eq_cons (b : List A) (is : List (Item A)) :
    ∃ w rest, fieldsFrom (some b) is = (b ++ w) :: rest := by
  induction is generalizing b with
  | nil => exact ⟨[], [], by simp [fieldsFrom]⟩
  | cons i is ih =>
    cases i with
    | char a =>
      obtain ⟨w, rest, hrest⟩ := ih (b ++ [a])
      exact ⟨a :: w, rest, by simpa [fieldsFrom] using hrest⟩
    | anchor => exact ih b
    | separator => exact ⟨[], fields is, by simp [fieldsFrom, fields]⟩

theorem fieldsFrom_plain (begun : Option (List A)) (hne : t ≠ []) (ht : ∀ c ∈ t, p c = false)
    (is : List (Item A)) :
    fieldsFrom begun (t.map (.mark p) ++ is) = fieldsFrom (some (begun.getD [] ++ t)) is := by
  induction t generalizing begun with
  | nil => exact absurd rfl hne
  | cons c t ih =>
    have hc : p c = false := ht c List.mem_cons_self
    simp only [List.map_cons, List.cons_append, Item.mark, hc, Bool.false_eq_true, if_false,
      fieldsFrom]
    cases t with
    | nil => rfl
    | cons d t =>
      have hrest : ∀ x ∈ d :: t, p x = false := fun x hx => ht x (List.mem_cons_of_mem _ hx)
      rw [ih _ (List.cons_ne_nil _ _) hrest]
      simp

/-- A part of the text without a separator is a part of one of its fields. -/
theorem exists_field_of_infix (hne : t ≠ []) (ht : ∀ c ∈ t, p c = false) (h : t <:+: cs) :
    ∃ f ∈ fields (cs.map (.mark p)), t <:+: f := by
  obtain ⟨u, v, rfl⟩ := h
  suffices hfrom : ∀ begun, ∃ f ∈ fieldsFrom begun ((u ++ t ++ v).map (.mark p)), t <:+: f from
    hfrom none
  induction u with
  | nil =>
    intro begun
    rw [List.nil_append, List.map_append, fieldsFrom_plain begun hne ht]
    obtain ⟨w, rest, hrest⟩ := fieldsFrom_some_eq_cons (begun.getD [] ++ t) (v.map (.mark p))
    rw [hrest]
    exact ⟨_, List.mem_cons_self, ⟨begun.getD [], w, rfl⟩⟩
  | cons c u ih =>
    intro begun
    rw [List.cons_append, List.cons_append, List.map_cons]
    cases hc : p c with
    | true =>
      obtain ⟨f, hf, hinfix⟩ := ih none
      simp only [Item.mark, hc, if_true, fieldsFrom]
      exact ⟨f, List.mem_append_right _ hf, hinfix⟩
    | false =>
      simp only [Item.mark, hc, Bool.false_eq_true, if_false, fieldsFrom]
      exact ih _

end Lib
