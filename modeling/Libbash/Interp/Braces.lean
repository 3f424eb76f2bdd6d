import Libbash.Lib.Distribution
import Libbash.Interp.Reading

/-!
# Brace expansion

A word of literal parts and brace groups stands for the product of its parts, in
which a group has the expansions of all its alternatives. `string_expr` calls
itself for an alternative and gets one text, the joined expansions, so what stands
around the group is not distributed over them. `distributes_alone` says for which
words the value is the joined product.
-/

namespace Libbash

open Lib Lib.Comp Lib.Program

/-! ## Words of literal parts -/

/-- The text of a part between double quotes that expands nothing. -/
def literalTexts : List QuotedPart → Option String
  | [] => some ""
  | .text text :: ps => (literalTexts ps).map (text ++ ·)
  | _ :: _ => none

/-- The text of a part that expands nothing, as `string_part` reads it. -/
def StringPart.literal? : StringPart → Option String
  | .text t => some t
  | .escaped t => some ("\\" ++ t)
  | .singleQuoted t => some t
  | .ansiC t => if (transformEscapes true t).2 then none else some (transformEscapes true t).1
  | .doubleQuoted parts => literalTexts parts
  | _ => none

mutual

/-- Literal parts, and groups of at least two alternatives. -/
def Word.Raw : Word → Prop
  | .string parts => RawParts parts

def RawParts : List WordPart → Prop
  | [] => True
  | .part p :: ps => p.literal?.isSome = true ∧ RawParts ps
  | .brace elements :: ps => 2 ≤ elements.length ∧ RawElements elements ∧ RawParts ps

def RawElements : List Word → Prop
  | [] => True
  | w :: ws => w.Raw ∧ RawElements ws

end

/-! ## Expansions -/

mutual

/-- The product of the parts of a word, where the expansions of an alternative are
passed through `inner`. -/
def Word.expand (inner : List String → List String) : Word → List String
  | .string parts => expandParts inner parts

def expandParts (inner : List String → List String) : List WordPart → List String
  | [] => [""]
  | .part p :: ps => distribute [p.literal?.getD ""] (expandParts inner ps)
  | .brace elements :: ps => distribute (expandElements inner elements) (expandParts inner ps)

def expandElements (inner : List String → List String) : List Word → List String
  | [] => []
  | w :: ws => inner (w.expand inner) ++ expandElements inner ws

end

/-- The words that a word stands for. -/
def Word.expansions : Word → List String := Word.expand id

/-- One text for all. -/
def joinedTexts (l : List String) : List String := [" ".intercalate l]

section Run

variable (host : Host) (n d : Nat)

theorem run_quotedParts_literal {parts : List QuotedPart} {text : String}
    (h : literalTexts parts = some text) (v : PartValue) (s : Interpreter) :
    ∃ quoted, runShell host n d (Shell.quotedParts host v parts) s =
      some (.ok { v with value := v.value ++ text, quoted := quoted }, s) := by
  induction parts generalizing v text with
  | nil =>
    cases h
    refine ⟨v.quoted, ?_⟩
    rw [Shell.quotedParts, String.append_empty]
    rfl
  | cons p ps ih =>
    cases p with
    | text first =>
      rw [literalTexts, Option.map_eq_some_iff] at h
      obtain ⟨rest, hrest, rfl⟩ := h
      obtain ⟨quoted, hrun⟩ := ih hrest { v with value := v.value ++ first, quoted := true }
      refine ⟨quoted, ?_⟩
      rw [Shell.quotedParts, Shell.doubleQuotedString, ← String.append_assoc]
      exact hrun
    | varRef r => cases h
    | arith e => cases h
    | commandSub c => cases h

/-- A literal part is read without an effect. -/
theorem run_literalPart {p : StringPart} {text : String} (h : p.literal? = some text)
    (s : Interpreter) :
    ∃ quoted, runShell host n d (Shell.stringPart host p) s =
      some (.ok { value := text, quoted := quoted }, s) := by
  cases p with
  | text t | escaped t | singleQuoted t =>
    cases h
    exact ⟨_, rfl⟩
  | ansiC t =>
    rw [StringPart.literal?] at h
    split_ifs at h with hstop
    cases h
    refine ⟨true, ?_⟩
    rw [Shell.stringPart, if_neg hstop]
    rfl
  | doubleQuoted parts =>
    obtain ⟨quoted, hrun⟩ := run_quotedParts_literal host n d h { value := "" } s
    refine ⟨quoted, ?_⟩
    rw [Shell.stringPart, hrun, String.empty_append]
  | arith e => cases h
  | varRef r => cases h
  | commandSub c => cases h

mutual

/-- `string_expr` gives the joined product in which the alternatives have been
joined already. -/
theorem run_rawWord (w : Word) (h : w.Raw) (s : Interpreter) :
    ∃ quoted, runShell host n d (Shell.stringExpr host w) s =
      some (.ok ⟨" ".intercalate (w.expand joinedTexts), quoted⟩, s) := by
  cases w with
  | string parts =>
    rw [Word.Raw] at h
    obtain ⟨st, hrun, hbase, hraw⟩ := run_rawParts parts h {} s
    refine ⟨st.quoted, ?_⟩
    rw [Shell.stringExpr, runShell_bind, bind_of_ok hrun, StringState.finish, hraw, hbase,
      Word.expand, show ({} : StringState).braceExpansionBase = [""] from rfl, empty_distribute]
    rfl

theorem run_rawParts (ps : List WordPart) (h : RawParts ps) (st : StringState) (s : Interpreter) :
    ∃ st' : StringState, runShell host n d (Shell.wordParts host st ps) s = some (.ok st', s) ∧
      st'.braceExpansionBase = distribute st.braceExpansionBase (expandParts joinedTexts ps) ∧
      st'.isRawString = st.isRawString := by
  cases ps with
  | nil =>
    refine ⟨st, ?_, ?_, rfl⟩
    · rw [Shell.wordParts]
      rfl
    · rw [expandParts, distribute_empty]
  | cons p ps =>
    cases p with
    | part p =>
      rw [RawParts] at h
      obtain ⟨text, htext⟩ := Option.isSome_iff_exists.mp h.1
      obtain ⟨quoted, hpart⟩ := run_literalPart host n d htext s
      obtain ⟨st', hrun, hbase, hraw⟩ := run_rawParts ps h.2 (st.addPart ⟨text, quoted, true⟩) s
      refine ⟨st', ?_, ?_, ?_⟩
      · rw [Shell.wordParts, runShell_bind, bind_of_ok hpart]
        exact hrun
      · rw [hbase, expandParts, htext, ← distribute_assoc]
        exact congrArg (distribute · _) (distribute_singleton _ _).symm
      · rw [hraw]
        exact Bool.and_true _
    | brace elements =>
      rw [RawParts] at h
      have helements := run_rawElements elements h.2.1 s
      obtain ⟨st', hrun, hbase, hraw⟩ := run_rawParts ps h.2.2
        (st.addBrace (expandElements joinedTexts elements)) s
      refine ⟨st', ?_, ?_, hraw⟩
      · rw [Shell.wordParts, runShell_bind, bind_of_ok helements]
        exact hrun
      · rw [hbase, expandParts, ← distribute_assoc]
        rfl

theorem run_rawElements (ws : List Word) (h : RawElements ws) (s : Interpreter) :
    runShell host n d (Shell.braceExpansion host ws) s =
      some (.ok (expandElements joinedTexts ws), s) := by
  cases ws with
  | nil =>
    rw [Shell.braceExpansion, expandElements]
    rfl
  | cons w ws =>
    rw [RawElements] at h
    obtain ⟨quoted, hword⟩ := run_rawWord w h.1 s
    rw [Shell.braceExpansion, runShell_bind, bind_of_ok hword, runShell_bind,
      bind_of_ok (run_rawElements ws h.2 s), expandElements]
    rfl

end

end Run

/-! ## Words and the words within them -/

mutual

theorem Word.induction {P : Word → Prop}
    (string : ∀ parts, (∀ elements, .brace elements ∈ parts → ∀ e ∈ elements, P e) →
      P (.string parts)) (w : Word) : P w := by
  cases w with
  | string parts => exact string parts (parts_induction string parts)

theorem parts_induction {P : Word → Prop}
    (string : ∀ parts, (∀ elements, .brace elements ∈ parts → ∀ e ∈ elements, P e) →
      P (.string parts)) (ps : List WordPart) :
    ∀ elements, .brace elements ∈ ps → ∀ e ∈ elements, P e := by
  cases ps with
  | nil => exact fun elements hmem => absurd hmem List.not_mem_nil
  | cons p ps =>
    cases p with
    | part p =>
      intro elements hmem
      refine parts_induction string ps elements ?_
      exact (List.mem_cons.mp hmem).resolve_left fun heq => WordPart.noConfusion heq
    | brace elements' =>
      intro elements hmem
      rcases List.mem_cons.mp hmem with heq | hrest
      · cases heq
        exact elements_induction string elements'
      · exact parts_induction string ps elements hrest

theorem elements_induction {P : Word → Prop}
    (string : ∀ parts, (∀ elements, .brace elements ∈ parts → ∀ e ∈ elements, P e) →
      P (.string parts)) (ws : List Word) : ∀ e ∈ ws, P e := by
  cases ws with
  | nil => exact fun e he => absurd he List.not_mem_nil
  | cons w ws =>
    intro e he
    rcases List.mem_cons.mp he with heq | hrest
    · exact heq ▸ Word.induction string w
    · exact elements_induction string ws e hrest

end

theorem rawElements_iff (ws : List Word) : RawElements ws ↔ ∀ w ∈ ws, w.Raw := by
  induction ws with
  | nil => exact iff_of_true trivial fun w hw => absurd hw List.not_mem_nil
  | cons w ws ih => rw [RawElements, ih, List.forall_mem_cons]

theorem RawParts.group {ps : List WordPart} (h : RawParts ps) {elements : List Word}
    (hmem : .brace elements ∈ ps) : 2 ≤ elements.length ∧ ∀ e ∈ elements, e.Raw := by
  induction ps with
  | nil => exact absurd hmem List.not_mem_nil
  | cons p ps ih =>
    rcases List.mem_cons.mp hmem with rfl | hrest
    · rw [RawParts, rawElements_iff] at h
      exact ⟨h.1, h.2.1⟩
    · cases p with
      | part p => exact ih (by rw [RawParts] at h; exact h.2) hrest
      | brace elements' => exact ih (by rw [RawParts] at h; exact h.2.2) hrest

/-- A word within another: the word itself, or one within an alternative. -/
inductive Word.Within : Word → Word → Prop
  | refl (w : Word) : Within w w
  | alternative {v e : Word} {parts : List WordPart} {elements : List Word}
      (hgroup : .brace elements ∈ parts) (he : e ∈ elements) (hv : Within v e) :
      Within v (.string parts)

/-- One of the alternatives stands for several words. -/
def Splits (elements : List Word) : Prop := ∃ e ∈ elements, 1 < e.expansions.length

/-- A group that splits has nothing around it: what stands before it expands to empty
texts, and what stands behind it to one. -/
def Word.Alone : Word → Prop
  | .string parts => ∀ before elements after, parts = before ++ .brace elements :: after →
      Splits elements →
        (∀ x ∈ expandParts id before, x = "") ∧ expandParts id after = [""]

/-- A group that splits has empty texts around it, perhaps several. -/
def Word.AmongEmpty : Word → Prop
  | .string parts => ∀ before elements after, parts = before ++ .brace elements :: after →
      Splits elements →
        (∀ x ∈ expandParts id before, x = "") ∧ ∀ x ∈ expandParts id after, x = ""

/-! ## What is lost -/

section Lost

theorem lighter_elements {elements : List Word} (hne : elements ≠ [])
    (h : ∀ e ∈ elements, Lighter (e.expand joinedTexts) e.expansions) :
    Lighter (expandElements joinedTexts elements) (expandElements id elements) := by
  induction elements with
  | nil => exact absurd rfl hne
  | cons e es ih =>
    have hfirst := (h e List.mem_cons_self).joined
    rw [expandElements, expandElements]
    by_cases hes : es = []
    · subst hes
      rw [expandElements, expandElements, List.append_nil, List.append_nil]
      exact hfirst
    · exact hfirst.append (ih hes fun x hx => h x (List.mem_cons_of_mem _ hx))

theorem lighter_parts {ps : List WordPart} (hraw : RawParts ps)
    (h : ∀ elements, .brace elements ∈ ps → ∀ e ∈ elements,
      Lighter (e.expand joinedTexts) e.expansions) :
    Lighter (expandParts joinedTexts ps) (expandParts id ps) := by
  induction ps with
  | nil =>
    rw [expandParts, expandParts]
    exact .refl (List.cons_ne_nil _ _)
  | cons p ps ih =>
    have htail := fun hraw' => ih hraw' fun elements hmem => h elements (List.mem_cons_of_mem _ hmem)
    cases p with
    | part p =>
      rw [RawParts] at hraw
      rw [expandParts, expandParts]
      exact (Lighter.refl (List.cons_ne_nil _ _)).distribute (htail hraw.2)
    | brace elements =>
      have hgroup := hraw.group List.mem_cons_self
      rw [RawParts] at hraw
      rw [expandParts, expandParts]
      refine (lighter_elements ?_ (h elements List.mem_cons_self)).distribute (htail hraw.2.2)
      rintro rfl
      exact absurd hgroup.1 (by decide)

/-- The value is not longer than the joined product. -/
theorem lighter_word (w : Word) (hraw : w.Raw) : Lighter (w.expand joinedTexts) w.expansions := by
  induction w using Word.induction with
  | string parts ih =>
    rw [Word.Raw] at hraw
    rw [Word.expansions, Word.expand, Word.expand]
    exact lighter_parts hraw fun elements hmem e he =>
      ih elements hmem e he ((hraw.group hmem).2 e he)

theorem weight_joinedTexts {l : List String} (h : l ≠ []) : weight (joinedTexts l) = weight l := by
  rw [← length_intercalate_space h]
  exact weight_cons _ _

theorem length_joinedElements (elements : List Word) :
    (expandElements joinedTexts elements).length = elements.length := by
  induction elements with
  | nil =>
    rw [expandElements]
    rfl
  | cons e es ih =>
    rw [expandElements, List.length_append, ih, List.length_cons, Nat.add_comm]
    rfl

/-- A group that splits becomes shorter. -/
theorem length_lt_of_splits {elements : List Word}
    (h : ∀ e ∈ elements, Lighter (e.expand joinedTexts) e.expansions) (hsplits : Splits elements) :
    (expandElements joinedTexts elements).length < (expandElements id elements).length := by
  have hle : ∀ es : List Word, (∀ e ∈ es, Lighter (e.expand joinedTexts) e.expansions) →
      es.length ≤ (expandElements id es).length := by
    intro es hes
    by_cases hnil : es = []
    · rw [hnil]
      exact Nat.zero_le _
    · rw [← length_joinedElements]
      exact (lighter_elements hnil hes).length
  rw [length_joinedElements]
  induction elements with
  | nil =>
    obtain ⟨e, he, -⟩ := hsplits
    exact absurd he List.not_mem_nil
  | cons e es ih =>
    have htail : ∀ x ∈ es, Lighter (x.expand joinedTexts) x.expansions := fun x hx =>
      h x (List.mem_cons_of_mem _ hx)
    have hhead : 1 ≤ e.expansions.length :=
      (List.length_pos_iff.mpr (h e List.mem_cons_self).ne_nil).trans_le
        (h e List.mem_cons_self).length
    rw [expandElements, List.length_append, List.length_cons]
    show es.length + 1 < e.expansions.length + _
    obtain ⟨x, hx, hlong⟩ := hsplits
    rcases List.mem_cons.mp hx with rfl | hx
    · have hrest := hle es htail
      omega
    · have hrest := ih htail ⟨x, hx, hlong⟩
      omega

/-- And so do the parts with it. -/
theorem length_parts_lt {before after : List WordPart} {elements : List Word}
    (hraw : RawParts (before ++ .brace elements :: after))
    (h : ∀ elements', .brace elements' ∈ before ++ .brace elements :: after → ∀ e ∈ elements',
      Lighter (e.expand joinedTexts) e.expansions) (hsplits : Splits elements) :
    (expandParts joinedTexts (before ++ .brace elements :: after)).length <
      (expandParts id (before ++ .brace elements :: after)).length := by
  induction before with
  | nil =>
    rw [List.nil_append] at hraw h ⊢
    have hgroup := length_lt_of_splits (h elements List.mem_cons_self) hsplits
    rw [RawParts] at hraw
    have hafter := lighter_parts hraw.2.2 fun els hmem => h els (List.mem_cons_of_mem _ hmem)
    rw [expandParts, expandParts, length_distribute, length_distribute]
    have hpos := List.length_pos_iff.mpr hafter.ne_nil
    exact Nat.mul_lt_mul_of_lt_of_le hgroup hafter.length (hpos.trans_le hafter.length)
  | cons p before ih =>
    have htail := fun hraw' => ih hraw' fun els hmem => h els (List.mem_cons_of_mem _ hmem)
    rw [List.cons_append] at hraw h ⊢
    cases p with
    | part p =>
      rw [RawParts] at hraw
      rw [expandParts, expandParts, length_distribute, length_distribute, List.length_singleton,
        Nat.one_mul, Nat.one_mul]
      exact htail hraw.2
    | brace els =>
      have hgroup := hraw.group List.mem_cons_self
      rw [RawParts] at hraw
      have hels := lighter_elements (by rintro rfl; exact absurd hgroup.1 (by decide))
        (h els List.mem_cons_self)
      rw [expandParts, expandParts, length_distribute, length_distribute]
      have hpos := List.length_pos_iff.mpr hels.ne_nil
      exact Nat.mul_lt_mul_of_le_of_lt hels.length (htail hraw.2.2) (hpos.trans_le hels.length)

theorem weight_elements_eq {elements : List Word}
    (h : ∀ e ∈ elements, Lighter (e.expand joinedTexts) e.expansions)
    (heq : weight (expandElements joinedTexts elements) = weight (expandElements id elements)) :
    ∀ e ∈ elements, weight (e.expand joinedTexts) = weight e.expansions := by
  induction elements with
  | nil => exact fun e he => absurd he List.not_mem_nil
  | cons e es ih =>
    have hhead := h e List.mem_cons_self
    have htail : ∀ x ∈ es, Lighter (x.expand joinedTexts) x.expansions := fun x hx =>
      h x (List.mem_cons_of_mem _ hx)
    have hrest : weight (expandElements joinedTexts es) ≤ weight (expandElements id es) := by
      by_cases hnil : es = []
      · rw [hnil, expandElements, expandElements]
      · exact (lighter_elements hnil htail).weight
    rw [expandElements, expandElements, weight_append, weight_append,
      weight_joinedTexts hhead.ne_nil] at heq
    have hweight := hhead.weight
    change _ = weight e.expansions + _ at heq
    rw [List.forall_mem_cons]
    exact ⟨by omega, ih htail (by omega)⟩

/-- Where the parts lose nothing, the alternatives lose nothing, and a group that
splits is among empty texts. -/
theorem parts_of_weight_eq {ps : List WordPart} (hraw : RawParts ps)
    (h : ∀ elements, .brace elements ∈ ps → ∀ e ∈ elements,
      Lighter (e.expand joinedTexts) e.expansions)
    (heq : weight (expandParts joinedTexts ps) = weight (expandParts id ps)) :
    (∀ elements, .brace elements ∈ ps → ∀ e ∈ elements,
        weight (e.expand joinedTexts) = weight e.expansions) ∧
      Word.AmongEmpty (.string ps) := by
  induction ps with
  | nil =>
    exact ⟨fun elements hmem => absurd hmem List.not_mem_nil,
      fun before elements after hsplit => absurd hsplit (by simp)⟩
  | cons p ps ih =>
    have htail : ∀ elements, .brace elements ∈ ps → ∀ e ∈ elements,
        Lighter (e.expand joinedTexts) e.expansions := fun elements hmem =>
      h elements (List.mem_cons_of_mem _ hmem)
    -- The weights of the products are equal only if those of both factors are.
    cases p with
    | part p =>
      rw [RawParts] at hraw
      rw [expandParts, expandParts] at heq
      obtain ⟨-, hweight, -, hempty⟩ := (Lighter.refl (List.cons_ne_nil _ _)).of_weight_distribute
        (lighter_parts hraw.2 htail) heq
      obtain ⟨hweights, hamong⟩ := ih hraw.2 htail hweight
      refine ⟨fun elements hmem => hweights elements ?_, fun before elements after hsplit hs => ?_⟩
      · exact (List.mem_cons.mp hmem).resolve_left fun heq => WordPart.noConfusion heq
      · cases before with
        | nil => cases hsplit
        | cons q before =>
          obtain ⟨rfl, rfl⟩ := List.cons.inj hsplit
          obtain ⟨hbefore, hafter⟩ := hamong before elements after rfl hs
          rw [expandParts]
          exact ⟨distribute_all_empty (hempty (length_parts_lt hraw.2 htail hs)) hbefore, hafter⟩
    | brace els =>
      have hgroup := hraw.group List.mem_cons_self
      have hels := h els List.mem_cons_self
      have hne : els ≠ [] := by
        rintro rfl
        exact absurd hgroup.1 (by decide)
      rw [RawParts] at hraw
      rw [expandParts, expandParts] at heq
      obtain ⟨hweight', hweight, hfirst, hempty⟩ :=
        (lighter_elements hne hels).of_weight_distribute (lighter_parts hraw.2.2 htail) heq
      obtain ⟨hweights, hamong⟩ := ih hraw.2.2 htail hweight
      refine ⟨fun elements hmem => ?_, fun before elements after hsplit hs => ?_⟩
      · rcases List.mem_cons.mp hmem with heq | hrest
        · cases heq
          exact weight_elements_eq hels hweight'
        · exact hweights elements hrest
      · cases before with
        | nil =>
          obtain ⟨hbrace, rfl⟩ := List.cons.inj hsplit
          cases hbrace
          rw [expandParts]
          exact ⟨fun x hx => List.mem_singleton.mp hx, hfirst (length_lt_of_splits hels hs)⟩
        | cons q before =>
          obtain ⟨rfl, rfl⟩ := List.cons.inj hsplit
          obtain ⟨hbefore, hafter⟩ := hamong before elements after rfl hs
          rw [expandParts]
          exact ⟨distribute_all_empty (hempty (length_parts_lt hraw.2.2 htail hs)) hbefore, hafter⟩

/-- A word that loses nothing has empty texts around every group that splits, at any
depth. -/
theorem amongEmpty_of_weight_eq (w : Word) (hraw : w.Raw)
    (heq : weight (w.expand joinedTexts) = weight w.expansions) :
    ∀ v, Word.Within v w → v.AmongEmpty := by
  induction w using Word.induction with
  | string parts ih =>
    rw [Word.Raw] at hraw
    rw [Word.expansions, Word.expand, Word.expand] at heq
    obtain ⟨hweights, hamong⟩ := parts_of_weight_eq hraw
      (fun elements hmem e he => lighter_word e ((hraw.group hmem).2 e he)) heq
    intro v hv
    cases hv with
    | refl => exact hamong
    | alternative hgroup he hv =>
      exact ih _ hgroup _ he ((hraw.group hgroup).2 _ he) (hweights _ hgroup _ he) v hv

end Lost

/-! ## What is kept -/

section Kept

theorem expandParts_append (inner : List String → List String) (ps qs : List WordPart) :
    expandParts inner (ps ++ qs) = distribute (expandParts inner ps) (expandParts inner qs) := by
  induction ps with
  | nil => rw [List.nil_append, expandParts, empty_distribute]
  | cons p ps ih =>
    rw [List.cons_append]
    cases p with
    | part p => rw [expandParts, expandParts, ih, distribute_assoc]
    | brace els => rw [expandParts, expandParts, ih, distribute_assoc]

theorem rawParts_append (ps qs : List WordPart) :
    RawParts (ps ++ qs) ↔ RawParts ps ∧ RawParts qs := by
  induction ps with
  | nil => exact (and_iff_right trivial).symm
  | cons p ps ih =>
    rw [List.cons_append]
    cases p with
    | part p => rw [RawParts, RawParts, ih, and_assoc]
    | brace els => rw [RawParts, RawParts, ih, and_assoc, and_assoc]

/-- Nothing but the empty text is as light. -/
theorem eq_of_lighter_empty {l : List String} (h : Lighter l [""]) : l = [""] := by
  have hlength := h.length
  have hweight := h.weight
  obtain ⟨x, xs, rfl⟩ := List.exists_cons_of_ne_nil h.ne_nil
  cases xs with
  | nil =>
    rw [weight_cons, weight_cons] at hweight
    have hx : x = "" := String.length_eq_zero_iff.mp (by simpa using hweight)
    rw [hx]
  | cons y ys => exact absurd hlength (by simp)

/-- Where no group splits, nothing is joined. -/
theorem expandElements_of_not_splits {elements : List Word} (h : ¬ Splits elements)
    (hl : ∀ e ∈ elements, Lighter (e.expand joinedTexts) e.expansions)
    (heq : ∀ e ∈ elements, " ".intercalate (e.expand joinedTexts) = " ".intercalate e.expansions) :
    expandElements joinedTexts elements = expandElements id elements := by
  induction elements with
  | nil => rw [expandElements, expandElements]
  | cons e es ih =>
    have hhead := hl e List.mem_cons_self
    have hshort : e.expansions.length ≤ 1 := by
      by_contra hlong
      exact h ⟨e, List.mem_cons_self, not_le.mp hlong⟩
    have hpos := List.length_pos_iff.mpr hhead.ne_nil
    obtain ⟨x, hx⟩ := List.length_eq_one_iff.mp (le_antisymm hshort (hpos.trans_le hhead.length))
    have hone : joinedTexts (e.expand joinedTexts) = id (e.expand id) := by
      show [" ".intercalate (e.expand joinedTexts)] = e.expansions
      rw [heq e List.mem_cons_self, hx, String.intercalate_singleton]
    rw [expandElements, expandElements, hone, ih]
    · exact fun ⟨y, hy, hlong⟩ => h ⟨y, List.mem_cons_of_mem _ hy, hlong⟩
    · exact fun y hy => hl y (List.mem_cons_of_mem _ hy)
    · exact fun y hy => heq y (List.mem_cons_of_mem _ hy)

theorem expandParts_of_not_splits {ps : List WordPart}
    (h : ∀ elements, .brace elements ∈ ps → ¬ Splits elements)
    (hl : ∀ elements, .brace elements ∈ ps → ∀ e ∈ elements,
      Lighter (e.expand joinedTexts) e.expansions)
    (heq : ∀ elements, .brace elements ∈ ps → ∀ e ∈ elements,
      " ".intercalate (e.expand joinedTexts) = " ".intercalate e.expansions) :
    expandParts joinedTexts ps = expandParts id ps := by
  induction ps with
  | nil => rw [expandParts, expandParts]
  | cons p ps ih =>
    have htail := ih (fun els hmem => h els (List.mem_cons_of_mem _ hmem))
      (fun els hmem => hl els (List.mem_cons_of_mem _ hmem))
      (fun els hmem => heq els (List.mem_cons_of_mem _ hmem))
    cases p with
    | part p => rw [expandParts, expandParts, htail]
    | brace els =>
      rw [expandParts, expandParts, htail, expandElements_of_not_splits (h els List.mem_cons_self)
        (hl els List.mem_cons_self) (heq els List.mem_cons_self)]

/-- A group alone is joined as its alternatives are. -/
theorem intercalate_elements {elements : List Word}
    (hl : ∀ e ∈ elements, Lighter (e.expand joinedTexts) e.expansions)
    (heq : ∀ e ∈ elements, " ".intercalate (e.expand joinedTexts) = " ".intercalate e.expansions) :
    " ".intercalate (expandElements joinedTexts elements) =
      " ".intercalate (expandElements id elements) := by
  induction elements with
  | nil => rw [expandElements, expandElements]
  | cons e es ih =>
    have hhead := hl e List.mem_cons_self
    have hhere := heq e List.mem_cons_self
    have htail : ∀ x ∈ es, Lighter (x.expand joinedTexts) x.expansions := fun x hx =>
      hl x (List.mem_cons_of_mem _ hx)
    rw [expandElements, expandElements]
    show " ".intercalate ([_] ++ _) = " ".intercalate (e.expansions ++ _)
    have hne : e.expansions ≠ [] :=
      List.length_pos_iff.mp ((List.length_pos_iff.mpr hhead.ne_nil).trans_le hhead.length)
    by_cases hes : es = []
    · subst hes
      rw [expandElements, expandElements, List.append_nil, List.append_nil,
        String.intercalate_singleton, hhere]
    · have hlighter := lighter_elements hes htail
      have hrest : expandElements id es ≠ [] :=
        List.length_pos_iff.mp ((List.length_pos_iff.mpr hlighter.ne_nil).trans_le hlighter.length)
      rw [intercalate_append_space (List.cons_ne_nil _ _) hlighter.ne_nil,
        intercalate_append_space hne hrest, String.intercalate_singleton, hhere,
        ih htail fun x hx => heq x (List.mem_cons_of_mem _ hx)]

/-- Where every group that splits is alone, the value is the joined product. -/
theorem intercalate_of_alone (w : Word) (hraw : w.Raw) (h : ∀ v, Word.Within v w → v.Alone) :
    " ".intercalate (w.expand joinedTexts) = " ".intercalate w.expansions := by
  induction w using Word.induction with
  | string parts ih =>
    rw [Word.Raw] at hraw
    have hl : ∀ elements, .brace elements ∈ parts → ∀ e ∈ elements,
        Lighter (e.expand joinedTexts) e.expansions := fun elements hmem e he =>
      lighter_word e ((hraw.group hmem).2 e he)
    have heq : ∀ elements, .brace elements ∈ parts → ∀ e ∈ elements,
        " ".intercalate (e.expand joinedTexts) = " ".intercalate e.expansions :=
      fun elements hmem e he => ih elements hmem e he ((hraw.group hmem).2 e he) fun v hv =>
        h v (.alternative hmem he hv)
    have halone : Word.Alone (.string parts) := h _ (.refl _)
    rw [Word.expansions, Word.expand, Word.expand]
    by_cases hsplit : ∃ elements, .brace elements ∈ parts ∧ Splits elements
    · obtain ⟨elements, hmem, hs⟩ := hsplit
      obtain ⟨before, after, rfl⟩ := List.append_of_mem hmem
      obtain ⟨hbefore, hafter⟩ := halone before elements after rfl hs
      obtain ⟨hrawb, hrawg⟩ := (rawParts_append _ _).mp hraw
      have hgroup := hrawg.group List.mem_cons_self
      rw [RawParts] at hrawg
      have hkeep : expandParts joinedTexts after = [""] := by
        refine eq_of_lighter_empty ?_
        rw [← hafter]
        exact lighter_parts hrawg.2.2 fun els hmem =>
          hl els (List.mem_append_right _ (List.mem_cons_of_mem _ hmem))
      have hfirst : expandParts joinedTexts before = expandParts id before := by
        refine expandParts_of_not_splits (fun els hels hsplits => ?_)
          (fun els hmem => hl els (List.mem_append_left _ hmem))
          (fun els hmem => heq els (List.mem_append_left _ hmem))
        -- a group before this one has this one behind it
        obtain ⟨b, b', rfl⟩ := List.append_of_mem hels
        have hbehind := (halone b els (b' ++ .brace elements :: after)
          (by rw [List.append_assoc, List.cons_append]) hsplits).2
        have hrest := ((rawParts_append _ _).mp hrawb).2
        rw [RawParts] at hrest
        have hrawRest : RawParts (b' ++ .brace elements :: after) :=
          (rawParts_append _ _).mpr ⟨hrest.2.2, by
            rw [RawParts]
            exact hrawg⟩
        have hlRest : ∀ els', .brace els' ∈ b' ++ .brace elements :: after → ∀ e ∈ els',
            Lighter (e.expand joinedTexts) e.expansions := by
          intro els' hmem
          refine hl els' ?_
          rcases List.mem_append.mp hmem with hmem | hmem
          · exact List.mem_append_left _ (List.mem_append_right _ (List.mem_cons_of_mem _ hmem))
          · exact List.mem_append_right _ hmem
        have hlt := length_parts_lt hrawRest hlRest hs
        rw [hbehind, List.length_singleton, Nat.lt_one_iff, List.length_eq_zero_iff] at hlt
        exact (lighter_parts hrawRest hlRest).ne_nil hlt
      have hels := hl elements hmem
      have hne : elements ≠ [] := by
        rintro rfl
        exact absurd hgroup.1 (by decide)
      have hlighter := lighter_elements hne hels
      rw [expandParts_append, expandParts_append, expandParts, expandParts, hkeep, hafter,
        distribute_empty, distribute_empty, hfirst]
      exact intercalate_distribute_empty hbefore
        (List.length_pos_iff.mp ((List.length_pos_iff.mpr hlighter.ne_nil).trans_le hlighter.length))
        hlighter.ne_nil (intercalate_elements hels (heq elements hmem))
    · rw [expandParts_of_not_splits (fun elements hmem hs => hsplit ⟨elements, hmem, hs⟩) hl heq]

end Kept

/-- For every word of literal parts and groups, nested to any depth. A group that
splits and is alone is distributed, and one that is distributed has only empty texts
around it. -/
theorem distributes_alone (host : Host) (n d : Nat) (w : Word) (hraw : w.Raw) (s : Interpreter) :
    ((∀ v, Word.Within v w → v.Alone) →
      ∃ quoted, runShell host n d (Shell.stringExpr host w) s =
        some (.ok ⟨" ".intercalate w.expansions, quoted⟩, s)) ∧
    ((∃ quoted, runShell host n d (Shell.stringExpr host w) s =
        some (.ok ⟨" ".intercalate w.expansions, quoted⟩, s)) →
      ∀ v, Word.Within v w → v.AmongEmpty) := by
  obtain ⟨quoted, hrun⟩ := run_rawWord host n d w hraw s
  constructor
  · intro h
    exact ⟨quoted, by rw [hrun, intercalate_of_alone w hraw h]⟩
  · rintro ⟨quoted', hvalue⟩
    rw [hrun] at hvalue
    have htexts := (StringValue.mk.inj (Except.ok.inj (Prod.mk.inj (Option.some.inj hvalue)).1)).1
    have hlighter := lighter_word w hraw
    have hne : w.expansions ≠ [] :=
      List.length_pos_iff.mp ((List.length_pos_iff.mpr hlighter.ne_nil).trans_le hlighter.length)
    refine amongEmpty_of_weight_eq w hraw ?_
    rw [← length_intercalate_space hlighter.ne_nil, htexts, length_intercalate_space hne]

/-- A word without groups. -/
def wordOf (text : String) : Word := .string [.part (.text text)]

/-- `{{a,b},c}`. -/
def nestedAlone : Word :=
  .string [.brace [.string [.brace [wordOf "a", wordOf "b"]], wordOf "c"]]

/-- `install{{site,vendor}{arch,lib},archlib}`. -/
def installWord : Word :=
  .string [.part (.text "install"),
    .brace [.string [.brace [wordOf "site", wordOf "vendor"], .brace [wordOf "arch", wordOf "lib"]],
      wordOf "archlib"]]

theorem raw_nestedAlone : nestedAlone.Raw := by
  simp [nestedAlone, wordOf, Word.Raw, RawParts, RawElements, StringPart.literal?]

theorem raw_installWord : installWord.Raw := by
  simp [installWord, wordOf, Word.Raw, RawParts, RawElements, StringPart.literal?]

theorem distributes_alone_nested :
    ((∀ v, Word.Within v nestedAlone → v.Alone) →
      ∃ quoted, runShell (.ofTexts [] []) 0 0 (Shell.stringExpr (.ofTexts [] []) nestedAlone)
        (.initial []) = some (.ok ⟨" ".intercalate nestedAlone.expansions, quoted⟩, .initial [])) ∧
    ((∃ quoted, runShell (.ofTexts [] []) 0 0 (Shell.stringExpr (.ofTexts [] []) nestedAlone)
        (.initial []) = some (.ok ⟨" ".intercalate nestedAlone.expansions, quoted⟩, .initial [])) →
      ∀ v, Word.Within v nestedAlone → v.AmongEmpty) :=
  distributes_alone (.ofTexts [] []) 0 0 nestedAlone raw_nestedAlone (.initial [])

/-- `install` stands before the first word of the nested group only. -/
theorem not_distributes_install :
    (∃ quoted, runShell (.ofTexts [] []) 0 0 (Shell.stringExpr (.ofTexts [] []) installWord)
        (.initial []) = some (.ok
          ⟨"installsitearch sitelib vendorarch vendorlib installarchlib", quoted⟩, .initial [])) ∧
      installWord.expansions = ["installsitearch", "installsitelib", "installvendorarch",
        "installvendorlib", "installarchlib"] ∧
      ¬∀ (host : Host) (n d : Nat) (w : Word) (s : Interpreter), w.Raw →
        ∃ quoted, runShell host n d (Shell.stringExpr host w) s =
          some (.ok ⟨" ".intercalate w.expansions, quoted⟩, s) := by
  have hcode : " ".intercalate (installWord.expand joinedTexts) =
      "installsitearch sitelib vendorarch vendorlib installarchlib" := by decide +kernel
  have hspec : installWord.expansions = ["installsitearch", "installsitelib", "installvendorarch",
      "installvendorlib", "installarchlib"] := by decide +kernel
  obtain ⟨quoted, hrun⟩ := run_rawWord (.ofTexts [] []) 0 0 installWord
    raw_installWord (.initial [])
  rw [hcode] at hrun
  refine ⟨⟨quoted, hrun⟩, hspec, fun h => ?_⟩
  obtain ⟨quoted', hvalue⟩ := h (.ofTexts [] []) 0 0 installWord (.initial []) raw_installWord
  rw [hrun, hspec] at hvalue
  have htexts := (StringValue.mk.inj (Except.ok.inj (Prod.mk.inj (Option.some.inj hvalue)).1)).1
  exact absurd htexts (by decide)

end Libbash
