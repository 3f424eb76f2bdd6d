import Mathlib.Data.List.Basic

/-!
# Character classes

What stands between the brackets of a character class: characters, the names of
classes, and hyphens, which make a range of the characters around them. `readClass`
reads the syntax of Perl's regular expressions, with the escapes of single characters.

* **`tokensSet`** — the characters that a class stands for;
* **`readClass_pasted`** — a class that is written with ordinary characters is read as
  it is written.
-/

namespace Lib

inductive ClassToken where
  | char (c : Char)
  | hyphen
  /-- `[:name:]`. -/
  | named (name : String)
  deriving DecidableEq

/-- The classes that have a name, in the C locale. -/
def namedClass : String → Option (Char → Bool)
  | "alnum" => some Char.isAlphanum
  | "alpha" => some Char.isAlpha
  | "blank" => some fun c => c == ' ' || c == '\t'
  | "cntrl" => some fun c => decide (c.toNat < 32) || c.toNat == 127
  | "digit" => some Char.isDigit
  | "graph" => some fun c => decide (33 ≤ c.toNat) && decide (c.toNat ≤ 126)
  | "lower" => some Char.isLower
  | "print" => some fun c => decide (32 ≤ c.toNat) && decide (c.toNat ≤ 126)
  | "punct" => some fun c => decide (33 ≤ c.toNat) && decide (c.toNat ≤ 126) && !c.isAlphanum
  | "space" => some fun c => c == ' ' || decide (9 ≤ c.toNat) && decide (c.toNat ≤ 13)
  | "upper" => some Char.isUpper
  | "xdigit" => some fun c =>
    c.isDigit || decide ('a' ≤ c) && decide (c ≤ 'f') || decide ('A' ≤ c) && decide (c ≤ 'F')
  | _ => none

namespace ClassToken

/-- The character that stands at the end of a range. -/
def char? : ClassToken → Option Char
  | char c => some c
  | hyphen => some '-'
  | named _ => none

/-- The characters that a token stands for which is not in a range. -/
def accepts (classes : String → Char → Bool) : ClassToken → Char → Bool
  | char a, c => c == a
  | hyphen, c => c == '-'
  | named name, c => classes name c

end ClassToken

/-- The characters between two tokens. -/
def range (t t' : ClassToken) : Option (Char × Char) :=
  match t.char?, t'.char? with
  | some a, some b => some (a, b)
  | _, _ => none

/-- The characters that the tokens of a class stand for. -/
def tokensSet (classes : String → Char → Bool) : List ClassToken → Char → Bool
  | [], _ => false
  | t :: .hyphen :: t' :: l, c =>
    match range t t' with
    | some (a, b) => decide (a ≤ c) && decide (c ≤ b) || tokensSet classes l c
    | none => t.accepts classes c || tokensSet classes (.hyphen :: t' :: l) c
  | t :: l, c => t.accepts classes c || tokensSet classes l c

theorem accepts_congr {classes classes' : String → Char → Bool} {t : ClassToken}
    (h : ∀ name, t = .named name → classes name = classes' name) (c : Char) :
    t.accepts classes c = t.accepts classes' c := by
  cases t with
  | char | hyphen => rfl
  | named name => exact congrFun (h name rfl) c

theorem tokensSet_congr {classes classes' : String → Char → Bool} {ts : List ClassToken}
    (h : ∀ name, .named name ∈ ts → classes name = classes' name) (c : Char) :
    tokensSet classes ts c = tokensSet classes' ts c := by
  fun_induction tokensSet classes ts c with
  | case1 => rfl
  | case2 c t t' l a b hrange ih =>
    rw [tokensSet, hrange, ih fun name hname =>
      h name (List.mem_cons_of_mem _ (List.mem_cons_of_mem _ (List.mem_cons_of_mem _ hname)))]
  | case3 c t t' l hrange ih =>
    rw [tokensSet, hrange, ih fun name hname => h name (List.mem_cons_of_mem _ hname),
      accepts_congr fun name ht => h name (ht ▸ List.mem_cons_self)]
  | case4 c t l hnot ih =>
    rw [tokensSet, ih fun name hname => h name (List.mem_cons_of_mem _ hname),
      accepts_congr fun name ht => h name (ht ▸ List.mem_cons_self)]
    exact hnot

/-- No range is empty. -/
def ordered : List ClassToken → Bool
  | [] => true
  | t :: .hyphen :: t' :: l =>
    match range t t' with
    | some (a, b) => decide (a ≤ b) && ordered l
    | none => ordered (.hyphen :: t' :: l)
  | _ :: l => ordered l

/-! ## Reading -/

inductive ReadMode where
  /-- Before the first token, or after it. -/
  | items (first : Bool)
  /-- In the name of a class, with the letters of it that have been read. -/
  | name (letters : List Char)

def hexDigit (c : Char) : Option Nat :=
  if c.isDigit then some (c.toNat - '0'.toNat)
  else if 'a' ≤ c ∧ c ≤ 'f' then some (c.toNat - 'a'.toNat + 10)
  else if 'A' ≤ c ∧ c ≤ 'F' then some (c.toNat - 'A'.toNat + 10)
  else none

/-- The tokens up to the bracket that ends the class, which is the end of the text. The
escapes of letters and digits are not read, but for `\x`. -/
def readTokens : ReadMode → List Char → Option (List ClassToken)
  | _, [] => none
  | .name letters, ':' :: ']' :: l =>
    (readTokens (.items false) l).map (.named (String.ofList letters.reverse) :: ·)
  | .name letters, c :: l => if c.isLower then readTokens (.name (c :: letters)) l else none
  | .items true, ']' :: l => (readTokens (.items false) l).map (.char ']' :: ·)
  | .items false, ']' :: l => if l.isEmpty then some [] else none
  | .items _, '[' :: ':' :: l => readTokens (.name []) l
  | .items _, '[' :: '.' :: _ => none
  | .items _, '[' :: '=' :: _ => none
  | .items _, '\\' :: 'x' :: h :: h' :: l =>
    match hexDigit h, hexDigit h' with
    | some i, some j => (readTokens (.items false) l).map (.char (Char.ofNat (16 * i + j)) :: ·)
    | _, _ => none
  | .items _, '\\' :: c :: l =>
    if c.isAlphanum then none else (readTokens (.items false) l).map (.char c :: ·)
  | .items _, '-' :: l => (readTokens (.items false) l).map (.hyphen :: ·)
  | .items _, c :: l => (readTokens (.items false) l).map (.char c :: ·)

/-- Whether the class is negated, and its tokens. -/
def readClass : List Char → Option (Bool × List ClassToken)
  | '[' :: '^' :: l => (readTokens (.items true) l).map (true, ·)
  | '[' :: l => (readTokens (.items true) l).map (false, ·)
  | _ => none

/-- The name of a class is known. -/
def ClassToken.known : ClassToken → Bool
  | named name => (namedClass name).isSome
  | char _ | hyphen => true

def knownSet (name : String) (c : Char) : Bool := ((namedClass name).getD fun _ => false) c

/-- The characters that a class in Perl's syntax matches. -/
def perlClass (text : List Char) : Option (Char → Bool) :=
  match readClass text with
  | some (negation, ts) =>
    if ordered ts && ts.all ClassToken.known then some fun c => tokensSet knownSet ts c != negation
    else none
  | none => none

/-! ## Writing -/

namespace ClassToken

/-- How a token is written. -/
def pasted : ClassToken → List Char
  | char c => [c]
  | hyphen => ['-']
  | named name => '[' :: ':' :: (name.toList ++ [':', ']'])

/-- The token does not use a character that has another meaning at its place. -/
def Ordinary : ClassToken → Prop
  | char c => c ≠ '[' ∧ c ≠ ']' ∧ c ≠ '\\' ∧ c ≠ '-' ∧ c ≠ '^'
  | hyphen => True
  | named name => (namedClass name).isSome = true

end ClassToken

theorem readTokens_name {name : List Char} (hname : ∀ c ∈ name, c.isLower = true)
    (letters l : List Char) :
    readTokens (.name letters) (name ++ ':' :: ']' :: l) =
      (readTokens (.items false) l).map
        (.named (String.ofList (letters.reverse ++ name)) :: ·) := by
  induction name generalizing letters with
  | nil => rw [List.nil_append, readTokens, List.append_nil]
  | cons c name ih =>
    obtain ⟨hc, hrest⟩ := List.forall_mem_cons.mp hname
    have hcolon : c ≠ ':' := by
      rintro rfl
      exact absurd hc (by decide)
    have hread := ih hrest (c :: letters)
    rw [List.reverse_cons, List.append_assoc, List.singleton_append] at hread
    rw [List.cons_append, readTokens, if_pos hc, hread]
    exact fun _ h => absurd h hcolon

theorem isLower_of_named {name : String} (h : (namedClass name).isSome = true) :
    ∀ c ∈ name.toList, c.isLower = true := by
  rw [← List.all_eq_true]
  unfold namedClass at h
  split at h
  all_goals first | rfl | cases h

theorem readTokens_ordinary {t : ClassToken} (h : t.Ordinary) (first : Bool) (l : List Char) :
    readTokens (.items first) (t.pasted ++ l) = (readTokens (.items false) l).map (t :: ·) := by
  cases t with
  | char c =>
    obtain ⟨hopen, hclose, hescape, hhyphen, -⟩ := h
    show readTokens (.items first) (c :: l) = _
    rw [readTokens] <;> simp_all
  | hyphen =>
    show readTokens (.items first) ('-' :: l) = _
    rw [readTokens]
  | named name =>
    show readTokens (.items first) ('[' :: ':' :: (name.toList ++ [':', ']'] ++ l)) = _
    rw [readTokens, List.append_assoc]
    exact (readTokens_name (isLower_of_named h) [] l).trans (by simp)

theorem readTokens_pasted {ts : List ClassToken} (h : ∀ t ∈ ts, t.Ordinary) :
    readTokens (.items false) (ts.flatMap ClassToken.pasted ++ [']']) = some ts := by
  induction ts with
  | nil => rfl
  | cons t ts ih =>
    obtain ⟨ht, hts⟩ := List.forall_mem_cons.mp h
    rw [List.flatMap_cons, List.append_assoc, readTokens_ordinary ht, ih hts]
    rfl

theorem pasted_ne_caret {t : ClassToken} (h : t.Ordinary) (l l' : List Char) :
    t.pasted ++ l ≠ '^' :: l' := by
  intro heq
  have hhead := congrArg List.head? heq
  cases t with
  | char c => exact h.2.2.2.2 (Option.some.inj hhead)
  | hyphen => cases hhead
  | named name => cases hhead

/-- A class of ordinary tokens is read as it is written. -/
theorem readClass_pasted (negation : Bool) {t : ClassToken} {ts : List ClassToken}
    (h : ∀ t' ∈ t :: ts, t'.Ordinary) :
    readClass ((if negation then ['[', '^'] else ['[']) ++
      ((t :: ts).flatMap ClassToken.pasted ++ [']'])) = some (negation, t :: ts) := by
  obtain ⟨ht, hts⟩ := List.forall_mem_cons.mp h
  rw [List.flatMap_cons, List.append_assoc]
  have hread : readTokens (.items true) (t.pasted ++ (ts.flatMap ClassToken.pasted ++ [']'])) =
      some (t :: ts) := by
    rw [readTokens_ordinary ht, readTokens_pasted hts]
    rfl
  have hfirst := pasted_ne_caret ht (ts.flatMap ClassToken.pasted ++ [']'])
  revert hread hfirst
  generalize t.pasted ++ (ts.flatMap ClassToken.pasted ++ [']']) = u
  intro hread hfirst
  cases negation with
  | true =>
    show readClass ('[' :: '^' :: u) = _
    rw [readClass, hread]
    rfl
  | false =>
    show readClass ('[' :: u) = _
    rw [readClass, hread]
    · rfl
    · exact hfirst

end Lib
