import Libbash.Interp.Api

/-!
# Patterns

The trees that `bash_pattern` and `composite_pattern` walk, and what evaluating them
leaves: `run_bashPattern` and `run_compositePattern` say that the rules, which read the
tokens of a tree, evaluate the tree (`glob`, `compositePattern`).
-/

namespace Libbash

open Lib Lib.Comp Lib.Program

/-! ## Trees -/

/-- `( .. )+`. -/
structure OneOrMore (α : Type) where
  first : α
  others : List α

namespace OneOrMore

variable {α β γ : Type}

def toList (l : OneOrMore α) : List α := l.first :: l.others

/-- The elements combined one after the other, from the first on. -/
def combine (f : β → β → β) (g : α → β) (l : OneOrMore α) : β :=
  l.others.foldl (fun b a => f b (g a)) (g l.first)

theorem combine_hom (φ : β → γ) {f : β → β → β} (f' : γ → γ → γ)
    (h : ∀ b b', φ (f b b') = f' (φ b) (φ b')) (g : α → β) (l : OneOrMore α) :
    φ (l.combine f g) = l.combine f' fun a => φ (g a) :=
  (List.foldl_hom φ fun b a => (h b (g a)).symm).symm

theorem combine_congr {f : β → β → β} {g g' : α → β} (l : OneOrMore α)
    (h : ∀ a ∈ l.toList, g a = g' a) : l.combine f g = l.combine f g' := by
  unfold combine
  rw [h l.first List.mem_cons_self]
  refine List.foldl_ext _ _ _ fun b a ha => ?_
  rw [h a (List.mem_cons_of_mem _ ha)]

theorem forall_combine {f : β → β → β} {g : α → β} {P : β → Prop}
    (h : ∀ b b', P b → P b' → P (f b b')) (l : OneOrMore α) (hg : ∀ a ∈ l.toList, P (g a)) :
    P (l.combine f g) := by
  unfold combine
  have hfirst := hg l.first List.mem_cons_self
  have hothers : ∀ a ∈ l.others, P (g a) := fun a ha => hg a (List.mem_cons_of_mem _ ha)
  clear hg
  generalize g l.first = b at hfirst
  revert hothers
  induction l.others generalizing b with
  | nil => exact fun _ => hfirst
  | cons a l ih =>
    intro hothers
    exact ih _ (h b (g a) hfirst (hothers a List.mem_cons_self))
      fun a' ha' => hothers a' (List.mem_cons_of_mem _ ha')

end OneOrMore

/-- The extended patterns that are supported. -/
inductive Quantifier where
  | atMostOne | any | atLeastOne | exactlyOne
  deriving DecidableEq

def Quantifier.kind : Quantifier → ExtendedMatch
  | atMostOne => .atMostOne
  | any => .any
  | atLeastOne => .atLeastOne
  | exactlyOne => .exactlyOne

/-- `basic_pattern`, with what stands for a bracket expression and for a text. -/
inductive BasicPattern (B T : Type) where
  | matchAll
  | matchOne
  | bracket (b : B)
  | part (t : T)

/-- A node of `bash_pattern`; a branch of an extended pattern has no other in it. -/
inductive PatternItem (B T : Type) where
  | basic (b : BasicPattern B T)
  | extended (kind : Quantifier) (branches : OneOrMore (OneOrMore (BasicPattern B T)))

/-- A node of a bracket expression. -/
inductive BracketPart where
  | characterClass (libbashName : String)
  | part (p : StringPart)

/-- `MATCH_ANY`, or `MATCH_ANY_EXCEPT` when `negation` is set. -/
structure BracketTree where
  negation : Bool
  parts : OneOrMore BracketPart

/-- A node of a bracket expression that has been evaluated. -/
inductive Member where
  | characterClass (libbashName : String)
  | text (value : String) (quoted : Bool)

structure CharacterSet where
  negation : Bool
  members : OneOrMore Member

/-- The pattern of `bash_pattern`. -/
abbrev PatternTree := OneOrMore (PatternItem BracketTree StringPart)

/-- The patterns of `composite_pattern`. -/
abbrev CompositeTree := OneOrMore (OneOrMore (BasicPattern BracketTree StringPart))

/-- A text that has been evaluated. -/
structure Fragment where
  value : String
  quoted : Bool

abbrev Piece := BasicPattern CharacterSet Fragment

/-- A pattern whose parts have been evaluated. -/
abbrev Glob := OneOrMore (PatternItem CharacterSet Fragment)

abbrev Composite := OneOrMore (OneOrMore Piece)

/-- What is pasted into the text of a bracket expression. -/
def Member.pasted : Member → String
  | characterClass name => Shell.characterClass name
  | text value _ => value

/-- `pattern_str`. -/
def CharacterSet.text (b : CharacterSet) : String :=
  b.members.toList.foldl (fun text m => text ++ m.pasted) (if b.negation then "[^" else "[") ++ "]"

/-- The bracket expressions of a pattern. -/
def BasicPattern.brackets {B T : Type} : BasicPattern B T → List B
  | bracket b => [b]
  | matchAll | matchOne | part _ => []

def Composite.brackets (E : Composite) : List CharacterSet :=
  E.toList.flatMap fun b => b.toList.flatMap BasicPattern.brackets

def PatternItem.brackets : PatternItem CharacterSet Fragment → List CharacterSet
  | basic b => b.brackets
  | extended _ branches => Composite.brackets branches

def Glob.brackets (E : Glob) : List CharacterSet := E.toList.flatMap PatternItem.brackets

/-! ## Tokens -/

/-- How a tree is written as a list of tokens. -/
structure TokenStyle (B T τ : Type) where
  matchAll : τ
  matchOne : τ
  bracket : B → List τ
  part : T → τ
  openExtended : ExtendedMatch → τ
  closeExtended : ExtendedMatch → τ
  branch : τ

section Tokens

variable {B T τ : Type} (style : TokenStyle B T τ)

def BasicPattern.tokens : BasicPattern B T → List τ
  | matchAll => [style.matchAll]
  | matchOne => [style.matchOne]
  | bracket b => style.bracket b
  | part t => [style.part t]

def branchTokens (b : OneOrMore (BasicPattern B T)) : List τ :=
  style.branch :: b.toList.flatMap (BasicPattern.tokens style)

def compositeTokens (bs : OneOrMore (OneOrMore (BasicPattern B T))) : List τ :=
  bs.toList.flatMap (branchTokens style)

def PatternItem.tokens : PatternItem B T → List τ
  | basic b => b.tokens style
  | extended kind branches =>
    style.openExtended kind.kind :: compositeTokens style branches ++
      [style.closeExtended kind.kind]

def patternTokens (p : OneOrMore (PatternItem B T)) : List τ :=
  p.toList.flatMap (PatternItem.tokens style)

end Tokens

def BracketPart.token : BracketPart → PatternToken
  | characterClass name => .characterClass name
  | part p => .part p

def treeStyle : TokenStyle BracketTree StringPart PatternToken where
  matchAll := .matchAll
  matchOne := .matchOne
  bracket b :=
    .openBracket b.negation :: b.parts.toList.map BracketPart.token ++ [.closeBracket]
  part := .part
  openExtended := .openExtended
  closeExtended := .closeExtended
  branch := .branch

def globStyle : TokenStyle CharacterSet Fragment RegexToken where
  matchAll := .matchAll
  matchOne := .matchOne
  bracket b := [.bracket b.text]
  part t := .text t.value
  openExtended := .openExtended
  closeExtended := .closeExtended
  branch := .branch

def PatternTree.tokens (p : PatternTree) : List PatternToken := patternTokens treeStyle p

def Glob.tokens (E : Glob) : List RegexToken := patternTokens globStyle E

def Composite.tokens (E : Composite) : List RegexToken := compositeTokens globStyle E

/-! ## Evaluation -/

namespace Shell

section Evaluation

variable (host : Host)

/-- The values of a list, one after the other. -/
def traverse {α β : Type} (f : α → Shell β) : List α → Shell (List β)
  | [] => pure []
  | a :: l => do
    let b ← f a
    let bs ← traverse f l
    pure (b :: bs)

def traverseOneOrMore {α β : Type} (f : α → Shell β) (l : OneOrMore α) : Shell (OneOrMore β) := do
  let b ← f l.first
  let bs ← traverse f l.others
  pure ⟨b, bs⟩

def member : BracketPart → Shell Member
  | .characterClass name => pure (.characterClass name)
  | .part p => do
    let v ← stringPart host p
    pure (.text v.value v.quoted)

def basicPattern : BasicPattern BracketTree StringPart → Shell Piece
  | .matchAll => pure .matchAll
  | .matchOne => pure .matchOne
  | .bracket b => do
    let members ← traverseOneOrMore (member host) b.parts
    let _ ← host.bracket (CharacterSet.text ⟨b.negation, members⟩)
    pure (.bracket ⟨b.negation, members⟩)
  | .part p => do
    let v ← stringPart host p
    pure (.part ⟨v.value, v.quoted⟩)

def compositePattern (bs : CompositeTree) : Shell Composite :=
  traverseOneOrMore (traverseOneOrMore (basicPattern host)) bs

def patternItem : PatternItem BracketTree StringPart → Shell (PatternItem CharacterSet Fragment)
  | .basic b => do
    let b ← basicPattern host b
    pure (.basic b)
  | .extended kind branches => do
    let branches ← compositePattern host branches
    checkExtended kind.kind
    pure (.extended kind branches)

def glob (p : PatternTree) : Shell Glob := traverseOneOrMore (patternItem host) p

end Evaluation

end Shell

section Reads

variable {host : Host} {n d : Nat} {α β : Type}

/-- Reading the tokens evaluates the tree, and leaves the tokens of its value. -/
def Reads (host : Host) (n d : Nat) (ts : List PatternToken) (m : Shell β)
    (g : β → List RegexToken) : Prop :=
  ∀ rest, runShell host n d (Shell.bashPattern host none (ts ++ rest)) =
    runShell host n d m >>= fun b =>
      runShell host n d (Shell.bashPattern host none rest) >>= fun R => pure (g b ++ R)

theorem reads_traverse {f : α → Shell β} {ts : α → List PatternToken} {g : β → List RegexToken}
    (l : List α) (h : ∀ a ∈ l, Reads host n d (ts a) (f a) g) :
    Reads host n d (l.flatMap ts) (Shell.traverse f l) (·.flatMap g) := by
  induction l with
  | nil =>
    intro rest
    rw [List.flatMap_nil, List.nil_append, Shell.traverse, runShell_pure, pure_bind]
    exact (bind_pure _).symm
  | cons a l ih =>
    intro rest
    have hrest := ih fun a' ha' => h a' (List.mem_cons_of_mem a ha')
    rw [List.flatMap_cons, List.append_assoc, h a List.mem_cons_self, Shell.traverse, hrest]
    simp only [runShell_bind, runShell_pure, bind_assoc, pure_bind, List.flatMap_cons,
      List.append_assoc]

theorem reads_oneOrMore {f : α → Shell β} {ts : α → List PatternToken} {g : β → List RegexToken}
    (l : OneOrMore α) (h : ∀ a, Reads host n d (ts a) (f a) g) :
    Reads host n d (l.toList.flatMap ts) (Shell.traverseOneOrMore f l) (·.toList.flatMap g) := by
  intro rest
  have hall := reads_traverse (l.first :: l.others) (fun a _ => h a) rest
  rw [Shell.traverse] at hall
  rw [OneOrMore.toList, hall, Shell.traverseOneOrMore]
  simp only [runShell_bind, runShell_pure, bind_assoc, pure_bind, OneOrMore.toList]

/-- The nodes of a bracket expression add to its text. -/
theorem run_members (host : Host) (n d : Nat) (ps : List BracketPart) (text : String)
    (rest : List PatternToken) :
    runShell host n d
        (Shell.bashPattern host (some text) (ps.map BracketPart.token ++ rest)) =
      runShell host n d (Shell.traverse (Shell.member host) ps) >>= fun ms =>
        runShell host n d (Shell.bashPattern host
          (some (ms.foldl (fun text m => text ++ m.pasted) text)) rest) := by
  induction ps generalizing text with
  | nil => rfl
  | cons p ps ih =>
    cases p with
    | characterClass name =>
      rw [List.map_cons, List.cons_append]
      show runShell host n d
        (Shell.bashPattern host (some text) (.characterClass name :: (_ ++ rest))) = _
      rw [Shell.bashPattern, Option.map_some, ih, Shell.traverse]
      simp only [runShell_bind, runShell_pure, bind_assoc, pure_bind, Shell.member,
        List.foldl_cons, Member.pasted]
    | part p =>
      rw [List.map_cons, List.cons_append]
      show runShell host n d (Shell.bashPattern host (some text) (.part p :: (_ ++ rest))) = _
      rw [Shell.bashPattern, Shell.traverse]
      simp only [runShell_bind, runShell_pure, bind_assoc, pure_bind, Shell.member,
        List.foldl_cons, Member.pasted, ih]

theorem run_bracket (host : Host) (n d : Nat) (text : String) {γ : Type}
    (k : RegexToken → Comp Exn Interpreter γ) :
    (runShell host n d (host.bracket text) >>= k) =
      (runShell host n d (host.bracket text) >>= fun _ => k (.bracket text)) := by
  unfold Host.bracket
  cases host.compileMatch text "" with
  | ok _ => rfl
  | error e => rfl

theorem reads_basic (b : BasicPattern BracketTree StringPart) :
    Reads host n d (b.tokens treeStyle) (Shell.basicPattern host b)
      (BasicPattern.tokens globStyle) := by
  intro rest
  cases b with
  | matchAll =>
    show runShell host n d (Shell.bashPattern host none (.matchAll :: rest)) = _
    rw [Shell.bashPattern]
    rfl
  | matchOne =>
    show runShell host n d (Shell.bashPattern host none (.matchOne :: rest)) = _
    rw [Shell.bashPattern]
    rfl
  | bracket b =>
    have hmembers := run_members host n d b.parts.toList
      (if b.negation then "[^" else "[") (.closeBracket :: rest)
    have htokens : (BasicPattern.bracket b).tokens treeStyle ++ rest =
        .openBracket b.negation ::
          (b.parts.toList.map BracketPart.token ++ .closeBracket :: rest) := by
      simp [BasicPattern.tokens, treeStyle]
    rw [htokens, Shell.bashPattern, hmembers, Shell.basicPattern, Shell.traverseOneOrMore,
      OneOrMore.toList, Shell.traverse]
    simp only [runShell_bind, runShell_pure, bind_assoc, pure_bind, Shell.bashPattern,
      Option.getD_some]
    congr 1
    funext m
    congr 1
    funext ms
    exact run_bracket host n d _ _
  | part p =>
    show runShell host n d (Shell.bashPattern host none (.part p :: rest)) = _
    rw [Shell.bashPattern, Shell.basicPattern]
    simp only [runShell_bind, runShell_pure, bind_assoc, pure_bind]
    rfl

theorem reads_branch (b : OneOrMore (BasicPattern BracketTree StringPart)) :
    Reads host n d (branchTokens treeStyle b)
      (Shell.traverseOneOrMore (Shell.basicPattern host) b) (branchTokens globStyle) := by
  intro rest
  show runShell host n d
    (Shell.bashPattern host none
      (.branch :: (b.toList.flatMap (BasicPattern.tokens treeStyle) ++ rest))) = _
  rw [Shell.bashPattern, runShell_bind, reads_oneOrMore b reads_basic rest]
  simp only [runShell_pure, bind_assoc, pure_bind]
  rfl

theorem reads_composite (bs : CompositeTree) :
    Reads host n d (compositeTokens treeStyle bs) (Shell.compositePattern host bs)
      (compositeTokens globStyle) :=
  reads_oneOrMore bs reads_branch

theorem reads_item (i : PatternItem BracketTree StringPart) :
    Reads host n d (i.tokens treeStyle) (Shell.patternItem host i)
      (PatternItem.tokens globStyle) := by
  cases i with
  | basic b =>
    intro rest
    rw [Shell.patternItem, PatternItem.tokens, reads_basic b rest]
    simp only [runShell_bind, runShell_pure, bind_assoc, pure_bind, PatternItem.tokens]
  | extended kind branches =>
    intro rest
    have htokens : (PatternItem.extended kind branches).tokens treeStyle ++ rest =
        .openExtended kind.kind ::
          (compositeTokens treeStyle branches ++ .closeExtended kind.kind :: rest) := by
      simp [PatternItem.tokens, treeStyle]
    rw [htokens, Shell.bashPattern, runShell_bind, reads_composite branches, Shell.bashPattern,
      Shell.patternItem]
    simp only [runShell_bind, runShell_pure, bind_assoc, pure_bind, PatternItem.tokens,
      List.append_assoc, List.cons_append, List.nil_append]
    rfl

/-- The rule evaluates the tree of a pattern. -/
theorem run_bashPattern (host : Host) (n d : Nat) (p : PatternTree) :
    runShell host n d (Shell.bashPattern host none p.tokens) =
      runShell host n d (Shell.glob host p) >>= fun E => pure E.tokens := by
  have hitem (i : PatternItem BracketTree StringPart) : Reads host n d (i.tokens treeStyle)
      (Shell.patternItem host i) (PatternItem.tokens globStyle) := reads_item i
  have hread := reads_oneOrMore p hitem []
  rw [List.append_nil] at hread
  show runShell host n d (Shell.bashPattern host none (p.toList.flatMap _)) = _
  rw [hread]
  simp only [Shell.bashPattern_nil, runShell_pure, pure_bind, List.append_nil]
  rfl

/-- The rule evaluates the patterns of a `case`. -/
theorem run_compositePattern (host : Host) (n d : Nat) (p : CompositeTree) :
    runShell host n d (Shell.bashPattern host none (compositeTokens treeStyle p)) =
      runShell host n d (Shell.compositePattern host p) >>= fun E => pure (Composite.tokens E) := by
  have hcomposite : Reads host n d (compositeTokens treeStyle p) (Shell.compositePattern host p)
      (compositeTokens globStyle) := reads_composite p
  have hread := hcomposite []
  rw [List.append_nil] at hread
  rw [hread]
  simp only [Shell.bashPattern_nil, runShell_pure, pure_bind, List.append_nil]
  rfl

theorem bashPattern_of_glob {host : Host} {n d : Nat} {p : PatternTree} {E : Glob}
    {s s' : Interpreter} (h : runShell host n d (Shell.glob host p) s = some (.ok E, s')) :
    runShell host n d (Shell.bashPattern host none p.tokens) s = some (.ok E.tokens, s') := by
  rw [run_bashPattern, bind_of_ok h]
  rfl

end Reads

end Libbash
