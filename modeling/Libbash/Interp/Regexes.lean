import Libbash.Lib.Occurrences
import Libbash.Interp.Patterns

/-!
# The regular expressions of patterns

What the actions of `bash_pattern` and `composite_pattern` put together from the parts
of a pattern (`Glob.regex`), and what `var_expansion` does with it
(`ReplaceKind.replacer`). A regular expression is executed by a library: `Backtracks`
says that the host has one that finds matches in the order of a backtracking matcher.
`glob_lang` says which words a pattern stands for.
-/

namespace Libbash

open Lib Lib.Comp Lib.Program

/-! ## Putting expressions together -/

section Regexes

variable (compile : String → Regex Char) (greedy : Bool)

/-- `basic_pattern`; the text of a bracket expression is compiled. -/
def BasicPattern.regex : Piece → Regex Char
  | matchAll => .star greedy .any
  | matchOne => .any
  | bracket b => compile b.text
  | part t => .text t.value.toList

/-- `composite_pattern`. -/
def Composite.regex (bs : Composite) : Regex Char :=
  bs.combine .alt fun b => b.combine .seq (BasicPattern.regex compile greedy)

/-- What `bash_pattern` appends for an extended pattern. -/
def Quantifier.regex (patternList : Regex Char) : Quantifier → Regex Char
  | atMostOne => .optional greedy patternList
  | any => .star greedy patternList
  | atLeastOne => .plus greedy patternList
  | exactlyOne => patternList

def PatternItem.regex : PatternItem CharacterSet Fragment → Regex Char
  | basic b => b.regex compile greedy
  | extended kind branches => kind.regex greedy (Composite.regex compile greedy branches)

/-- `bash_pattern`. -/
def Glob.regex (E : Glob) : Regex Char := E.combine .seq (PatternItem.regex compile greedy)

end Regexes

/-- The argument that the alternatives of `var_expansion` give to `bash_pattern`. -/
def ReplaceKind.greedy : ReplaceKind → Bool
  | replaceAll | replaceAtEnd | replaceAtStart | replaceFirst => true
  | lazyRemoveAtEnd | lazyRemoveAtStart => false

/-- `replace_all`. -/
def replaceAll (value : String) (pattern : Regex Char) (replacement : String) : String :=
  .ofList (pattern.substitute replacement.toList false value.toList)

/-- `lazy_remove_at_end`. -/
def lazyRemoveAtEnd (value : String) (pattern : Regex Char) : String :=
  match pattern.matchWhole value.toList with
  | some what => .ofList what.kept
  | none => value

/-- `replace_first`. -/
def replaceFirst (value : String) (pattern : Regex Char) (replacement : String) : String :=
  .ofList (pattern.substitute replacement.toList true value.toList)

theorem toList_replaceAll (value : String) (pattern : Regex Char) (replacement : String) :
    (replaceAll value pattern replacement).toList =
      pattern.substitute replacement.toList false value.toList := String.toList_ofList

theorem toList_replaceFirst (value : String) (pattern : Regex Char) (replacement : String) :
    (replaceFirst value pattern replacement).toList =
      pattern.substitute replacement.toList true value.toList := String.toList_ofList

theorem toList_lazyRemoveAtEnd (value : String) (pattern : Regex Char) :
    (lazyRemoveAtEnd value pattern).toList =
      ((pattern.matchWhole value.toList).map Regex.Point.kept).getD value.toList := by
  unfold lazyRemoveAtEnd
  cases pattern.matchWhole value.toList with
  | some what => exact String.toList_ofList
  | none => rfl

/-- The replacers of `var_expansion`. -/
def ReplaceKind.replacer (replacePattern : Regex Char) (libbashWord value : String) :
    ReplaceKind → String
  | replaceAll => Libbash.replaceAll value replacePattern libbashWord
  | replaceAtEnd => Libbash.replaceAll value (.seq replacePattern .eos) libbashWord
  | lazyRemoveAtEnd =>
    Libbash.lazyRemoveAtEnd value
      (.seq (.seq (.seq .bos (.mark (.star true .any))) replacePattern) .eos)
  | replaceAtStart | lazyRemoveAtStart =>
    Libbash.replaceAll value (.seq .bos replacePattern) libbashWord
  | replaceFirst => Libbash.replaceFirst value replacePattern libbashWord

/-- The bracket expressions are compiled to expressions without anchors and marks. -/
def Glob.Plain (compile : String → Regex Char) (E : Glob) : Prop :=
  ∀ b ∈ E.brackets, (compile b.text).Plain

def Composite.Plain (compile : String → Regex Char) (E : Composite) : Prop :=
  ∀ b ∈ E.brackets, (compile b.text).Plain

/-- No extended pattern. -/
def Glob.Simple (E : Glob) : Prop := ∀ i ∈ E.toList, ∃ b, i = .basic b

/-- The bracket expressions are compiled to sets of characters. -/
def Glob.Sets (compile : String → Regex Char) (E : Glob) : Prop :=
  ∀ b ∈ E.brackets, ∃ p, compile b.text = .set p

theorem Glob.Sets.plain {compile : String → Regex Char} {E : Glob} (h : E.Sets compile) :
    E.Plain compile := by
  intro b hb
  obtain ⟨p, hp⟩ := h b hb
  rw [hp]
  trivial

/-- The library of the host matches as a backtracking matcher does, and replaces one
match after the other; `compile` says which expression it compiles the text of a bracket
expression to. Nothing is said of a text with an anchor or a mark. -/
structure Backtracks (host : Host) (compile : String → Regex Char) : Prop where
  replace : ∀ (kind : ReplaceKind) (E : Glob) (libbashWord value : String), E.Plain compile →
    host.replace kind E.tokens libbashWord value =
      kind.replacer (E.regex compile kind.greedy) libbashWord value
  bashPattern : ∀ (E : Glob) (target : String), E.Plain compile →
    host.regexMatch false E.tokens target =
      ((E.regex compile true).matchWhole target.toList).isSome
  compositePattern : ∀ (E : Composite) (target : String), E.Plain compile →
    host.regexMatch true E.tokens target =
      ((E.regex compile true).matchWhole target.toList).isSome

/-! ## A backtracking host -/

/-- A regular expression that is put together from the tokens of a pattern: what has
been appended, the alternatives so far, and the branch that is being read. -/
structure Assembly where
  pattern : Option (Regex Char) := none
  patternList : Option (Regex Char) := none
  subPattern : Option (Regex Char) := none
  inBranch : Bool := false

namespace Assembly

/-- `append`. -/
def append (pattern : Option (Regex Char)) (newPattern : Regex Char) : Option (Regex Char) :=
  match pattern with
  | none => some newPattern
  | some pattern => some (.seq pattern newPattern)

/-- The end of a branch. -/
def alternatives (a : Assembly) : Option (Regex Char) :=
  match a.patternList, a.subPattern with
  | list, none => list
  | none, some sub => some sub
  | some list, some sub => some (.alt list sub)

def add (a : Assembly) (r : Regex Char) : Assembly :=
  if a.inBranch then { a with subPattern := append a.subPattern r }
  else { a with pattern := append a.pattern r }

section Reading

variable (compile : String → Regex Char) (greedy : Bool)

def quantified (r : Regex Char) : ExtendedMatch → Regex Char
  | .atMostOne => .optional greedy r
  | .any => .star greedy r
  | .atLeastOne => .plus greedy r
  | .exactlyOne | .none => r

def read (a : Assembly) : RegexToken → Assembly
  | .matchAll => a.add (.star greedy .any)
  | .matchOne => a.add .any
  | .bracket text => a.add (compile text)
  | .text s => a.add (.text s.toList)
  | .openExtended _ => { pattern := a.pattern }
  | .branch => { a with patternList := a.alternatives, subPattern := none, inBranch := true }
  | .closeExtended kind =>
    { pattern := append a.pattern (quantified greedy (a.alternatives.getD (.text [])) kind) }

def readAll (a : Assembly) (ts : List RegexToken) : Assembly := ts.foldl (read compile greedy) a

theorem readAll_append (a : Assembly) (ts ts' : List RegexToken) :
    readAll compile greedy a (ts ++ ts') = readAll compile greedy (readAll compile greedy a ts) ts' :=
  List.foldl_append

theorem readAll_basic (a : Assembly) (b : Piece) :
    readAll compile greedy a (b.tokens globStyle) = a.add (b.regex compile greedy) := by
  cases b <;> rfl

theorem readAll_basics (a : Assembly) (l : List (Piece))
    (r : Regex Char) (hin : a.inBranch = true) (hsub : a.subPattern = some r) :
    readAll compile greedy a (l.flatMap (BasicPattern.tokens globStyle)) =
      { a with subPattern := some (l.foldl (fun r b => .seq r (b.regex compile greedy)) r) } := by
  induction l generalizing a r with
  | nil =>
    cases a
    simp_all [readAll]
  | cons b l ih =>
    rw [List.flatMap_cons, readAll_append, readAll_basic]
    have hadd : a.add (b.regex compile greedy) =
        { a with subPattern := some (.seq r (b.regex compile greedy)) } := by
      unfold add
      rw [if_pos hin, hsub]
      rfl
    rw [hadd]
    exact ih { a with subPattern := some (.seq r (b.regex compile greedy)) } _ hin rfl

theorem readAll_branch (a : Assembly) (b : OneOrMore (Piece)) :
    readAll compile greedy a (branchTokens globStyle b) =
      { a with
        patternList := a.alternatives
        subPattern := some (b.combine .seq (BasicPattern.regex compile greedy))
        inBranch := true } := by
  show readAll compile greedy (read compile greedy a .branch)
    (b.first.tokens globStyle ++ b.others.flatMap (BasicPattern.tokens globStyle)) = _
  rw [readAll_append, readAll_basic]
  exact readAll_basics compile greedy _ b.others (b.first.regex compile greedy) rfl rfl

/-- The alternatives that have been read, with the one that is being read. -/
theorem alternatives_branches (a : Assembly) (bs : List (OneOrMore (Piece)))
    (r : Regex Char) (h : a.alternatives = some r) :
    (readAll compile greedy a (bs.flatMap (branchTokens globStyle))).alternatives =
        some (bs.foldl (fun r b => .alt r (b.combine .seq (BasicPattern.regex compile greedy))) r) ∧
      (readAll compile greedy a (bs.flatMap (branchTokens globStyle))).pattern = a.pattern := by
  induction bs generalizing a r with
  | nil => exact ⟨h, rfl⟩
  | cons b bs ih =>
    rw [List.flatMap_cons, readAll_append, readAll_branch, h]
    exact ih _ _ rfl

theorem alternatives_composite (a : Assembly) (hlist : a.alternatives = none) (E : Composite) :
    (readAll compile greedy a (compositeTokens globStyle E)).alternatives =
        some (Composite.regex compile greedy E) ∧
      (readAll compile greedy a (compositeTokens globStyle E)).pattern = a.pattern := by
  show (readAll compile greedy a
    (branchTokens globStyle E.first ++ E.others.flatMap (branchTokens globStyle))).alternatives = _ ∧
      (readAll compile greedy a
        (branchTokens globStyle E.first ++ E.others.flatMap (branchTokens globStyle))).pattern = _
  rw [readAll_append, readAll_branch, hlist]
  exact alternatives_branches compile greedy _ E.others _ rfl

theorem readAll_item (r : Option (Regex Char)) (i : PatternItem CharacterSet Fragment) :
    readAll compile greedy { pattern := r } (i.tokens globStyle) =
      { pattern := append r (i.regex compile greedy) } := by
  cases i with
  | basic b => exact readAll_basic compile greedy _ b
  | extended kind branches =>
    obtain ⟨halt, hpattern⟩ := alternatives_composite compile greedy { pattern := r } rfl branches
    show readAll compile greedy { pattern := r } (compositeTokens globStyle branches ++ [_]) = _
    rw [readAll_append]
    show read compile greedy (readAll compile greedy { pattern := r }
      (compositeTokens globStyle branches)) (.closeExtended kind.kind) = _
    unfold read
    dsimp only
    rw [halt, hpattern]
    cases kind <;> rfl

theorem readAll_items (l : List (PatternItem CharacterSet Fragment)) (r : Regex Char) :
    readAll compile greedy { pattern := some r } (l.flatMap (PatternItem.tokens globStyle)) =
      { pattern := some (l.foldl (fun r i => .seq r (i.regex compile greedy)) r) } := by
  induction l generalizing r with
  | nil => rfl
  | cons i l ih =>
    rw [List.flatMap_cons, readAll_append, readAll_item]
    exact ih _

theorem readAll_glob (E : Glob) :
    (readAll compile greedy {} E.tokens).pattern = some (E.regex compile greedy) := by
  show (readAll compile greedy {} (E.first.tokens globStyle ++
    E.others.flatMap (PatternItem.tokens globStyle))).pattern = _
  rw [readAll_append]
  have hfirst := readAll_item compile greedy none E.first
  rw [hfirst]
  exact congrArg Assembly.pattern (readAll_items compile greedy E.others (E.first.regex compile greedy))

end Reading

end Assembly

/-- The host, with a library that backtracks. -/
def Host.backtracking (host : Host) (compile : String → Regex Char) : Host :=
  { host with
    regexMatch composite ts target :=
      let a := Assembly.readAll compile true {} ts
      match if composite then a.alternatives else a.pattern with
      | some r => (r.matchWhole target.toList).isSome
      | none => false
    replace kind ts libbashWord value :=
      match (Assembly.readAll compile kind.greedy {} ts).pattern with
      | some r => kind.replacer r libbashWord value
      | none => value }

theorem backtracks_backtracking (host : Host) (compile : String → Regex Char) :
    Backtracks (host.backtracking compile) compile where
  replace kind E libbashWord value _ := by
    show (match (Assembly.readAll compile kind.greedy {} E.tokens).pattern with
      | some r => kind.replacer r libbashWord value
      | none => value) = _
    rw [Assembly.readAll_glob]
  bashPattern E target _ := by
    show (match (Assembly.readAll compile true {} E.tokens).pattern with
      | some r => (r.matchWhole target.toList).isSome
      | none => false) = _
    rw [Assembly.readAll_glob]
  compositePattern E target _ := by
    show (match (Assembly.readAll compile true {} E.tokens).alternatives with
      | some r => (r.matchWhole target.toList).isSome
      | none => false) = _
    have halt := (Assembly.alternatives_composite compile true {} rfl E).1
    rw [show E.tokens = compositeTokens globStyle E from rfl, halt]

/-! ## Languages -/

section Languages

open Computability

variable (words : CharacterSet → Language Char)

/-- The words that a pattern stands for, with those that its bracket expressions stand
for. -/
def BasicPattern.lang : Piece → Language Char
  | matchAll => {_w | True}
  | matchOne => {w | ∃ c, w = [c]}
  | bracket b => words b
  | part t => {t.value.toList}

def Composite.lang (bs : Composite) : Language Char :=
  bs.combine (· + ·) fun b => b.combine (· * ·) (BasicPattern.lang words)

def Quantifier.lang (L : Language Char) : Quantifier → Language Char
  | atMostOne => 1 + L
  | any => L∗
  | atLeastOne => L * L∗
  | exactlyOne => L

def PatternItem.lang : PatternItem CharacterSet Fragment → Language Char
  | basic b => b.lang words
  | extended kind branches => kind.lang (Composite.lang words branches)

def Glob.lang (E : Glob) : Language Char := E.combine (· * ·) (PatternItem.lang words)

theorem combine_mul {β : Type} (f : β → Language Char) (l : OneOrMore β) :
    l.combine (· * ·) f = (l.toList.map f).prod := by
  have hfold (L : Language Char) (bs : List β) :
      bs.foldl (fun L b => L * f b) L = L * (bs.map f).prod := by
    induction bs generalizing L with
    | nil => rw [List.map_nil, List.prod_nil, mul_one, List.foldl_nil]
    | cons b bs ih => rw [List.foldl_cons, ih, List.map_cons, List.prod_cons, mul_assoc]
  rw [OneOrMore.toList, List.map_cons, List.prod_cons]
  exact hfold (f l.first) l.others

theorem Glob.lang_eq_prod (E : Glob) :
    E.lang words = (E.toList.map (PatternItem.lang words)).prod := combine_mul _ E

end Languages

section RegexLanguages

variable {compile : String → Regex Char}

theorem basic_plain {b : Piece} (h : ∀ a ∈ b.brackets, (compile a.text).Plain) (greedy : Bool) :
    (b.regex compile greedy).Plain := by
  cases b with
  | bracket b => exact h b (List.mem_singleton_self b)
  | matchAll | matchOne | part t => trivial

theorem Composite.Plain.regex {E : Composite} (h : E.Plain compile) (greedy : Bool) :
    (Composite.regex compile greedy E).Plain := by
  refine OneOrMore.forall_combine (fun _ _ h h' => ⟨h, h'⟩) E fun l hl => ?_
  refine OneOrMore.forall_combine (fun _ _ h h' => ⟨h, h'⟩) l fun b hb => ?_
  refine basic_plain (fun a ha => h a ?_) greedy
  exact List.mem_flatMap.mpr ⟨l, hl, List.mem_flatMap.mpr ⟨b, hb, ha⟩⟩

theorem item_plain {i : PatternItem CharacterSet Fragment}
    (h : ∀ a ∈ i.brackets, (compile a.text).Plain) (greedy : Bool) :
    (i.regex compile greedy).Plain := by
  cases i with
  | basic b => exact basic_plain h greedy
  | extended kind branches =>
    have hplain := Composite.Plain.regex (E := branches) h greedy
    cases kind <;> exact hplain

theorem Glob.Plain.regex {E : Glob} (h : E.Plain compile) (greedy : Bool) :
    (Glob.regex compile greedy E).Plain :=
  OneOrMore.forall_combine (fun _ _ h h' => ⟨h, h'⟩) E fun i hi =>
    item_plain (fun a ha => h a (List.mem_flatMap.mpr ⟨i, hi, ha⟩)) greedy

variable (compile : String → Regex Char) (greedy : Bool)

/-- The words that the text of a bracket expression stands for. -/
def compiledWords (b : CharacterSet) : Language Char := (compile b.text).lang

theorem basic_lang (b : Piece) :
    (b.regex compile greedy).lang = b.lang (compiledWords compile) := by
  cases b with
  | matchAll =>
    ext w
    exact ⟨fun _ => trivial, fun _ => Regex.mem_any_kstar w⟩
  | matchOne => rfl
  | bracket b => rfl
  | part t => rfl

theorem composite_lang (E : Composite) :
    (Composite.regex compile greedy E).lang = Composite.lang (compiledWords compile) E := by
  unfold Composite.regex Composite.lang
  rw [OneOrMore.combine_hom Regex.lang (· + ·) fun _ _ => rfl]
  congr 1
  funext b
  rw [OneOrMore.combine_hom Regex.lang (· * ·) fun _ _ => rfl]
  congr 1
  funext a
  exact basic_lang compile greedy a

theorem item_lang (i : PatternItem CharacterSet Fragment) :
    (i.regex compile greedy).lang = i.lang (compiledWords compile) := by
  cases i with
  | basic b => exact basic_lang compile greedy b
  | extended kind branches =>
    have hlang := composite_lang compile greedy branches
    cases kind with
    | atMostOne => exact congrArg (1 + ·) hlang
    | any => exact congrArg KStar.kstar hlang
    | atLeastOne => exact congrArg (fun L => L * KStar.kstar L) hlang
    | exactlyOne => exact hlang

/-- The regular expression of a pattern stands for the words of the pattern. -/
theorem glob_lang (E : Glob) :
    (Glob.regex compile greedy E).lang = Glob.lang (compiledWords compile) E := by
  unfold Glob.regex Glob.lang
  rw [OneOrMore.combine_hom Regex.lang (· * ·) fun _ _ => rfl]
  congr 1
  funext i
  exact item_lang compile greedy i

end RegexLanguages

end Libbash
