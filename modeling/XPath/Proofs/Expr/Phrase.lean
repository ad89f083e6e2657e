import XPath.Expr.Parser
import XPath.Proofs.Lexer.Lexeme

/-!
# Phrases

Expressions as they are written: with names in place of what they stand for, and with parentheses.
Parentheses do not change the tree that a phrase stands for (`Phrase.tree?_bare`). They can be left
out where the levels of the operators say the same (`Phrase.fits`), and none is missing if they are put
around every compound operand (`Phrase.fits_full`). The words of a phrase are told from others that are
spelled alike by the words before them (`Phrase.placed`).
-/

namespace XPath

/-- The level of an operator; operators of a higher level bind tighter. -/
def BinaryOperator.level : BinaryOperator → Nat
  | or => 1
  | and => 2
  | equals | notEquals => 3
  | lessThan | lessThanOrEqual | greaterThan | greaterThanOrEqual => 4
  | plus | minus => 5
  | multiply | divide | modulo => 6

def BinaryOperator.token : BinaryOperator → TokenKind
  | or => .or
  | and => .and
  | equals => .equals
  | notEquals => .notEquals
  | lessThan => .lessThan
  | lessThanOrEqual => .lessThanOrEqual
  | greaterThan => .greaterThan
  | greaterThanOrEqual => .greaterThanOrEqual
  | plus => .plus
  | minus => .minus
  | multiply => .multiply
  | divide => .div
  | modulo => .mod

namespace BinaryOperator

variable (op : BinaryOperator)

theorem level_pos : 1 ≤ op.level := by
  cases op <;> decide

theorem level_lt : op.level < 7 := by
  cases op <;> decide

theorem expectsOperand_token : op.token.expectsOperand = true := by
  cases op <;> rfl

theorem canFollow_token {k : TokenKind} (hk : k.expectsOperand = false) :
    TokenKind.canFollow (some k) op.token = true := by
  have hawaits : TokenKind.awaitsOperand (some k) = false := hk
  cases op <;> simp [token, TokenKind.canFollow, hawaits]

end BinaryOperator

inductive TestPhrase
  | name (name : String)
  | any
  | inNamespace (boundPrefix : String)
  | node
  | text
  | comment
  | processingInstruction (target : Option String)

/-- An expression as it is written, in full: with the axis of every step. -/
inductive Phrase
  | binary (op : BinaryOperator) (lhs rhs : Phrase)
  | negate (operand : Phrase)
  | union (lhs rhs : Phrase)
  | root
  /-- A step from the root, with predicates. -/
  | absolute (axis : Axis) (test : TestPhrase) (predicates : List Phrase)
  /-- A step from the context node. -/
  | relative (axis : Axis) (test : TestPhrase) (predicates : List Phrase)
  /-- A step from every node of `start`. -/
  | step (start : Phrase) (axis : Axis) (test : TestPhrase) (predicates : List Phrase)
  | filter (base predicate : Phrase)
  | reference (name : String)
  | string (text : String)
  | number (numeral : String)
  | call (function : Builtin) (args : List Phrase)
  | parens (inner : Phrase)

namespace TestPhrase

def lexemes : TestPhrase → List Lexeme
  | name n => [⟨.name, n⟩]
  | any => [.symbol .star]
  | inNamespace p => [⟨.namespaceWildcard, p⟩]
  | node => [⟨.nodeType, "node"⟩, .symbol .rightParen]
  | text => [⟨.nodeType, "text"⟩, .symbol .rightParen]
  | comment => [⟨.nodeType, "comment"⟩, .symbol .rightParen]
  | processingInstruction none => [⟨.nodeType, "processing-instruction"⟩, .symbol .rightParen]
  | processingInstruction (some target) =>
    [⟨.nodeType, "processing-instruction"⟩, ⟨.literal, target⟩, .symbol .rightParen]

/-- The test that is meant where names select nodes of the kind `principal`, if its prefix is
declared. -/
def test? (s : StaticScope) (principal : NodeKind) : TestPhrase → Option NodeTest
  | name n => do return ⟨principal, .named (← (s.resolve n (principal == .element)).toOption)⟩
  | any => some ⟨principal, .any⟩
  | inNamespace p => do return ⟨principal, .inNamespace (← (s.namespaceUri p).toOption)⟩
  | node => some ⟨.node, .any⟩
  | text => some ⟨.text, .any⟩
  | comment => some ⟨.comment, .any⟩
  | processingInstruction none => some ⟨.processingInstruction, .any⟩
  | processingInstruction (some target) => some ⟨.processingInstruction, .named ⟨"", target⟩⟩

end TestPhrase

namespace Phrase

/-- The level at which a phrase can be an operand. The root by itself is none: the word behind its
slash would be read as a step. -/
def level : Phrase → Nat
  | root => 0
  | binary op _ _ => op.level
  | negate _ => 7
  | union _ _ => 8
  | absolute .. | relative .. | step .. => 9
  | filter _ _ => 10
  | reference _ | string _ | number _ | call _ _ | parens _ => 11

def stepLexemes (axis : Axis) (test : TestPhrase) : List Lexeme := ⟨.axis, axis.name⟩ :: test.lexemes

mutual

def lexemes : Phrase → List Lexeme
  | binary op lhs rhs => lhs.lexemes ++ .symbol op.token :: rhs.lexemes
  | negate e => .symbol .negate :: e.lexemes
  | union lhs rhs => lhs.lexemes ++ .symbol .union :: rhs.lexemes
  | root => [.symbol .slash]
  | absolute axis test ps => .symbol .slash :: (stepLexemes axis test ++ lexemesOfPredicates ps)
  | relative axis test ps => stepLexemes axis test ++ lexemesOfPredicates ps
  | step start axis test ps =>
    start.lexemes ++ .symbol .slash :: (stepLexemes axis test ++ lexemesOfPredicates ps)
  | filter base p => base.lexemes ++ .symbol .leftSquare :: (p.lexemes ++ [.symbol .rightSquare])
  | reference name => [.symbol .dollar, ⟨.name, name⟩]
  | string text => [⟨.literal, text⟩]
  | number numeral => [⟨.number, numeral⟩]
  | call function args => ⟨.functionName, function.label⟩ :: lexemesOfArguments args
  | parens e => .symbol .leftParen :: (e.lexemes ++ [.symbol .rightParen])

def lexemesOfPredicates : List Phrase → List Lexeme
  | [] => []
  | p :: ps => .symbol .leftSquare :: (p.lexemes ++ .symbol .rightSquare :: lexemesOfPredicates ps)

def lexemesOfArguments : List Phrase → List Lexeme
  | [] => [.symbol .rightParen]
  | p :: ps => p.lexemes ++ lexemesOfMoreArguments ps

def lexemesOfMoreArguments : List Phrase → List Lexeme
  | [] => [.symbol .rightParen]
  | p :: ps => .symbol .comma :: (p.lexemes ++ lexemesOfMoreArguments ps)

end

/-- The tree of a call, if it has as many arguments as the function accepts. -/
def callTree? (s : StaticScope) (function : Builtin) (args : List Expr) : Option Expr :=
  if (function.arityFault? args.length).isSome then none
  else match function with
    | .true => some (.boolean true)
    | .false => some (.boolean false)
    | f => some (.call f args
      { CallBinding.free with scope := if f.needsNameScope then some s.nameScope else none })

mutual

/-- The tree that a phrase stands for, if its names are declared, its calls have as many arguments as
their functions accept and the operands of its unions can be node-sets. -/
def tree? (s : StaticScope) : Phrase → Option Expr
  | binary op lhs rhs => do return .binary op (← lhs.tree? s) (← rhs.tree? s)
  | negate e => do return .negate (← e.tree? s)
  | union lhs rhs => do
    let lhs ← lhs.tree? s
    let rhs ← rhs.tree? s
    if lhs.isUnionOperand && rhs.isUnionOperand then some (.setOperation .union lhs rhs) else none
  | root => some .root
  | absolute axis test ps => do
    return .path .root axis (← test.test? s axis.principalKind) (← trees? s ps)
  | relative axis test ps => do
    return .path .contextNode axis (← test.test? s axis.principalKind) (← trees? s ps)
  | step start axis test ps => do
    return .path (← start.tree? s) axis (← test.test? s axis.principalKind) (← trees? s ps)
  | filter base p => do return .filter (← base.tree? s) (← p.tree? s)
  | reference name => do
    let binding ← (s.bindVariable (← (s.resolve name false).toOption) name).toOption
    return .reference binding.name binding.display binding.constant
  | string text => some (.string text)
  | number numeral => (Number.readDecimal? numeral.toList).map .number
  | call function args => do callTree? s function (← trees? s args)
  | parens e => e.tree? s

def trees? (s : StaticScope) : List Phrase → Option (List Expr)
  | [] => some []
  | p :: ps => do return (← p.tree? s) :: (← trees? s ps)

end

/-! ## Parentheses -/

mutual

/-- The operands stand without parentheses only where their levels allow it: the operators of one
level are left associative, and tighter ones come first. -/
def fits : Phrase → Bool
  | binary op lhs rhs =>
    op.level ≤ lhs.level && op.level < rhs.level && lhs.fits && rhs.fits
  | negate e => 7 ≤ e.level && e.fits
  | union lhs rhs => 8 ≤ lhs.level && 8 < rhs.level && lhs.fits && rhs.fits
  | step start _ _ ps => 9 ≤ start.level && start.fits && allFit ps
  | filter base p => 10 ≤ base.level && base.fits && p.fits
  | absolute _ _ ps | relative _ _ ps | call _ ps => allFit ps
  | parens e => e.fits
  | root | reference _ | string _ | number _ => true

def allFit : List Phrase → Bool
  | [] => true
  | p :: ps => p.fits && allFit ps

end

mutual

def bare : Phrase → Phrase
  | binary op lhs rhs => binary op lhs.bare rhs.bare
  | negate e => negate e.bare
  | union lhs rhs => union lhs.bare rhs.bare
  | root => root
  | absolute axis test ps => absolute axis test (bareList ps)
  | relative axis test ps => relative axis test (bareList ps)
  | step start axis test ps => step start.bare axis test (bareList ps)
  | filter base p => filter base.bare p.bare
  | reference name => reference name
  | string text => string text
  | number numeral => number numeral
  | call function args => call function (bareList args)
  | parens e => e.bare

def bareList : List Phrase → List Phrase
  | [] => []
  | p :: ps => p.bare :: bareList ps

end

/-- The phrase in parentheses, unless it is a variable, a literal, a call or in parentheses. -/
def enclosed (p : Phrase) : Phrase := if p.level < 11 then parens p else p

mutual

/-- The phrase with parentheses around every compound operand. The steps of a path are none. -/
def full : Phrase → Phrase
  | binary op lhs rhs => binary op lhs.full.enclosed rhs.full.enclosed
  | negate e => negate e.full.enclosed
  | union lhs rhs => union lhs.full.enclosed rhs.full.enclosed
  | root => root
  | absolute axis test ps => absolute axis test (fullList ps)
  | relative axis test ps => relative axis test (fullList ps)
  | step start axis test ps =>
    step (if start.level == 9 then start.full else start.full.enclosed) axis test (fullList ps)
  | filter base p => filter base.full.enclosed p.full
  | reference name => reference name
  | string text => string text
  | number numeral => number numeral
  | call function args => call function (fullList args)
  | parens e => parens e.full

def fullList : List Phrase → List Phrase
  | [] => []
  | p :: ps => p.full :: fullList ps

end

/-! ## What parentheses do not change -/

variable {s : StaticScope}

theorem enclosed_eq (p : Phrase) : p.enclosed = parens p ∨ p.enclosed = p ∧ 11 ≤ p.level := by
  unfold enclosed
  split
  · exact .inl rfl
  · exact .inr ⟨rfl, by omega⟩

theorem level_enclosed (p : Phrase) : 11 ≤ p.enclosed.level := by
  rcases enclosed_eq p with h | ⟨h, hlevel⟩
  · rw [h]
    exact Nat.le_refl _
  · rwa [h]

theorem fits_enclosed (p : Phrase) : p.enclosed.fits = p.fits := by
  rcases enclosed_eq p with h | ⟨h, -⟩
  · rw [h, fits]
  · rw [h]

theorem bare_enclosed (p : Phrase) : p.enclosed.bare = p.bare := by
  rcases enclosed_eq p with h | ⟨h, -⟩
  · rw [h, bare]
  · rw [h]

section

variable {op : BinaryOperator} {lhs rhs p : Phrase} {axis : Axis} {test : TestPhrase}
  {ps : List Phrase}

theorem fits_binary : (binary op lhs rhs).fits = true ↔
    op.level ≤ lhs.level ∧ op.level < rhs.level ∧ lhs.fits = true ∧ rhs.fits = true := by
  simp [fits, and_assoc]

theorem fits_negate : (negate p).fits = true ↔ 7 ≤ p.level ∧ p.fits = true := by
  simp [fits]

theorem fits_union : (union lhs rhs).fits = true ↔
    8 ≤ lhs.level ∧ 8 < rhs.level ∧ lhs.fits = true ∧ rhs.fits = true := by
  simp [fits, and_assoc]

theorem fits_step : (step p axis test ps).fits = true ↔
    9 ≤ p.level ∧ p.fits = true ∧ allFit ps = true := by
  simp [fits, and_assoc]

theorem fits_filter : (filter lhs p).fits = true ↔
    10 ≤ lhs.level ∧ lhs.fits = true ∧ p.fits = true := by
  simp [fits, and_assoc]

end

theorem level_full (p : Phrase) : p.full.level = p.level := by
  cases p <;> rw [full] <;> rfl

mutual

/-- With parentheses around every compound operand none is missing. -/
theorem fits_full (p : Phrase) : p.full.fits = true := by
  have henclosed {n : Nat} (hn : n ≤ 11) (q : Phrase) : n ≤ q.full.enclosed.level :=
    Nat.le_trans hn (level_enclosed q.full)
  match p with
  | binary op lhs rhs =>
      have hop := op.level_lt
      rw [full, fits_binary, fits_enclosed, fits_enclosed]
      exact ⟨henclosed (by omega) lhs, henclosed (by omega) rhs, fits_full lhs, fits_full rhs⟩
  | negate e =>
      rw [full, fits_negate, fits_enclosed]
      exact ⟨henclosed (by decide) e, fits_full e⟩
  | union lhs rhs =>
      rw [full, fits_union, fits_enclosed, fits_enclosed]
      exact ⟨henclosed (by decide) lhs, henclosed (by decide) rhs, fits_full lhs, fits_full rhs⟩
  | step start axis test ps =>
      rw [full, fits_step]
      split
      · rename_i hlevel
        exact ⟨by rw [level_full, eq_of_beq hlevel], fits_full start, allFit_fullList ps⟩
      · rw [fits_enclosed]
        exact ⟨henclosed (by decide) start, fits_full start, allFit_fullList ps⟩
  | filter base p =>
      rw [full, fits_filter, fits_enclosed]
      exact ⟨henclosed (by decide) base, fits_full base, fits_full p⟩
  | absolute _ _ ps | relative _ _ ps | call _ ps => exact allFit_fullList ps
  | parens e => exact fits_full e
  | root | reference _ | string _ | number _ => rfl

theorem allFit_fullList (ps : List Phrase) : allFit (fullList ps) = true := by
  match ps with
  | [] => rfl
  | p :: ps => rw [fullList, allFit, fits_full p, allFit_fullList ps, Bool.and_true]

end

mutual

theorem bare_full (p : Phrase) : p.full.bare = p.bare := by
  match p with
  | binary op lhs rhs => simp only [full, bare, bare_enclosed, bare_full lhs, bare_full rhs]
  | negate e => simp only [full, bare, bare_enclosed, bare_full e]
  | union lhs rhs => simp only [full, bare, bare_enclosed, bare_full lhs, bare_full rhs]
  | step start axis test ps =>
      simp only [full, bare, bareList_fullList ps]
      split
      · rw [bare_full start]
      · rw [bare_enclosed, bare_full start]
  | filter base p => simp only [full, bare, bare_enclosed, bare_full base, bare_full p]
  | absolute _ _ ps | relative _ _ ps | call _ ps => simp only [full, bare, bareList_fullList ps]
  | parens e => exact bare_full e
  | root | reference _ | string _ | number _ => rfl

theorem bareList_fullList (ps : List Phrase) : bareList (fullList ps) = bareList ps := by
  match ps with
  | [] => rfl
  | p :: ps => rw [fullList, bareList, bareList, bare_full p, bareList_fullList ps]

end

mutual

/-- The tree that a phrase stands for has no parentheses. -/
theorem tree?_bare (p : Phrase) : p.bare.tree? s = p.tree? s := by
  match p with
  | binary op lhs rhs => simp only [bare, tree?, tree?_bare lhs, tree?_bare rhs]
  | negate e => simp only [bare, tree?, tree?_bare e]
  | union lhs rhs => simp only [bare, tree?, tree?_bare lhs, tree?_bare rhs]
  | step start axis test ps => simp only [bare, tree?, tree?_bare start, trees?_bareList ps]
  | filter base p => simp only [bare, tree?, tree?_bare base, tree?_bare p]
  | absolute _ _ ps | relative _ _ ps | call _ ps => simp only [bare, tree?, trees?_bareList ps]
  | parens e => exact tree?_bare e
  | root | reference _ | string _ | number _ => rfl

theorem trees?_bareList (ps : List Phrase) : trees? s (bareList ps) = trees? s ps := by
  match ps with
  | [] => rfl
  | p :: ps => simp only [bareList, trees?, tree?_bare p, trees?_bareList ps]

end

/-! ## What words stand behind -/

def Trails (rest : List Lexeme) : Prop :=
  ∀ k : TokenKind, k.expectsOperand = false → Lexeme.Placed (some k) rest

theorem placed_test {test : TestPhrase} {rest : List Lexeme} (hrest : Trails rest) :
    Lexeme.Placed (some .axis) (test.lexemes ++ rest) := by
  cases test with
  | name | any | inNamespace => exact ⟨rfl, hrest _ rfl⟩
  | node | text | comment => exact ⟨rfl, rfl, hrest _ rfl⟩
  | processingInstruction target =>
      cases target with
      | none => exact ⟨rfl, rfl, hrest _ rfl⟩
      | some _ => exact ⟨rfl, rfl, rfl, hrest _ rfl⟩

open Lexeme

mutual

/-- The words of a phrase stand where an operand is awaited. A root by itself awaits more, and what
follows it must not mind. -/
theorem placed {previous : Option TokenKind} {rest : List Lexeme} (p : Phrase)
    (hfits : p.fits = true) (hprevious : TokenKind.awaitsOperand previous = true)
    (hrest : Trails rest)
    (hroot : p.level = 0 → Placed (some .slash) rest) : Placed previous (p.lexemes ++ rest) := by
  match p with
  | binary op lhs rhs =>
      obtain ⟨hleft, hright, hlhs, hrhs⟩ := fits_binary.mp hfits
      have hop := op.level_pos
      rw [lexemes, List.append_assoc]
      refine placed lhs hlhs hprevious (fun k hk => ?_) fun h => by omega
      exact ⟨op.canFollow_token hk,
        placed rhs hrhs op.expectsOperand_token hrest fun h => by omega⟩
  | negate e =>
      obtain ⟨hlevel, he⟩ := fits_negate.mp hfits
      exact ⟨hprevious, placed e he rfl hrest fun h => by omega⟩
  | union lhs rhs =>
      obtain ⟨hleft, hright, hlhs, hrhs⟩ := fits_union.mp hfits
      rw [lexemes, List.append_assoc]
      refine placed lhs hlhs hprevious (fun k _ => ?_) fun h => by omega
      exact ⟨rfl, placed rhs hrhs rfl hrest fun h => by omega⟩
  | root => exact ⟨rfl, hroot rfl⟩
  | absolute axis test ps =>
      rw [lexemes, List.cons_append, List.append_assoc]
      exact ⟨rfl, rfl, placed_test (trails_predicates ps hfits hrest)⟩
  | relative axis test ps =>
      rw [lexemes, stepLexemes, List.append_assoc]
      exact ⟨hprevious, placed_test (trails_predicates ps hfits hrest)⟩
  | step start axis test ps =>
      obtain ⟨hlevel, hstart, hps⟩ := fits_step.mp hfits
      rw [lexemes, List.append_assoc, List.cons_append, List.append_assoc]
      refine placed start hstart hprevious (fun k _ => ?_) fun h => by omega
      exact ⟨rfl, rfl, placed_test (trails_predicates ps hps hrest)⟩
  | filter base p =>
      obtain ⟨hlevel, hbase, hp⟩ := fits_filter.mp hfits
      have hclose (k : TokenKind) : Placed (some k) (.symbol .rightSquare :: rest) :=
        ⟨rfl, hrest _ rfl⟩
      rw [lexemes, List.append_assoc, List.cons_append, List.append_assoc]
      refine placed base hbase hprevious (fun k _ => ⟨rfl, ?_⟩) fun h => by omega
      exact placed p hp rfl (fun k _ => hclose k) fun _ => hclose _
  | reference _ => exact ⟨rfl, rfl, hrest _ rfl⟩
  | string _ | number _ => exact ⟨rfl, hrest _ rfl⟩
  | call function args => exact ⟨hprevious, placed_arguments args hfits rfl hrest⟩
  | parens e =>
      have hclose (k : TokenKind) : Placed (some k) (.symbol .rightParen :: rest) :=
        ⟨rfl, hrest _ rfl⟩
      rw [lexemes, List.cons_append, List.append_assoc]
      exact ⟨hprevious, placed e hfits rfl (fun k _ => hclose k) fun _ => hclose _⟩

theorem trails_predicates {rest : List Lexeme} (ps : List Phrase) (hfits : allFit ps = true)
    (hrest : Trails rest) : Trails (lexemesOfPredicates ps ++ rest) := by
  match ps with
  | [] => exact hrest
  | p :: ps =>
      rw [allFit, Bool.and_eq_true] at hfits
      have hps := trails_predicates ps hfits.2 hrest
      rw [lexemesOfPredicates, List.cons_append, List.append_assoc]
      exact fun k _ => ⟨rfl, placed p hfits.1 rfl (fun _ _ => ⟨rfl, hps _ rfl⟩)
        fun _ => ⟨rfl, hps _ rfl⟩⟩

theorem placed_arguments {previous : Option TokenKind} {rest : List Lexeme} (args : List Phrase)
    (hfits : allFit args = true) (hprevious : TokenKind.awaitsOperand previous = true)
    (hrest : Trails rest) : Placed previous (lexemesOfArguments args ++ rest) := by
  match args with
  | [] => exact ⟨rfl, hrest _ rfl⟩
  | p :: ps =>
      rw [allFit, Bool.and_eq_true] at hfits
      have hps := placed_moreArguments ps hfits.2 hrest
      rw [lexemesOfArguments, List.append_assoc]
      exact placed p hfits.1 hprevious (fun k _ => hps k) fun _ => hps _

theorem placed_moreArguments {rest : List Lexeme} (args : List Phrase)
    (hfits : allFit args = true) (hrest : Trails rest) (k : TokenKind) :
    Placed (some k) (lexemesOfMoreArguments args ++ rest) := by
  match args with
  | [] => exact ⟨rfl, hrest _ rfl⟩
  | p :: ps =>
      rw [allFit, Bool.and_eq_true] at hfits
      have hps := placed_moreArguments ps hfits.2 hrest
      rw [lexemesOfMoreArguments, List.cons_append, List.append_assoc]
      exact ⟨rfl, placed p hfits.1 rfl (fun k _ => hps k) fun _ => hps _⟩

end

end Phrase

end XPath
