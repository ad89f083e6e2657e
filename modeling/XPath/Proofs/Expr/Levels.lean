import XPath.Proofs.Expr.Phrase
import XPath.Proofs.Pattern.Grammar

/-!
# Levels of operators

The grammar reads operators level by level, each level from operands of the next one: first an
operand, then what is left of the level behind it (`Expr.readRest`). Words continue at a level if they
are read there as the first part of whatever is read behind them (`Expr.Continues`); if they do at one
level, they do at every looser one, too (`Expr.Continues.below`).
-/

namespace XPath

open Reader

/-! ## Words that a cursor passes -/

namespace Cursor

variable {c d m : Cursor} {l : Lexeme} {ls ls' : List Lexeme}

/-- On its way from the first cursor to the second one, the cursor passes the lexemes. -/
def Passes : Cursor → List Lexeme → Cursor → Prop
  | c, [], d => d = c
  | c, l :: ls, d => c.current.lexeme = l ∧
    ∃ t ts, c.rest = t :: ts ∧ Passes { c with current := t, rest := ts } ls d

theorem passes_append : c.Passes (ls ++ ls') d ↔ ∃ m, c.Passes ls m ∧ m.Passes ls' d := by
  induction ls generalizing c with
  | nil =>
      constructor
      · exact fun h => ⟨c, rfl, h⟩
      · rintro ⟨m, rfl, h⟩
        exact h
  | cons l ls ih =>
      constructor
      · rintro ⟨hl, t, ts, hrest, h⟩
        obtain ⟨m, hm, h⟩ := ih.mp h
        exact ⟨m, ⟨hl, t, ts, hrest, hm⟩, h⟩
      · rintro ⟨m, ⟨hl, t, ts, hrest, hm⟩, h⟩
        exact ⟨hl, t, ts, hrest, ih.mpr ⟨m, hm, h⟩⟩

/-- The first word is under the cursor, and a step leads to the next one. -/
theorem passes_cons (h : c.Passes (l :: ls) d) :
    c.current.kind = l.kind ∧ c.current.value = l.value ∧
      ∃ m, c.step = .ok m ∧ m.rest.length + 1 = c.rest.length ∧ m.Passes ls d := by
  obtain ⟨rfl, t, ts, hrest, h⟩ := h
  refine ⟨rfl, rfl, _, ?_, ?_, h⟩
  · rw [step, hrest]
  · rw [hrest]
    rfl

theorem Passes.length (h : c.Passes ls d) : d.rest.length + ls.length = c.rest.length := by
  induction ls generalizing c with
  | nil =>
      obtain rfl := h
      rfl
  | cons l ls ih =>
      obtain ⟨-, -, m, -, hlength, h⟩ := passes_cons h
      rw [List.length_cons, ← hlength, ← ih h]
      rfl

theorem passes_tokens (source : String) (t : Token) (ts : List Token) (e : Token)
    (failure : Option Error) :
    Passes ⟨source, t, ts ++ [e], failure⟩ ((t :: ts).map Token.lexeme) ⟨source, e, [], failure⟩ := by
  induction ts generalizing t with
  | nil => exact ⟨rfl, e, [], rfl, rfl⟩
  | cons t' ts ih => exact ⟨rfl, t', ts ++ [e], rfl, ih t'⟩

/-- The words of a whole text lead from its first token to its end. -/
theorem exists_passes {source : String} {l : Lexeme} {ts : List Token} {e : Token}
    (h : Lexer.tokens source = (ts ++ [e], none)) (hls : ts.map Token.lexeme = l :: ls) :
    ∃ c d, start source = .ok c ∧ c.Passes (l :: ls) d ∧ d.current = e ∧ d.rest = [] := by
  cases ts with
  | nil => cases hls
  | cons t ts =>
      rw [← hls]
      exact ⟨_, _, start_of_tokens h, passes_tokens source t ts e none, rfl, rfl⟩

end Cursor

namespace Expr

/-! ## Levels -/

def operatorAt : Nat → TokenKind → Option BinaryOperator
  | 1 => orOperator?
  | 2 => andOperator?
  | 3 => equalityOperator?
  | 4 => relationalOperator?
  | 5 => additiveOperator?
  | 6 => multiplicativeOperator?
  | _ => fun _ => none

section

variable (s : StaticScope) (inner : Reader Expr)

/-- The reader of a level: binary operators up to 6, negations, unions, paths, filters and, from 11
on, primary expressions. -/
def readLevel : Nat → Reader Expr
  | 0 | 1 => orExpression s inner
  | 2 => andExpression s inner
  | 3 => equalityExpression s inner
  | 4 => relationalExpression s inner
  | 5 => additiveExpression s inner
  | 6 => multiplicativeExpression s inner
  | 7 => unaryExpression s inner
  | 8 => unionExpression s inner
  | 9 => pathExpression s inner
  | 10 => filtered s inner
  | _ => primary s inner

def readRest : Nat → Nat → Expr → Reader Expr
  | 8, steps, e => moreUnion (pathExpression s inner) steps e
  | 9, steps, e => moreSteps s inner steps e
  | 10, steps, e => do return (← predicateList inner steps).foldl filter e
  | n, steps, e =>
    if n < 7 then moreOperands (operatorAt n) (readLevel s inner (n + 1)) steps e else pure e

end

/-- The level at which a word continues an operand that it stands behind; one that ends every operand
has none. -/
def continues : TokenKind → Option Nat
  | .eof | .comma | .rightParen | .rightSquare => some 0
  | .or => some 1
  | .and => some 2
  | .equals | .notEquals => some 3
  | .lessThan | .lessThanOrEqual | .greaterThan | .greaterThanOrEqual => some 4
  | .plus | .minus => some 5
  | .multiply | .div | .mod => some 6
  | .union => some 8
  | .slash | .slashSlash => some 9
  | .leftSquare => some 10
  | _ => none

/-- An operand of level `n` ends in front of the word. -/
def EndsAt (n : Nat) (k : TokenKind) : Prop := ∃ m, continues k = some m ∧ m < n

theorem EndsAt.mono {n n' : Nat} {k : TokenKind} (h : EndsAt n k) (hle : n ≤ n') : EndsAt n' k := by
  obtain ⟨m, hm, hlt⟩ := h
  exact ⟨m, hm, by omega⟩

variable {s : StaticScope} {inner : Reader Expr} {c d m : Cursor} {e f : Expr} {n k : Nat}
  {ls : List Lexeme}

theorem takes_moreOperands_still {operator? : TokenKind → Option BinaryOperator}
    {operand : Reader Expr} (hd : operator? d.current.kind = none) (n : Nat) :
    Takes (moreOperands operator? operand n e) d e d := by
  cases n with
  | zero => exact takes_pure.mpr ⟨rfl, rfl⟩
  | succ n =>
      rw [moreOperands]
      refine takes_bind.mpr ⟨_, d, takes_kind.mpr ⟨rfl, rfl⟩, ?_⟩
      rw [hd]
      exact takes_pure.mpr ⟨rfl, rfl⟩

theorem continues_of_operatorAt {op : BinaryOperator} {k : TokenKind}
    (h : operatorAt n k = some op) : continues k = some n := by
  unfold operatorAt at h
  split at h <;> cases k <;> first | rfl | cases h

theorem EndsAt.ne {k k' : TokenKind} {j : Nat} (h : EndsAt n k) (hk : continues k' = some j)
    (hle : n ≤ j) : k ≠ k' := by
  rintro rfl
  obtain ⟨m, hm, hlt⟩ := h
  rw [hk] at hm
  cases hm
  omega

/-- Nothing is left of a level in front of a word that ends its operands. -/
theorem takes_readRest_still (hend : EndsAt n d.current.kind) (steps : Nat) :
    Takes (readRest s inner n steps e) d e d := by
  unfold readRest
  split
  · exact takes_moreUnion_still (hend.ne rfl le_rfl) _
  · exact takes_moreSteps_still (hend.ne rfl le_rfl) (hend.ne rfl le_rfl) _
  · have hnil : Takes (predicateList inner steps) d [] d := by
      cases steps with
      | zero => exact takes_pure.mpr ⟨rfl, rfl⟩
      | succ steps =>
          have hsquare : d.current.kind ≠ .leftSquare := hend.ne rfl le_rfl
          rw [predicateList]
          exact takes_bind.mpr ⟨false, d, takes_sees.mpr ⟨by simpa using hsquare, rfl⟩,
            takes_pure.mpr ⟨rfl, rfl⟩⟩
    exact takes_bind.mpr ⟨[], d, hnil, takes_pure.mpr ⟨rfl, rfl⟩⟩
  · split
    · refine takes_moreOperands_still ?_ _
      cases hop : operatorAt n d.current.kind with
      | none => rfl
      | some op => exact absurd rfl (hend.ne (continues_of_operatorAt hop) le_rfl)
    · exact takes_pure.mpr ⟨rfl, rfl⟩

/-! ## From one level to the next -/

def startsPrimary : TokenKind → Bool
  | .dollar | .leftParen | .literal | .number | .functionName => true
  | _ => false

theorem kind_of_primary (h : Takes (primary s inner) c e d) :
    startsPrimary c.current.kind = true := by
  obtain ⟨k, _, hk, h⟩ := takes_bind.mp h
  obtain ⟨rfl, rfl⟩ := takes_kind.mp hk
  split at h
  all_goals first | (rename_i hkind; rw [hkind]; rfl) | exact absurd h (not_takes_faultHere _)

theorem takes_pathExpression_of_filtered (h : Takes (filtered s inner) c e m)
    (hrest : Takes (continuePath s inner e) m f d) : Takes (pathExpression s inner) c f d := by
  obtain ⟨base, m', hbase, -⟩ := takes_bind.mp h
  have hkind := kind_of_primary hbase
  refine takes_bind.mpr ⟨_, c, takes_kind.mpr ⟨rfl, rfl⟩, ?_⟩
  split
  · rename_i hslash
    rw [hslash] at hkind
    cases hkind
  · rename_i hslashes
    rw [hslashes] at hkind
    cases hkind
  · have hstep : startsStep c.current.kind = false := by
      cases hk : c.current.kind <;> rw [hk] at hkind <;> first | rfl | cases hkind
    rw [if_neg (by simp [hstep])]
    exact takes_bind.mpr ⟨e, m, h, hrest⟩

theorem readRest_of_lt (hn : n < 7) (steps : Nat) : readRest s inner n steps e =
    moreOperands (operatorAt n) (readLevel s inner (n + 1)) steps e := by
  unfold readRest
  split
  · omega
  · omega
  · omega
  · exact if_pos hn

theorem readLevel_eq_operatorLevel (hn : 1 ≤ n) (hle : n ≤ 6) :
    readLevel s inner n = operatorLevel (operatorAt n) (readLevel s inner (n + 1)) := by
  match n, hn, hle with
  | 1, _, _ | 2, _, _ | 3, _, _ | 4, _, _ | 5, _, _ | 6, _, _ => rfl

theorem takes_readLevel (hn : 1 ≤ n) (hle : n ≤ 10) (h : Takes (readLevel s inner (n + 1)) c e m)
    (hrest : ∀ steps, m.rest.length < steps → Takes (readRest s inner n steps e) m f d) :
    Takes (readLevel s inner n) c f d := by
  have hremaining : Takes remaining m m.rest.length m := takes_remaining.mpr ⟨rfl, rfl⟩
  have hrest := hrest _ (Nat.lt_succ_self _)
  have hoperators (hlt : n < 7) :
      Takes (operatorLevel (operatorAt n) (readLevel s inner (n + 1))) c f d := by
    rw [readRest_of_lt hlt] at hrest
    exact takes_bind.mpr ⟨e, m, h, takes_bind.mpr ⟨_, m, hremaining, hrest⟩⟩
  match n, hn, hle with
  | 1, _, _ | 2, _, _ | 3, _, _ | 4, _, _ | 5, _, _ | 6, _, _ => exact hoperators (by decide)
  | 7, _, _ =>
      obtain ⟨rfl, rfl⟩ := takes_pure.mp hrest
      obtain ⟨lhs, m', hpath, -⟩ := takes_bind.mp h
      refine takes_bind.mpr ⟨_, c, takes_remaining.mpr ⟨rfl, rfl⟩, ?_⟩
      rw [negations]
      refine takes_bind.mpr ⟨false, c, takes_sees.mpr ⟨?_, rfl⟩, h⟩
      simpa using kind_of_pathExpression hpath
  | 8, _, _ => exact takes_bind.mpr ⟨e, m, h, takes_bind.mpr ⟨_, m, hremaining, hrest⟩⟩
  -- A path that begins with a filter expression: no step and no slash can stand for it.
  | 9, _, _ => exact takes_pathExpression_of_filtered h (takes_bind.mpr ⟨_, m, hremaining, hrest⟩)
  | 10, _, _ =>
      obtain ⟨es, m', hes, hfold⟩ := takes_bind.mp hrest
      exact takes_bind.mpr ⟨e, m, h, takes_bind.mpr ⟨es, m',
        takes_bind.mpr ⟨_, m, hremaining, hes⟩, hfold⟩⟩

/-- The words are read at level `n` as `e` and as the first part of what goes on behind them. -/
def Continues (s : StaticScope) (inner : Reader Expr) (n : Nat) (ls : List Lexeme) (e : Expr) :
    Prop :=
  ∀ c m f d, c.Passes ls m → EndsAt (n + 1) m.current.kind →
    (∀ steps, m.rest.length < steps → Takes (readRest s inner n steps e) m f d) →
      Takes (readLevel s inner n) c f d

/-- The words are read at level `n` as `e`, in front of a word that ends operands of the level. -/
def ReadsAt (s : StaticScope) (inner : Reader Expr) (n : Nat) (ls : List Lexeme) (e : Expr) :
    Prop :=
  ∀ c m, c.Passes ls m → EndsAt n m.current.kind → Takes (readLevel s inner n) c e m

/-- An operand of a level is the first part of whatever is read there. -/
theorem ReadsAt.continues (h : ReadsAt s inner (n + 1) ls e) (hn : 1 ≤ n) (hle : n ≤ 10) :
    Continues s inner n ls e :=
  fun c m _ _ hc hend hrest => takes_readLevel hn hle (h c m hc hend) hrest

namespace Continues

theorem takes (h : Continues s inner n ls e) (hc : c.Passes ls m) (hend : EndsAt n m.current.kind) :
    Takes (readLevel s inner n) c e m :=
  h c m e m hc (hend.mono (Nat.le_succ n)) fun steps _ => takes_readRest_still hend steps

theorem readsAt (h : Continues s inner n ls e) : ReadsAt s inner n ls e := fun _ _ hc hend =>
  h.takes hc hend

theorem below (h : Continues s inner n ls e) (hn : n ≤ 11) (hk : 1 ≤ k) (hle : k ≤ n) :
    Continues s inner k ls e := by
  induction n, hle using Nat.le_induction with
  | base => exact h
  | succ n hle ih => exact ih (h.readsAt.continues (by omega) (by omega)) (by omega)

end Continues

/-- The words in front of an end of all operands are read as `e`. -/
def ReadsNested (inner : Reader Expr) (ls : List Lexeme) (e : Expr) : Prop :=
  ∀ c m, c.Passes ls m → EndsAt 1 m.current.kind → Takes inner c e m

/-! ## Operators -/

section

variable {lhs rhs : List Lexeme} {a b : Expr}

theorem operatorAt_token (op : BinaryOperator) : operatorAt op.level op.token = some op := by
  cases op <;> rfl

namespace Continues

theorem binary {op : BinaryOperator} (hl : Continues s inner op.level lhs a)
    (hr : ReadsAt s inner (op.level + 1) rhs b) :
    Continues s inner op.level (lhs ++ .symbol op.token :: rhs) (.binary op a b) := by
  intro c m f d hc hend hrest
  obtain ⟨m₁, hlhs, hc⟩ := Cursor.passes_append.mp hc
  obtain ⟨hkind, -, m₂, hstep, hlength, hrhs⟩ := Cursor.passes_cons hc
  have hkind : m₁.current.kind = op.token := hkind
  have hcontinues := continues_of_operatorAt (operatorAt_token op)
  -- The operator and its right operand are part of what is left behind the left operand.
  refine hl c m₁ f d hlhs ⟨op.level, hkind ▸ hcontinues, Nat.lt_succ_self _⟩ fun steps hsteps => ?_
  obtain ⟨steps, rfl⟩ : ∃ k, steps = k + 1 := ⟨steps - 1, by omega⟩
  have hle := hrhs.length
  have hmore := hrest steps (by omega)
  rw [readRest_of_lt op.level_lt] at hmore ⊢
  rw [moreOperands]
  refine takes_at hkind ?_
  rw [operatorAt_token]
  exact takes_over hstep (takes_bind.mpr ⟨b, m, hr m₂ m hrhs hend, hmore⟩)

theorem negate (h : Continues s inner 7 ls a) :
    Continues s inner 7 (.symbol .negate :: ls) (.negate a) := by
  intro c m f d hc hend hrest
  obtain ⟨hkind, -, m₁, hstep, hlength, hc⟩ := Cursor.passes_cons hc
  have hkind : c.current.kind = .negate := hkind
  obtain ⟨rfl, rfl⟩ := takes_pure.mp (hrest _ (Nat.lt_succ_self _))
  obtain ⟨_, m₁, hremaining, hoperand⟩ :=
    takes_bind.mp (h m₁ d a d hc hend fun _ _ => takes_pure.mpr ⟨rfl, rfl⟩)
  obtain ⟨rfl, rfl⟩ := takes_remaining.mp hremaining
  refine takes_bind.mpr ⟨_, c, takes_remaining.mpr ⟨rfl, rfl⟩, ?_⟩
  rw [negations]
  refine takes_bind.mpr ⟨true, c, takes_sees.mpr ⟨by simp [hkind], rfl⟩, ?_⟩
  rw [← hlength]
  exact takes_over hstep (takes_bind.mpr ⟨a, d, hoperand, takes_pure.mpr ⟨rfl, rfl⟩⟩)

theorem union (hl : Continues s inner 8 lhs a) (hr : Continues s inner 9 rhs b)
    (ha : a.isUnionOperand = true) (hb : b.isUnionOperand = true) :
    Continues s inner 8 (lhs ++ .symbol .union :: rhs) (.setOperation .union a b) := by
  intro c m f d hc hend hrest
  obtain ⟨m₁, hlhs, hc⟩ := Cursor.passes_append.mp hc
  obtain ⟨hkind, -, m₂, hstep, hlength, hrhs⟩ := Cursor.passes_cons hc
  have hkind : m₁.current.kind = .union := hkind
  refine hl c m₁ f d hlhs ⟨8, by rw [hkind]; rfl, by decide⟩ fun steps hsteps => ?_
  obtain ⟨steps, rfl⟩ : ∃ k, steps = k + 1 := ⟨steps - 1, by omega⟩
  have hle := hrhs.length
  have hmore : Takes (moreUnion (pathExpression s inner) steps (.setOperation .union a b)) m f d :=
    hrest steps (by omega)
  show Takes (moreUnion (pathExpression s inner) (steps + 1) a) m₁ f d
  rw [moreUnion]
  refine takes_bind.mpr ⟨true, m₁, takes_sees.mpr ⟨by simp [hkind], rfl⟩, ?_⟩
  refine takes_over hstep (takes_bind.mpr ⟨b, m, hr.takes hrhs hend, ?_⟩)
  simpa [ha, hb] using hmore

end Continues

end

end Expr

end XPath
