import XPath.Proofs.Lexer.Boundary

/-!
# The words of a text

Reading the tokens of a text one after the other, up to its end (`Lexer.Spells`). An operator
between two texts, in blanks, is read as itself between the words of the two
(`Lexer.Words.operator`), if it can follow the last word of the first text.
-/

namespace XPath.Lexer

open Lexeme

variable {s s' m m' : State} {t e : Token} {ts front : List Token} {tail : List Char}
  {fuel : Nat} {k : TokenKind} {ls lhs rhs : List Lexeme}

/-! ## The next token -/

/-- The text of `s'` is the one of `s` with more behind it, and perhaps white space before it. -/
structure Extends (tail : List Char) (s s' : State) : Prop where
  rest : ∃ gap, (∀ c ∈ gap, isSpace c = true) ∧ s'.rest = gap ++ (s.rest ++ tail)
  expected : s'.operandExpected = s.operandExpected

theorem next_of_spaces (h : ∀ c ∈ s.rest, isSpace c = true) :
    ∃ e m, next s = .ok (e, m) ∧ e.kind = .eof := by
  have hskip : s.skipSpace.rest = [] := List.dropWhile_eq_nil_iff.mpr h
  rw [next, State.token]
  split
  case h_1 => exact ⟨_, _, rfl, rfl⟩
  all_goals
    rename_i hrest
    rw [hskip] at hrest
    cases hrest

/-- Only the end of the text is read as its end; any other token is remembered. -/
theorem next_cases (h : next s = .ok (t, m)) :
    (t.kind = .eof ∧ ∀ c ∈ s.rest, isSpace c = true) ∨
      (t.kind ≠ .eof ∧ m.previous = some t.kind) := by
  by_cases hspaces : ∀ c ∈ s.rest, isSpace c = true
  · obtain ⟨e, m', hend, he⟩ := next_of_spaces hspaces
    rw [h] at hend
    cases hend
    exact .inl ⟨he, hspaces⟩
  · have hne : s.skipSpace.rest ≠ [] := fun hnil => hspaces (List.dropWhile_eq_nil_iff.mp hnil)
    have hrest : s.skipSpace.rest = s.skipSpace.rest ++ [] := (List.append_nil _).symm
    obtain ⟨k, w, v, hk, -, hx, -⟩ := boundary_nil.shares_token h hne hrest rfl
    obtain ⟨rfl, rfl⟩ := Prod.mk.inj hx
    exact .inr ⟨hk, rfl⟩

theorem spaces_of_next (h : next s = .ok (e, m)) (he : e.kind = .eof) :
    ∀ c ∈ s.rest, isSpace c = true := by
  obtain ⟨-, hspaces⟩ | ⟨hne, -⟩ := next_cases h
  · exact hspaces
  · exact absurd he hne

theorem Extends.next (hs : Extends tail s s') (htail : Boundary tail)
    (h : Lexer.next s = .ok (t, m)) (hkind : t.kind ≠ .eof) :
    ∃ t' m', Lexer.next s' = .ok (t', m') ∧ t'.lexeme = t.lexeme ∧ Extends tail m m' := by
  obtain ⟨gap, hgap, hrest⟩ := hs.rest
  cases hskip : s.rest.dropWhile isSpace with
  | nil =>
      obtain ⟨e, m₀, hend, he⟩ := next_of_spaces (List.dropWhile_eq_nil_iff.mp hskip)
      rw [h] at hend
      cases hend
      exact absurd he hkind
  | cons c cs =>
      have hskip' : s'.skipSpace.rest = s.skipSpace.rest ++ tail := by
        show s'.rest.dropWhile isSpace = s.rest.dropWhile isSpace ++ tail
        rw [hrest, List.dropWhile_append_of_pos hgap, hskip, (span_append hskip tail).2]
        rfl
      have hne : s.skipSpace.rest ≠ [] := by
        show s.rest.dropWhile isSpace ≠ []
        rw [hskip]
        nofun
      obtain ⟨k, w, v, -, hlength, hx, htoken⟩ := htail.shares_token h hne hskip' hs.expected
      obtain ⟨rfl, rfl⟩ := Prod.mk.inj hx
      refine ⟨_, _, htoken, rfl, ⟨[], by simp, ?_⟩, rfl⟩
      show s'.skipSpace.rest.drop w.length = s.skipSpace.rest.drop w.length ++ tail
      rw [hskip', List.drop_append_of_le_length hlength]

/-! ## Tokens one after the other -/

def lastKind (ls : List Lexeme) : Option TokenKind := ls.getLast?.map Lexeme.kind

theorem lastKind_append {ls ls' : List Lexeme} {P : TokenKind → Prop}
    (h : ∀ k, lastKind ls = some k → P k) (h' : ∀ k, lastKind ls' = some k → P k) :
    ∀ k, lastKind (ls ++ ls') = some k → P k := by
  intro k hk
  rw [lastKind, List.getLast?_append] at hk
  cases hlast : ls'.getLast? with
  | none =>
      rw [hlast] at hk
      exact h k hk
  | some l =>
      rw [hlast] at hk
      refine h' k ?_
      rw [lastKind, hlast]
      exact hk

/-- Reading the tokens, none of which ends the text, leads from the one state to the other. -/
inductive Spells : State → List Token → State → Prop
  | nil (s : State) : Spells s [] s
  | cons {s m m' : State} {t : Token} {ts : List Token} (h : next s = .ok (t, m))
      (hkind : t.kind ≠ .eof) (hrest : Spells m ts m') : Spells s (t :: ts) m'

namespace Spells

theorem append {us : List Token} (h : Spells s ts m) (h' : Spells m us m') :
    Spells s (ts ++ us) m' := by
  induction h with
  | nil s => exact h'
  | cons h hkind _ ih => exact .cons h hkind (ih h')

theorem kind_ne_eof (h : Spells s ts m) : ∀ t ∈ ts, t.kind ≠ .eof := by
  induction h with
  | nil s => simp
  | cons h hkind _ ih => exact List.forall_mem_cons.mpr ⟨hkind, ih⟩

theorem previous_eq (h : Spells s ts m) :
    m.previous = (lastKind (ts.map Token.lexeme)).or s.previous := by
  induction h with
  | nil s => rfl
  | @cons s m m' t ts h hkind _ ih =>
      obtain ⟨he, -⟩ | ⟨-, hprevious⟩ := next_cases h
      · exact absurd he hkind
      · rw [ih, hprevious, lastKind, lastKind, List.map_cons, List.getLast?_cons]
        cases (ts.map Token.lexeme).getLast? <;> rfl

theorem extend (h : Spells s ts m) (htail : Boundary tail) (hs : Extends tail s s') :
    ∃ ts' m', Spells s' ts' m' ∧ ts'.map Token.lexeme = ts.map Token.lexeme ∧
      Extends tail m m' := by
  induction h generalizing s' with
  | nil s => exact ⟨[], s', .nil s', rfl, hs⟩
  | @cons s m₁ m t ts h hkind _ ih =>
      obtain ⟨t', m', hnext, hlexeme, hm⟩ := hs.next htail h hkind
      obtain ⟨ts', m'', hrest, hlexemes, hend⟩ := ih hm
      have hkind' : t'.kind ≠ .eof := by
        rwa [show t'.kind = t.kind from congrArg Lexeme.kind hlexeme]
      refine ⟨t' :: ts', m'', .cons hnext hkind' hrest, ?_, hend⟩
      rw [List.map_cons, List.map_cons, hlexeme, hlexemes]

theorem tokensWith (h : Spells s ts m) (hnext : next m = .ok (e, m')) (he : e.kind = .eof)
    (hfuel : ts.length < fuel) : tokensWith fuel s = (ts ++ [e], none) := by
  induction h generalizing fuel with
  | nil s =>
      obtain ⟨fuel, rfl⟩ : ∃ n, fuel = n + 1 := ⟨fuel - 1, by omega⟩
      rw [Lexer.tokensWith, hnext]
      exact if_pos he
  | @cons s m₁ m t ts h hkind _ ih =>
      obtain ⟨fuel, rfl⟩ : ∃ n, fuel = n + 1 := ⟨fuel - 1, by omega⟩
      rw [List.length_cons] at hfuel
      rw [Lexer.tokensWith, h]
      dsimp only
      rw [if_neg hkind, ih hnext (by omega), List.cons_append]

end Spells

theorem spells_of_tokensWith {failure : Option Error} (h : tokensWith fuel s = (ts, failure))
    (heof : ∃ t ∈ ts, t.kind = .eof) :
    ∃ front e m m', ts = front ++ [e] ∧ failure = none ∧ e.kind = .eof ∧ Spells s front m ∧
      next m = .ok (e, m') ∧ front.length < fuel := by
  induction fuel generalizing s ts with
  | zero =>
      cases h
      obtain ⟨t, ht, -⟩ := heof
      cases ht
  | succ fuel ih =>
      rw [tokensWith] at h
      split at h
      · cases h
        obtain ⟨t, ht, -⟩ := heof
        cases ht
      · rename_i token after hnext
        split at h
        · rename_i he
          cases h
          exact ⟨[], token, s, after, rfl, rfl, he, .nil s, hnext, Nat.succ_pos _⟩
        · rename_i hkind
          obtain ⟨rest, failure', hrest⟩ : ∃ x y, tokensWith fuel after = (x, y) := ⟨_, _, rfl⟩
          rw [hrest] at h
          cases h
          have heof : ∃ t ∈ rest, t.kind = .eof := by simpa [hkind] using heof
          obtain ⟨front, e, m, m', rfl, hfailure, he, hspells, hend, hlength⟩ := ih hrest heof
          exact ⟨token :: front, e, m, m', rfl, hfailure, he, .cons hnext hkind hspells, hend,
            Nat.succ_lt_succ hlength⟩

/-! ## Whole texts -/

/-- The words of a text that is read up to its end. There are no more of them than characters. -/
def Words (source : String) (ls : List Lexeme) : Prop :=
  ∃ ts e m m', Spells (start source) ts m ∧ next m = .ok (e, m') ∧ e.kind = .eof ∧
    ts.length ≤ source.toList.length ∧ ts.map Token.lexeme = ls

namespace Words

variable {source left right : String}

theorem tokens (h : Words source ls) : ∃ ts e, tokens source = (ts ++ [e], none) ∧
    ts.map Token.lexeme = ls ∧ e.kind = .eof := by
  obtain ⟨ts, e, m, m', hspells, hnext, he, hlength, hls⟩ := h
  exact ⟨ts, e, hspells.tokensWith hnext he (Nat.lt_succ_of_le hlength), hls, he⟩

theorem of_tokens {failure : Option Error} (h : Lexer.tokens source = (ts, failure))
    (heof : ∃ t ∈ ts, t.kind = .eof) :
    failure = none ∧ ∃ front e, ts = front ++ [e] ∧ e.kind = .eof ∧ (∀ t ∈ front, t.kind ≠ .eof) ∧
      Words source (front.map Token.lexeme) := by
  obtain ⟨front, e, m, m', hts, hfailure, he, hspells, hnext, hlength⟩ :=
    spells_of_tokensWith h heof
  exact ⟨hfailure, front, e, hts, he, hspells.kind_ne_eof,
    front, e, m, m', hspells, hnext, he, Nat.le_of_lt_succ hlength, rfl⟩

section

variable {cs gap : List Char} (hk : k.isSymbol = true)

include hk

theorem head_sign : ∀ c ∈ (k.describe.toList ++ cs).head?, isSpace c = false := by
  obtain ⟨c, ds, hw, hspace, -⟩ := head_of_writes (Writes.symbol hk)
  rw [hw]
  rintro d ⟨⟩
  exact hspace

theorem dropWhile_sign :
    (' ' :: (k.describe.toList ++ cs)).dropWhile isSpace = k.describe.toList ++ cs :=
  dropWhile_append_stop (n := [' ']) (head_sign hk) (by simp [isSpace])

theorem boundary_sign (hparen : k ≠ .leftParen) : Boundary (' ' :: (k.describe.toList ++ cs)) := by
  obtain ⟨c, ds, hw, -, hcolon, hc⟩ := head_of_writes (Writes.symbol hk)
  refine ⟨by rintro d ⟨⟩; rfl, ?_⟩
  rw [dropWhile_sign hk, hw]
  rintro d ⟨⟩
  exact ⟨fun h => hparen (hc h), hcolon⟩

/-- A sign in blanks is the next token, and its blank is left behind it. -/
theorem next_sign (hgap : ∀ c ∈ gap, isSpace c = true)
    (hrest : m.rest = gap ++ ' ' :: (k.describe.toList ++ ' ' :: cs))
    (hfollow : TokenKind.canFollow m.previous k = true) :
    ∃ t m', next m = .ok (t, m') ∧ t.lexeme = .symbol k ∧ m'.rest = ' ' :: cs ∧
      m'.previous = some k := by
  have hskip : m.skipSpace.rest = k.describe.toList ++ ' ' :: cs := by
    show m.rest.dropWhile isSpace = _
    rw [hrest, List.dropWhile_append_of_pos hgap, dropWhile_sign hk]
  have hblank : ∀ c ∈ (' ' :: cs).head?, isSpace c = true := by
    rintro c ⟨⟩
    rfl
  refine ⟨_, _, token_of_symbol hk hskip hblank (suits_of_canFollow hfollow), rfl, ?_, rfl⟩
  show m.skipSpace.rest.drop _ = _
  rw [hskip, List.drop_left]

end

theorem operator (hl : Words left lhs) (hr : Words right rhs)
    (hsource : source.toList = left.toList ++ ' ' :: (k.describe.toList ++ ' ' :: right.toList))
    (hk : k.isSymbol = true) (hparen : k ≠ .leftParen) (hexpects : k.expectsOperand = true)
    (hfollow : TokenKind.canFollow (lastKind lhs) k = true) :
    Words source (lhs ++ .symbol k :: rhs) := by
  obtain ⟨ts, e, m, m', hleft, hend, he, hlength, rfl⟩ := hl
  obtain ⟨us, e', n, n', hright, hend', he', hlength', rfl⟩ := hr
  -- The words of the text on the left lead to the blank in front of the sign.
  have hstart : Extends (' ' :: (k.describe.toList ++ ' ' :: right.toList)) (start left)
      (start source) := ⟨⟨[], by simp, hsource⟩, rfl⟩
  obtain ⟨ts', m₁, hts, hlexemes, ⟨gap, hgap, hrest⟩, -⟩ :=
    hleft.extend (boundary_sign hk hparen) hstart
  have hspaces : ∀ c ∈ gap ++ m.rest, isSpace c = true :=
    List.forall_mem_append.mpr ⟨hgap, spaces_of_next hend he⟩
  have hprevious : m₁.previous = lastKind (ts.map Token.lexeme) := by
    rw [hts.previous_eq, hlexemes]
    exact Option.or_none
  rw [← List.append_assoc] at hrest
  obtain ⟨t, m₂, hsign, ht, hrest₂, hprevious₂⟩ :=
    next_sign hk hspaces hrest (hprevious ▸ hfollow)
  -- Behind the sign an operand must follow, as at the start of a text.
  have hm₂ : Extends [] (start right) m₂ := by
    refine ⟨⟨[' '], by simp [isSpace], ?_⟩, ?_⟩
    · rw [hrest₂, List.append_nil]
      rfl
    · rw [operandExpected_eq, hprevious₂]
      exact hexpects
  obtain ⟨us', n₁, hus, hlexemes', ⟨gap', hgap', hrest'⟩, -⟩ := hright.extend boundary_nil hm₂
  have hspaces' : ∀ c ∈ n₁.rest, isSpace c = true := by
    rw [hrest', List.append_nil]
    exact List.forall_mem_append.mpr ⟨hgap', spaces_of_next hend' he'⟩
  obtain ⟨e'', n₂, hnext, he''⟩ := next_of_spaces hspaces'
  have hkind : t.kind ≠ .eof := by
    rw [show t.kind = k from congrArg Lexeme.kind ht]
    rintro rfl
    cases hk
  refine ⟨ts' ++ t :: us', e'', n₁, n₂, hts.append (.cons hsign hkind hus), hnext, he'', ?_, ?_⟩
  · have hts := congrArg List.length hlexemes
    have hus := congrArg List.length hlexemes'
    simp only [List.length_map] at hts hus
    simp only [hsource, List.length_append, List.length_cons]
    omega
  · rw [List.map_append, List.map_cons, hlexemes, hlexemes', ht]

end Words

end XPath.Lexer
