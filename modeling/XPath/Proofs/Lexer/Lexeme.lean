import Mathlib
import XPath.Lexer

/-!
# Words of a text

A text that writes words one after the other, with white space between them, is read as just these
words (`Lexer.exists_tokens`), provided that each stands where it is told from words that are spelled
alike: names and signs where an operand must follow, operators where none can.
-/

namespace XPath

/-- A token without its place. -/
structure Lexeme where
  kind : TokenKind
  value : String
  deriving DecidableEq, Repr

def Token.lexeme (t : Token) : Lexeme := ⟨t.kind, t.value⟩

namespace TokenKind

/-- The kinds of tokens that are always written alike. -/
def isSymbol : TokenKind → Bool
  | eof | name | functionName | nodeType | axis | namespaceWildcard | literal | number => false
  | _ => true

/-- Whether an operand must follow a token of the kind, or the start of the text. -/
def awaitsOperand (previous : Option TokenKind) : Bool := previous.elim true expectsOperand

/-- Whether every word behind a token of the kind `previous` is read as one of the kind `k`, if it is
spelled so. -/
def canFollow (previous : Option TokenKind) : TokenKind → Bool
  | name | functionName | nodeType | axis | namespaceWildcard | star | negate | leftParen =>
    awaitsOperand previous
  | multiply | minus | div | mod | and | or => !awaitsOperand previous
  | _ => true

end TokenKind

/-- The text begins with a digit, or with a point and a digit. -/
def Lexer.startsNumeral : List Char → Bool
  | '.' :: c :: _ => c.isDigit
  | c :: _ => c.isDigit
  | [] => false

namespace Lexeme

def symbol (k : TokenKind) : Lexeme := ⟨k, k.describe⟩

/-- The ways to write a lexeme. White space may stand within a function name, a node type or an
axis, before the punctuation that tells it from an element name. -/
inductive Writes : Lexeme → List Char → Prop
  | symbol {k : TokenKind} (h : k.isSymbol = true) : Writes (symbol k) k.describe.toList
  | name {n : List Char} (h : Lexer.qName? n = some (n, [])) : Writes ⟨.name, .ofList n⟩ n
  | wildcard {n : List Char} (h : Lexer.ncName? n = some (n, [])) :
      Writes ⟨.namespaceWildcard, .ofList n⟩ (n ++ [':', '*'])
  | axis {n gap : List Char} (h : Lexer.qName? n = some (n, []))
      (hgap : ∀ c ∈ gap, isSpace c = true) :
      Writes ⟨.axis, .ofList n⟩ (n ++ (gap ++ [':', ':']))
  | opening {n gap : List Char} (h : Lexer.qName? n = some (n, []))
      (hgap : ∀ c ∈ gap, isSpace c = true) :
      Writes ⟨if Lexer.isNodeTypeName (.ofList n) then .nodeType else .functionName, .ofList n⟩
        (n ++ (gap ++ ['(']))
  | literal {quote : Char} {body : List Char} (hquote : quote = '"' ∨ quote = '\'')
      (h : quote ∉ body) : Writes ⟨.literal, .ofList body⟩ (quote :: body ++ [quote])
  | number {n : List Char} (hstart : Lexer.startsNumeral n = true)
      (h : Lexer.numeral n = (n, [])) : Writes ⟨.number, .ofList n⟩ n

/-- The text writes the lexemes one after the other, with white space between them. -/
inductive Renders : List Lexeme → List Char → Prop
  | blank {cs : List Char} (h : ∀ c ∈ cs, isSpace c = true) : Renders [] cs
  | word {l : Lexeme} {ls : List Lexeme} {gap w cs : List Char}
      (hgap : ∀ c ∈ gap, isSpace c = true) (hw : l.Writes w)
      (hend : ∀ c ∈ cs.head?, isSpace c = true) (h : Renders ls cs) :
      Renders (l :: ls) (gap ++ (w ++ cs))

def Placed : Option TokenKind → List Lexeme → Prop
  | _, [] => True
  | previous, l :: ls => TokenKind.canFollow previous l.kind = true ∧ Placed (some l.kind) ls

/-- Whether the lexeme is read behind a token of the kind `previous`, if it is spelled so. Where no
operand must follow a name may stand that is not one of an operator; a parenthesis behind a name
belongs to it. -/
def suits (l : Lexeme) (previous : Option TokenKind) : Bool :=
  match l.kind with
  | .name | .functionName | .nodeType | .axis | .namespaceWildcard =>
    TokenKind.awaitsOperand previous || (Lexer.operatorName? l.value).isNone
  | .leftParen => previous != some .name
  | k => TokenKind.canFollow previous k

/-- Each lexeme is read behind the one before it. -/
def Suited : Option TokenKind → List Lexeme → Prop
  | _, [] => True
  | previous, l :: ls => l.suits previous = true ∧ Suited (some l.kind) ls

theorem suits_of_canFollow {l : Lexeme} {previous : Option TokenKind}
    (h : TokenKind.canFollow previous l.kind = true) : l.suits previous = true := by
  obtain ⟨k, v⟩ := l
  cases k with
  | name | functionName | nodeType | axis | namespaceWildcard =>
      exact Bool.or_eq_true_iff.mpr (.inl h)
  | leftParen =>
      refine bne_iff_ne.mpr ?_
      rintro rfl
      cases h
  | _ => exact h

theorem Placed.suited {ls : List Lexeme} {previous : Option TokenKind} (h : Placed previous ls) :
    Suited previous ls := by
  induction ls generalizing previous with
  | nil => trivial
  | cons l ls ih => exact ⟨suits_of_canFollow h.1, ih h.2⟩

end Lexeme

namespace Lexer

open Lexeme

variable {l : Lexeme} {ls : List Lexeme} {n w cs gap : List Char} {s : State} {c : Char}
  {k : TokenKind}

/-! ## Characters -/

theorem isSpace_cases (h : isSpace c = true) : c = ' ' ∨ c = '\t' ∨ c = '\n' ∨ c = '\r' := by
  simpa [isSpace, or_assoc] using h

theorem not_isNameChar_of_isSpace (h : isSpace c = true) : isNameChar c = false := by
  rcases isSpace_cases h with rfl | rfl | rfl | rfl <;> decide

theorem not_isDigit_of_isSpace (h : isSpace c = true) : c.isDigit = false := by
  rcases isSpace_cases h with rfl | rfl | rfl | rfl <;> decide

theorem not_isDigit_of_isNameStart (h : isNameStart c = true) : c.isDigit = false := by
  cases hdigit : c.isDigit with
  | false => rfl
  | true =>
      rw [Char.isDigit, Bool.and_eq_true, decide_eq_true_iff, decide_eq_true_iff] at hdigit
      obtain ⟨hlow, hhigh⟩ := hdigit
      have hlow : 48 ≤ c.toNat := hlow
      have hhigh : c.toNat ≤ 57 := hhigh
      have hletter : Text.isAlphabetic c = c.isAlpha := if_pos (by omega)
      rw [isNameStart, hletter] at h
      simp only [Char.isAlpha, Char.isUpper, Char.isLower, Bool.or_eq_true, Bool.and_eq_true,
        decide_eq_true_iff, beq_iff_eq] at h
      rcases h with (⟨hupper, -⟩ | ⟨hlower, -⟩) | rfl
      · have hupper : 65 ≤ c.toNat := UInt32.le_iff_toNat_le.mp hupper
        omega
      · have hlower : 97 ≤ c.toNat := UInt32.le_iff_toNat_le.mp hlower
        omega
      · exact absurd hhigh (by decide)

section

variable {p : Char → Bool} (h : ∀ c ∈ cs.head?, p c = false)

include h

theorem takeWhile_append_tail (ds : List Char) : (ds ++ cs).takeWhile p = ds.takeWhile p := by
  induction ds with
  | nil =>
      cases cs with
      | nil => rfl
      | cons c cs => simp [h c rfl]
  | cons d ds ih => simp only [List.cons_append, List.takeWhile_cons, ih]

theorem dropWhile_append_tail (ds : List Char) :
    (ds ++ cs).dropWhile p = ds.dropWhile p ++ cs := by
  induction ds with
  | nil =>
      cases cs with
      | nil => rfl
      | cons c cs => simp [h c rfl]
  | cons d ds ih =>
      simp only [List.cons_append, List.dropWhile_cons, ih]
      split <;> rfl

theorem takeWhile_append_stop (hn : ∀ c ∈ n, p c = true) : (n ++ cs).takeWhile p = n := by
  rw [takeWhile_append_tail h, List.takeWhile_eq_self_iff.mpr hn]

theorem dropWhile_append_stop (hn : ∀ c ∈ n, p c = true) : (n ++ cs).dropWhile p = cs := by
  rw [dropWhile_append_tail h, List.dropWhile_eq_nil_iff.mpr hn, List.nil_append]

end

/-! ## Names and numbers in front of other text -/

theorem ncName?_eq_some {x : List Char × List Char} (h : ncName? cs = some x) :
    ∃ c ds, cs = c :: ds ∧ isNameStart c = true ∧
      x = (c :: ds.takeWhile isNameChar, ds.dropWhile isNameChar) := by
  cases cs with
  | nil => cases h
  | cons c ds =>
      rw [ncName?] at h
      split at h
      · rename_i hstart
        exact ⟨c, ds, rfl, hstart, (Option.some.inj h).symm⟩
      · cases h

theorem ncName?_append_tail (hend : ∀ c ∈ cs.head?, isNameChar c = false) (ds : List Char) :
    ncName? (ds ++ cs) = (ncName? ds).map fun x => (x.1, x.2 ++ cs) := by
  cases ds with
  | nil =>
      cases cs with
      | nil => rfl
      | cons c cs =>
          have hstart : ¬isNameStart c = true := by
            intro hstart
            rw [isNameStart, Bool.or_eq_true] at hstart
            have hchar := hend c rfl
            obtain hletter | hline := hstart
            · simp [isNameChar, hletter] at hchar
            · simp [isNameChar, hline] at hchar
          rw [List.nil_append, ncName?, if_neg hstart]
          rfl
  | cons d ds =>
      rw [List.cons_append, ncName?, ncName?, takeWhile_append_tail hend,
        dropWhile_append_tail hend]
      split <;> rfl

theorem ncName?_append (h : ncName? n = some (n, []))
    (hend : ∀ c ∈ cs.head?, isNameChar c = false) : ncName? (n ++ cs) = some (n, cs) := by
  rw [ncName?_append_tail hend, h]
  rfl

theorem ncName?_front {front rest : List Char} (h : ncName? n = some (front, rest)) :
    n = front ++ rest ∧ ncName? front = some (front, []) := by
  obtain ⟨c, ds, rfl, hstart, heq⟩ := ncName?_eq_some h
  obtain ⟨rfl, rfl⟩ := Prod.mk.inj heq
  refine ⟨by rw [List.cons_append, List.takeWhile_append_dropWhile], ?_⟩
  have hall : ∀ d ∈ ds.takeWhile isNameChar, isNameChar d = true := fun d hd =>
    List.mem_takeWhile_imp hd
  rw [ncName?, if_pos hstart, List.takeWhile_eq_self_iff.mpr hall,
    List.dropWhile_eq_nil_iff.mpr hall]

theorem qName?_of_ncName? (h : ncName? n = some (n, []))
    (hend : ∀ c ∈ cs.head?, isNameChar c = false)
    (hcolon : ∀ after, cs = ':' :: after → ncName? after = none) :
    qName? (n ++ cs) = some (n, cs) := by
  rw [qName?, ncName?_append h hend]
  split
  · rename_i heq
    cases heq
  · rename_i heq
    cases heq
    rw [hcolon _ rfl]
  · rename_i heq
    rw [heq]

theorem qName?_cases (h : qName? n = some (n, [])) : ncName? n = some (n, []) ∨
    ∃ front back, n = front ++ ':' :: back ∧ ncName? front = some (front, []) ∧
      ncName? back = some (back, []) := by
  rw [qName?] at h
  split at h
  · cases h
  · rename_i front after hfound
    obtain ⟨hn, hfront⟩ := ncName?_front hfound
    split at h
    · rename_i back rest hfound'
      obtain ⟨-, rfl⟩ := Prod.mk.inj (Option.some.inj h)
      obtain ⟨hafter, hback⟩ := ncName?_front hfound'
      rw [hafter, List.append_nil] at hn
      exact .inr ⟨front, back, hn, hfront, hback⟩
    · cases h
  · rename_i hfound
    exact .inl (hfound.trans h)

/-- A name ends where no more of a name can follow, whether it has a prefix or not. -/
theorem qName?_of_qName? (h : qName? n = some (n, []))
    (hend : ∀ c ∈ cs.head?, isNameChar c = false)
    (hcolon : ∀ after, cs = ':' :: after → ncName? after = none) :
    qName? (n ++ cs) = some (n, cs) := by
  obtain hn | ⟨front, back, rfl, hfront, hback⟩ := qName?_cases h
  · exact qName?_of_ncName? hn hend hcolon
  · have hstop : ∀ c ∈ (':' :: (back ++ cs)).head?, isNameChar c = false := by
      rintro c ⟨⟩
      decide
    rw [List.append_assoc, List.cons_append, qName?, ncName?_append hfront hstop]
    simp only [ncName?_append hback hend]

section

variable (hend : ∀ c ∈ cs.head?, isSpace c = true)

include hend

theorem ne_cons_of_head (hc : isSpace c = false) (ds : List Char) : cs ≠ c :: ds := by
  rintro rfl
  have hspace := hend c rfl
  rw [hc] at hspace
  cases hspace

theorem qName?_append_tail (ds : List Char) :
    qName? (ds ++ cs) = (qName? ds).map fun x => (x.1, x.2 ++ cs) := by
  have hstop : ∀ c ∈ cs.head?, isNameChar c = false := fun c hc =>
    not_isNameChar_of_isSpace (hend c hc)
  rw [qName?, qName?, ncName?_append_tail hstop]
  cases ncName? ds with
  | none => rfl
  | some found =>
      obtain ⟨front, rest⟩ := found
      cases rest with
      | nil =>
          rw [Option.map_some, List.nil_append]
          split
          · rename_i heq
            cases heq
          · rename_i heq
            cases heq
            exact absurd rfl (ne_cons_of_head hend rfl _)
          · rename_i heq
            cases heq
            rfl
      | cons d rest =>
          by_cases hd : d = ':'
          · subst hd
            simp only [Option.map_some, List.cons_append, ncName?_append_tail hstop]
            cases ncName? rest <;> rfl
          · simp [hd]

theorem qName?_append (h : qName? n = some (n, [])) : qName? (n ++ cs) = some (n, cs) := by
  rw [qName?_append_tail hend, h]
  rfl

theorem numeral_append_tail (ds : List Char) :
    numeral (ds ++ cs) = ((numeral ds).1, (numeral ds).2 ++ cs) := by
  have hstop : ∀ c ∈ cs.head?, c.isDigit = false := fun c hc => not_isDigit_of_isSpace (hend c hc)
  rw [numeral, numeral, takeWhile_append_tail hstop, dropWhile_append_tail hstop]
  cases ds.dropWhile Char.isDigit with
  | nil =>
      rw [List.nil_append]
      split
      · exact absurd rfl (ne_cons_of_head hend rfl _)
      · rfl
  | cons d rest =>
      by_cases hd : d = '.'
      · subst hd
        simp only [List.cons_append, takeWhile_append_tail hstop, dropWhile_append_tail hstop]
      · simp [hd]

theorem numeral_append (h : numeral n = (n, [])) : numeral (n ++ cs) = (n, cs) := by
  rw [numeral_append_tail hend, h]
  rfl

end

/-! ## One token -/

theorem operandExpected_eq (s : State) : s.operandExpected = TokenKind.awaitsOperand s.previous := by
  unfold State.operandExpected TokenKind.awaitsOperand
  cases s.previous <;> rfl

theorem isNameStart_of_qName? {x : List Char × List Char} (h : qName? cs = some x) :
    ∃ c ds, cs = c :: ds ∧ isNameStart c = true := by
  rw [qName?] at h
  cases hfound : ncName? cs with
  | none =>
      rw [hfound] at h
      cases h
  | some found =>
      obtain ⟨c, ds, rfl, hstart, -⟩ := ncName?_eq_some hfound
      exact ⟨c, ds, rfl, hstart⟩

theorem token_of_name (h : qName? s.rest = some (n, cs)) : s.token =
    .ok (s.take (classifyName s.operandExpected n cs).1
      (n ++ (classifyName s.operandExpected n cs).2) (.ofList n)) := by
  obtain ⟨c, ds, hcons, hstart⟩ := isNameStart_of_qName? h
  have hhead {d : Char} {es : List Char} (hrest : s.rest = d :: es) : isNameStart d = true := by
    obtain ⟨rfl, -⟩ := List.cons.inj (hcons.symm.trans hrest)
    exact hstart
  unfold State.token
  split
  case h_1 hrest =>
      rw [hrest] at hcons
      cases hcons
  case h_27 hrest =>
      rw [if_neg (by simp [not_isDigit_of_isNameStart (hhead hrest)]), h]
      rfl
  all_goals exact absurd (hhead (by assumption)) (by decide)

theorem token_of_startsNumeral (hstart : startsNumeral s.rest = true) :
    s.token = (let (text, rest) := numeral s.rest
      if strayPoint rest then
        .error (.syntaxFault s.source (.invalidNumber (.ofList (text ++ ['.']))))
      else .ok (s.take .number text (.ofList text))) := by
  unfold State.token
  split
  case h_23 hrest =>
      rw [hrest, startsNumeral] at hstart
      rw [if_pos hstart]
      rfl
  case h_27 hpoint _ _ _ hrest =>
      rw [hrest, startsNumeral] at hstart
      · rw [if_pos hstart]
        rfl
      · exact hpoint
  all_goals
    rename_i hrest
    rw [hrest] at hstart
    cases hstart

theorem token_of_numeral (hstart : startsNumeral s.rest = true) (h : numeral s.rest = (n, cs))
    (hpoint : strayPoint cs = false) : s.token = .ok (s.take .number n (.ofList n)) := by
  rw [token_of_startsNumeral hstart, h]
  dsimp only
  rw [hpoint]
  rfl

theorem startsNumeral_cons (hc : c ≠ '.') : startsNumeral (c :: cs) = c.isDigit := by
  rw [startsNumeral]
  exact fun _ _ hpoint _ => hc hpoint

theorem startsNumeral_append (h : startsNumeral n = true) : startsNumeral (n ++ cs) = true := by
  match n, h with
  | c :: ds, h =>
      by_cases hc : c = '.'
      · subst hc
        cases ds with
        | nil => cases h
        | cons d ds => exact h
      · rw [startsNumeral_cons hc] at h
        rw [List.cons_append, startsNumeral_cons hc, h]

theorem token_of_quote {quote : Char} {text : List Char} (hquote : quote = '"' ∨ quote = '\'')
    (hrest : s.rest = quote :: text) :
    s.token = (let body := text.takeWhile (· != quote)
      match text.dropWhile (· != quote) with
      | [] => .error (.syntaxFault s.source .unmatchedQuote)
      | _ :: _ => .ok (s.take .literal (quote :: body ++ [quote]) (.ofList body))) := by
  obtain ⟨source, rest, offset, previous⟩ := s
  obtain rfl : rest = _ := hrest
  rcases hquote with rfl | rfl <;> rfl

theorem token_of_literal {quote : Char} {body : List Char} (hquote : quote = '"' ∨ quote = '\'')
    (h : quote ∉ body) (hrest : s.rest = quote :: (body ++ quote :: cs)) :
    s.token = .ok (s.take .literal (quote :: body ++ [quote]) (.ofList body)) := by
  have hbody : ∀ c ∈ body, (c != quote) = true := fun c hc =>
    bne_iff_ne.mpr fun heq => h (heq ▸ hc)
  have hstop : ∀ c ∈ (quote :: cs).head?, (c != quote) = false := by
    rintro c ⟨⟩
    exact bne_self_eq_false quote
  rw [token_of_quote hquote hrest, takeWhile_append_stop hstop hbody, dropWhile_append_stop hstop hbody]

theorem token_of_symbol (hk : k.isSymbol = true) (hrest : s.rest = k.describe.toList ++ cs)
    (hend : ∀ c ∈ cs.head?, isSpace c = true) (hsuits : (symbol k).suits s.previous = true) :
    s.token = .ok (s.take k k.describe.toList k.describe) := by
  have hoperator {n : List Char} (hn : qName? n = some (n, [])) (hrest : s.rest = n ++ cs)
      (hclass : classifyName false n cs = (k, [])) (hfollow : s.operandExpected = false) :
      s.token = .ok (s.take k n (.ofList n)) := by
    rw [token_of_name (hrest ▸ qName?_append hend hn), hfollow, hclass, List.append_nil]
  have hcs : cs = [] ∨
      ∃ ds, cs = ' ' :: ds ∨ cs = '\t' :: ds ∨ cs = '\n' :: ds ∨ cs = '\r' :: ds := by
    cases cs with
    | nil => exact .inl rfl
    | cons c ds =>
        refine .inr ⟨ds, ?_⟩
        rcases isSpace_cases (hend c rfl) with rfl | rfl | rfl | rfl <;> simp
  have hexpected := operandExpected_eq s
  obtain ⟨source, rest, offset, previous⟩ := s
  obtain rfl : rest = k.describe.toList ++ cs := hrest
  cases k with
  | eof | name | functionName | nodeType | axis | namespaceWildcard | literal | number => cases hk
  | div | mod | and | or =>
      have hfollow : (!TokenKind.awaitsOperand previous) = true := hsuits
      refine hoperator (by decide) rfl rfl ?_
      simpa [hexpected] using hfollow
  | negate | star =>
      have hfollow : TokenKind.awaitsOperand previous = true := hsuits
      show Except.ok (State.take _ (if State.operandExpected _ = true then _ else _) _ _) = _
      rw [hexpected, if_pos hfollow]
      rfl
  | minus | multiply =>
      have hfollow : (!TokenKind.awaitsOperand previous) = true := hsuits
      have hfollow : ¬TokenKind.awaitsOperand previous = true := by simpa using hfollow
      show Except.ok (State.take _ (if State.operandExpected _ = true then _ else _) _ _) = _
      rw [hexpected, if_neg hfollow]
      rfl
  | _ => rcases hcs with rfl | ⟨ds, rfl | rfl | rfl | rfl⟩ <;> rfl

theorem classifyName_true (h : ∀ rest, cs ≠ ':' :: '*' :: rest) :
    classifyName true n cs = classifyName.afterSpace (.ofList n) cs := by
  rw [classifyName, if_pos rfl]
  exact h

/-- A name that is not one of an operator gets the same kind everywhere. -/
theorem classifyName_of_operand {expected : Bool}
    (h : (expected || (operatorName? (.ofList n)).isNone) = true) :
    classifyName expected n cs = classifyName true n cs := by
  cases expected with
  | true => rfl
  | false =>
      have hnone : operatorName? (.ofList n) = none := by simpa using h
      unfold classifyName
      dsimp only
      rw [hnone]
      rfl

section

variable (hgap : ∀ c ∈ gap, isSpace c = true)

include hgap

theorem head?_gap (h : ∀ c ∈ cs.head?, isNameChar c = false) :
    ∀ c ∈ (gap ++ cs).head?, isNameChar c = false := by
  cases gap with
  | nil => exact h
  | cons c gap =>
      rintro d ⟨⟩
      exact not_isNameChar_of_isSpace (hgap c List.mem_cons_self)

theorem eq_nil_of_gap {rest : List Char} (h : gap ++ cs = ':' :: rest) : gap = [] := by
  cases gap with
  | nil => rfl
  | cons c gap =>
      obtain ⟨rfl, -⟩ := List.cons.inj h
      exact absurd (hgap ':' List.mem_cons_self) (by decide)

theorem not_wildcard_of_gap (h : ∀ rest, cs ≠ ':' :: '*' :: rest) (rest : List Char) :
    gap ++ cs ≠ ':' :: '*' :: rest := by
  intro heq
  obtain rfl := eq_nil_of_gap hgap heq
  exact h rest heq

/-- Where an operand must follow, the punctuation behind a name tells its kind. -/
theorem classifyName_axis :
    classifyName true n (gap ++ ':' :: ':' :: cs) = (.axis, gap ++ [':', ':']) := by
  have hcolon : ∀ c ∈ (':' :: ':' :: cs).head?, isSpace c = false := by
    rintro c ⟨⟩
    decide
  rw [classifyName_true (not_wildcard_of_gap hgap (by simp)), classifyName.afterSpace,
    takeWhile_append_stop hcolon hgap, dropWhile_append_stop hcolon hgap]
  rfl

theorem classifyName_opening : classifyName true n (gap ++ '(' :: cs) =
    (if isNodeTypeName (.ofList n) then .nodeType else .functionName, gap ++ ['(']) := by
  have hparen : ∀ c ∈ ('(' :: cs).head?, isSpace c = false := by
    rintro c ⟨⟩
    decide
  rw [classifyName_true (not_wildcard_of_gap hgap (by simp)), classifyName.afterSpace,
    takeWhile_append_stop hparen hgap, dropWhile_append_stop hparen hgap]
  rfl

end

theorem classifyName_wildcard (h : ncName? n = some (n, [])) :
    classifyName true n (':' :: '*' :: cs) = (.namespaceWildcard, [':', '*']) := by
  have hcolon : n.contains ':' = false := by
    obtain ⟨c, ds, rfl, hstart, heq⟩ := ncName?_eq_some h
    have hds := List.dropWhile_eq_nil_iff.mp (congrArg Prod.snd heq).symm
    rw [← Bool.not_eq_true, List.contains_iff_mem]
    intro hmem
    rcases List.mem_cons.mp hmem with rfl | hmem
    · exact absurd hstart (by decide)
    · exact absurd (hds ':' hmem) (by decide)
  rw [classifyName, if_pos rfl]
  dsimp only
  rw [hcolon]
  rfl

theorem classifyName_name (hend : ∀ c ∈ cs.head?, isSpace c = true)
    (hnext : ∀ c ∈ (cs.dropWhile isSpace).head?, c ≠ '(' ∧ c ≠ ':') :
    classifyName true n cs = (.name, []) := by
  have hcolon (rest : List Char) : cs ≠ ':' :: '*' :: rest := by
    rintro rfl
    exact absurd (hend ':' rfl) (by decide)
  rw [classifyName_true hcolon, classifyName.afterSpace]
  split
  · rename_i heq
    rw [heq] at hnext
    exact absurd rfl (hnext ':' rfl).2
  · rename_i heq
    rw [heq] at hnext
    exact absurd rfl (hnext '(' rfl).1
  · rfl

theorem token_of_writes (hw : l.Writes w) (hrest : s.rest = w ++ cs)
    (hend : ∀ c ∈ cs.head?, isSpace c = true) (hsuits : l.suits s.previous = true)
    (hnext : l.kind = .name → ∀ c ∈ (cs.dropWhile isSpace).head?, c ≠ '(' ∧ c ≠ ':') :
    s.token = .ok (s.take l.kind w l.value) := by
  have hname {n after absorbed : List Char} {k : TokenKind}
      (hn : qName? (n ++ after) = some (n, after)) (hrest : s.rest = n ++ after)
      (hclass : classifyName true n after = (k, absorbed))
      (hoperand : (TokenKind.awaitsOperand s.previous || (operatorName? (.ofList n)).isNone) = true) :
      s.token = .ok (s.take k (n ++ absorbed) (.ofList n)) := by
    rw [token_of_name (hrest ▸ hn), operandExpected_eq, classifyName_of_operand hoperand, hclass]
  have hcolon : ∀ c ∈ (':' :: ':' :: cs).head?, isNameChar c = false := by
    rintro c ⟨⟩
    decide
  have hparen : ∀ c ∈ ('(' :: cs).head?, isNameChar c = false := by
    rintro c ⟨⟩
    decide
  cases hw with
  | symbol h => exact token_of_symbol h hrest hend hsuits
  | name h =>
      have htoken := hname (qName?_append hend h) hrest (classifyName_name hend (hnext rfl)) hsuits
      rwa [List.append_nil] at htoken
  | @wildcard n h =>
      have hqName : qName? (n ++ ':' :: '*' :: cs) = some (n, ':' :: '*' :: cs) :=
        qName?_of_ncName? h (by rintro c ⟨⟩; decide) (by rintro after ⟨⟩; rfl)
      exact hname hqName (by rw [hrest]; simp) (classifyName_wildcard h) hsuits
  | @axis n gap h hgap =>
      refine @hname n (gap ++ ':' :: ':' :: cs) _ _ ?_ (by rw [hrest]; simp)
        (classifyName_axis hgap) hsuits
      refine qName?_of_qName? h (head?_gap hgap hcolon) fun after heq => ?_
      obtain rfl := eq_nil_of_gap hgap heq
      cases heq
      rfl
  | @opening n gap h hgap =>
      refine @hname n (gap ++ '(' :: cs) _ _ ?_ (by rw [hrest]; simp)
        (classifyName_opening hgap) ?_
      · refine qName?_of_qName? h (head?_gap hgap hparen) fun after heq => ?_
        obtain rfl := eq_nil_of_gap hgap heq
        cases heq
      · cases hnode : isNodeTypeName (.ofList n) <;>
          simpa only [suits, hnode, if_true, if_false, Bool.false_eq_true] using hsuits
  | literal hquote h =>
      rw [List.cons_append, List.cons_append, List.append_assoc, List.singleton_append] at hrest
      exact token_of_literal hquote h hrest
  | number hstart h =>
      refine token_of_numeral (hrest ▸ startsNumeral_append hstart)
        (hrest ▸ numeral_append hend h) ?_
      cases cs with
      | nil => rfl
      | cons c cs => rcases isSpace_cases (hend c rfl) with rfl | rfl | rfl | rfl <;> rfl

/-! ## All tokens -/

theorem head_of_isNameStart (h : isNameStart c = true) :
    isSpace c = false ∧ c ≠ ':' ∧ c ≠ '(' := by
  refine ⟨?_, ?_, ?_⟩
  · cases hspace : isSpace c with
    | false => rfl
    | true =>
        rcases isSpace_cases hspace with rfl | rfl | rfl | rfl <;> exact absurd h (by decide)
  · rintro rfl
    exact absurd h (by decide)
  · rintro rfl
    exact absurd h (by decide)

/-- A word begins with no white space, and only a parenthesis with a parenthesis. -/
theorem head_of_writes (hw : l.Writes w) :
    ∃ c ds, w = c :: ds ∧ isSpace c = false ∧ c ≠ ':' ∧ (c = '(' → l.kind = .leftParen) := by
  have hname {c : Char} {ds : List Char} (hstart : isNameStart c = true) :
      ∃ c' ds', c :: ds = c' :: ds' ∧ isSpace c' = false ∧ c' ≠ ':' ∧
        (c' = '(' → l.kind = .leftParen) := by
    obtain ⟨hspace, hcolon, hparen⟩ := head_of_isNameStart hstart
    exact ⟨c, ds, rfl, hspace, hcolon, fun h => absurd h hparen⟩
  cases hw with
  | @symbol k h =>
      cases k with
      | eof | name | functionName | nodeType | axis | namespaceWildcard | literal | number => cases h
      | _ => exact ⟨_, _, rfl, rfl, by decide, by decide⟩
  | name h | axis h | opening h =>
      obtain ⟨c, ds, rfl, hstart⟩ := isNameStart_of_qName? h
      exact hname hstart
  | wildcard h =>
      obtain ⟨c, ds, rfl, hstart, -⟩ := ncName?_eq_some h
      exact hname hstart
  | literal hquote h =>
      rcases hquote with rfl | rfl <;>
        exact ⟨_, _, rfl, rfl, by decide, fun h => absurd h (by decide)⟩
  | number hstart h =>
      cases w with
      | nil => cases hstart
      | cons c ds =>
          refine ⟨c, ds, rfl, ?_, ?_, ?_⟩
          · cases hspace : isSpace c with
            | false => rfl
            | true => rcases isSpace_cases hspace with rfl | rfl | rfl | rfl <;> cases hstart
          · rintro rfl
            cases hstart
          · rintro rfl
            cases hstart

theorem kind_ne_eof (hw : l.Writes w) : l.kind ≠ .eof := by
  cases hw with
  | @symbol k h =>
      intro heof
      obtain rfl : k = .eof := heof
      cases h
  | opening h =>
      dsimp only
      split <;> simp
  | _ => simp

theorem head_of_renders (h : Renders ls cs) (hsuited : Suited (some .name) ls) :
    ∀ c ∈ (cs.dropWhile isSpace).head?, c ≠ '(' ∧ c ≠ ':' := by
  cases h with
  | blank h =>
      rw [List.dropWhile_eq_nil_iff.mpr h]
      rintro c ⟨⟩
  | word hgap hw hend h =>
      obtain ⟨c, ds, rfl, hspace, hcolon, hparen⟩ := head_of_writes hw
      rw [List.cons_append, dropWhile_append_stop (by rintro d ⟨⟩; exact hspace) hgap]
      rintro d ⟨⟩
      refine ⟨fun hc => ?_, hcolon⟩
      have hsuits := hsuited.1
      unfold suits at hsuits
      rw [hparen hc] at hsuits
      cases hsuits

/-- A text that writes lexemes is read as these lexemes, if each suits the one before it. -/
theorem exists_tokensWith (h : Renders ls cs) {source : String} {offset fuel : Nat}
    {previous : Option TokenKind} (hsuited : Suited previous ls) (hfuel : cs.length < fuel) :
    ∃ ts e, tokensWith fuel ⟨source, cs, offset, previous⟩ = (ts ++ [e], none) ∧
      ts.map Token.lexeme = ls ∧ e.kind = .eof := by
  induction h generalizing offset fuel previous with
  | @blank cs h =>
      obtain ⟨fuel, rfl⟩ : ∃ n, fuel = n + 1 := ⟨fuel - 1, by omega⟩
      have hnext : next ⟨source, cs, offset, previous⟩ =
          .ok ((⟨source, [], offset + utf8Length cs, previous⟩ : State).take .eof [] "") := by
        rw [next, State.skipSpace]
        simp only [List.dropWhile_eq_nil_iff.mpr h, List.takeWhile_eq_self_iff.mpr h]
        rfl
      rw [tokensWith, hnext]
      exact ⟨[], _, rfl, rfl, rfl⟩
  | @word l ls gap w cs hgap hw hend h ih =>
      obtain ⟨fuel, rfl⟩ : ∃ n, fuel = n + 1 := ⟨fuel - 1, by omega⟩
      obtain ⟨hsuits, hsuited⟩ := hsuited
      have hskip : (⟨source, gap ++ (w ++ cs), offset, previous⟩ : State).skipSpace =
          ⟨source, w ++ cs, offset + utf8Length gap, previous⟩ := by
        obtain ⟨c, ds, rfl, hspace, -⟩ := head_of_writes hw
        have hstop : ∀ d ∈ (c :: ds ++ cs).head?, isSpace d = false := by
          rintro d ⟨⟩
          exact hspace
        rw [State.skipSpace]
        simp only [dropWhile_append_stop hstop hgap, takeWhile_append_stop hstop hgap]
      have htoken := token_of_writes (s := ⟨source, w ++ cs, offset + utf8Length gap, previous⟩) hw
        rfl hend hsuits fun hname => head_of_renders h (hname ▸ hsuited)
      have hlength : cs.length < fuel := by
        obtain ⟨c, ds, rfl, -⟩ := head_of_writes hw
        simp only [List.length_append, List.length_cons] at hfuel
        omega
      obtain ⟨ts, e, hrest, hlexemes, heof⟩ :=
        @ih (offset + utf8Length gap + utf8Length w) fuel _ hsuited hlength
      refine ⟨⟨l.kind, l.value, offset + utf8Length gap⟩ :: ts, e, ?_, ?_, heof⟩
      · rw [tokensWith, next, hskip, htoken]
        simp only [State.take, if_neg (kind_ne_eof hw), List.drop_left, hrest, List.cons_append]
      · rw [List.map_cons, hlexemes]
        rfl

theorem exists_tokens {source : String} (h : Renders ls source.toList) (hsuited : Suited none ls) :
    ∃ ts e, tokens source = (ts ++ [e], none) ∧ ts.map Token.lexeme = ls ∧ e.kind = .eof :=
  exists_tokensWith h hsuited (Nat.lt_succ_self _)

end Lexer

end XPath
