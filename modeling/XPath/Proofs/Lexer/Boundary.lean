import XPath.Proofs.Lexer.Lexeme

/-!
# Texts that go on behind a boundary

The word at the front of a text stays as it is when more is written behind the text
(`Lexer.Boundary.shares_token`), if white space comes first: no word then runs into what follows, and
a name looks beyond the white space only for a colon or a parenthesis.
-/

namespace XPath.Lexer

/-- What can be written behind a text without a change to its words: nothing, or white space and
then anything but a colon or a parenthesis, which would make something else of a name. -/
structure Boundary (cs : List Char) : Prop where
  space : ∀ c ∈ cs.head?, isSpace c = true
  word : ∀ c ∈ (cs.dropWhile isSpace).head?, c ≠ '(' ∧ c ≠ ':'

theorem boundary_nil : Boundary [] := ⟨by simp, by simp⟩

variable {cs tail n : List Char} {s s' : State} {x : Token × State} {c : Char}

/-! ## Runs of characters -/

/-- A run that stops within a text stops there whatever is behind the text. -/
theorem span_append {p : Char → Bool} {ds : List Char} (h : cs.dropWhile p = c :: ds)
    (tail : List Char) :
    (cs ++ tail).takeWhile p = cs.takeWhile p ∧ (cs ++ tail).dropWhile p = c :: (ds ++ tail) := by
  have hrun : ∀ d ∈ cs.takeWhile p, p d = true := fun d hd => List.mem_takeWhile_imp hd
  have hstop : ∀ d ∈ (c :: (ds ++ tail)).head?, p d = false := by
    rintro d ⟨⟩
    have hhead := List.head?_dropWhile_not p cs
    rw [h] at hhead
    simpa using hhead
  have hsplit : cs ++ tail = cs.takeWhile p ++ c :: (ds ++ tail) := by
    rw [← List.cons_append, ← h, ← List.append_assoc, List.takeWhile_append_dropWhile]
  rw [hsplit]
  exact ⟨takeWhile_append_stop hstop hrun, dropWhile_append_stop hstop hrun⟩

namespace Boundary

variable (ht : Boundary tail)

include ht

theorem ne_cons (hc : isSpace c = false) (ds : List Char) : tail ≠ c :: ds :=
  ne_cons_of_head ht.space hc ds

/-! ## Numbers and the kinds of names -/

theorem strayPoint_append (h : strayPoint cs = false) : strayPoint (cs ++ tail) = false := by
  match cs, h with
  | [], _ =>
      rw [List.nil_append, strayPoint]
      · exact ht.ne_cons rfl []
      · exact fun c ds => ht.ne_cons rfl (c :: ds)
  | [c], h =>
      by_cases hc : c = '.'
      · subst hc
        cases h
      · simp [strayPoint, hc]
  | c :: d :: ds, h =>
      by_cases hc : c = '.'
      · subst hc
        exact h
      · simp [strayPoint, hc]

theorem afterSpace_append (text : String) (cs : List Char) :
    classifyName.afterSpace text (cs ++ tail) = classifyName.afterSpace text cs := by
  rw [classifyName.afterSpace, classifyName.afterSpace]
  cases hdrop : cs.dropWhile isSpace with
  | nil =>
      have hspaces : ∀ c ∈ cs, isSpace c = true := List.dropWhile_eq_nil_iff.mp hdrop
      rw [List.dropWhile_append_of_pos hspaces]
      split
      · rename_i heq
        exact absurd rfl (ht.word ':' (by rw [heq]; rfl)).2
      · rename_i heq
        exact absurd rfl (ht.word '(' (by rw [heq]; rfl)).1
      · rfl
  | cons d ds =>
      obtain ⟨htake, hrest⟩ := span_append hdrop tail
      rw [htake, hrest]
      by_cases hcolon : d = ':'
      · subst hcolon
        cases ds with
        | nil =>
            rw [List.nil_append]
            split
            · rename_i heq
              exact absurd (List.cons.inj heq).2 (ht.ne_cons rfl _)
            · rename_i heq
              cases heq
            · rfl
        | cons e ds =>
            by_cases he : e = ':'
            · subst he
              rfl
            · simp [he]
      · by_cases hparen : d = '('
        · subst hparen
          rfl
        · simp [hcolon, hparen]

theorem classifyName_append (expected : Bool) (n cs : List Char) :
    classifyName expected n (cs ++ tail) = classifyName expected n cs := by
  unfold classifyName
  dsimp only
  rw [ht.afterSpace_append]
  cases (if expected = true then none else operatorName? (.ofList n)) with
  | some k => rfl
  | none =>
      match cs with
      | [] =>
          dsimp only
          split
          · rename_i heq
            exact absurd heq (ht.ne_cons rfl _)
          · rfl
      | [c] =>
          dsimp only
          split
          · rename_i heq
            exact absurd (List.cons.inj heq).2 (ht.ne_cons rfl _)
          · simp
      | c :: d :: ds =>
          dsimp only [List.cons_append]
          by_cases hcolon : c = ':'
          · by_cases hstar : d = '*'
            · subst hcolon hstar
              rfl
            · simp [hstar]
          · simp [hcolon]

end Boundary

/-! ## One token -/

/-- A word stands at both states; `x` is what is read of it at `s`. -/
def Shares (s s' : State) (x : Token × State) : Prop :=
  ∃ k w v, k ≠ .eof ∧ w.length ≤ s.rest.length ∧ x = s.take k w v ∧
    s'.token = .ok (s'.take k w v)

theorem numeral_split (cs : List Char) : (numeral cs).1 ++ (numeral cs).2 = cs := by
  have hsplit := List.takeWhile_append_dropWhile (p := Char.isDigit) (l := cs)
  rw [numeral]
  split
  · rename_i after hafter
    rw [hafter] at hsplit
    rw [List.append_assoc, List.cons_append, List.takeWhile_append_dropWhile, hsplit]
  · exact hsplit

theorem qName?_split {after : List Char} (h : qName? cs = some (n, after)) : n ++ after = cs := by
  rw [qName?] at h
  split at h
  · cases h
  · rename_i front rest hfront
    have hcs := (ncName?_front hfront).1
    split at h
    · rename_i hback
      have hrest := (ncName?_front hback).1
      cases h
      rw [hcs, hrest, List.append_assoc, List.cons_append]
    · cases h
      exact hcs.symm
  · rename_i hfront
    cases h
    exact (ncName?_front hfront).1.symm

theorem operatorName?_ne_eof {name : String} {k : TokenKind} (h : operatorName? name = some k) :
    k ≠ .eof := by
  rintro rfl
  unfold operatorName? at h
  split_ifs at h <;> cases h

theorem classifyName_cases (expected : Bool) (n after : List Char) :
    (∃ k, operatorName? (.ofList n) = some k ∧ classifyName expected n after = (k, [])) ∨
    (∃ ds, after = ':' :: '*' :: ds ∧
      classifyName expected n after = (.namespaceWildcard, [':', '*'])) ∨
    classifyName expected n after = classifyName.afterSpace (.ofList n) after := by
  unfold classifyName
  dsimp only
  split
  · rename_i k hk
    split at hk
    · cases hk
    · exact .inl ⟨k, hk, rfl⟩
  · split
    · split
      · exact .inr (.inr rfl)
      · exact .inr (.inl ⟨_, rfl, rfl⟩)
    · exact .inr (.inr rfl)

theorem classifyName_ne_eof (expected : Bool) (n after : List Char) :
    (classifyName expected n after).1 ≠ .eof := by
  obtain ⟨k, hk, heq⟩ | ⟨ds, -, heq⟩ | heq := classifyName_cases expected n after
  · rw [heq]
    exact operatorName?_ne_eof hk
  · simp [heq]
  · rw [heq, classifyName.afterSpace]
    split
    · simp
    · dsimp only
      split <;> simp
    · simp

theorem classifyName_length_le (expected : Bool) (n after : List Char) :
    (classifyName expected n after).2.length ≤ after.length := by
  obtain ⟨k, -, heq⟩ | ⟨ds, rfl, heq⟩ | heq := classifyName_cases expected n after <;> rw [heq]
  · exact Nat.zero_le _
  · simp
  · have hsplit := congrArg List.length
      (List.takeWhile_append_dropWhile (p := isSpace) (l := after))
    rw [List.length_append] at hsplit
    rw [classifyName.afterSpace]
    split
    · rename_i hdrop
      simp only [hdrop, List.length_append, List.length_cons, List.length_nil] at hsplit ⊢
      omega
    · rename_i hdrop
      simp only [hdrop, List.length_append, List.length_cons, List.length_nil] at hsplit ⊢
      omega
    · exact Nat.zero_le _

namespace Boundary

variable (ht : Boundary tail)

include ht

theorem append_ne_cons (hc : isSpace c = false) (h : ∀ es, cs = c :: es → False) (es : List Char) :
    cs ++ tail ≠ c :: es := by
  cases cs with
  | nil => exact ht.ne_cons hc es
  | cons d ds =>
      intro heq
      obtain ⟨rfl, -⟩ := List.cons.inj heq
      exact h ds rfl

section

variable (h : s.token = .ok x) (hrest : s'.rest = s.rest ++ tail)

include h hrest

theorem shares_number (hstart : startsNumeral s.rest = true) : Shares s s' x := by
  have hlength : (numeral s.rest).1.length ≤ s.rest.length := by
    have hsplit := congrArg List.length (numeral_split s.rest)
    rw [List.length_append] at hsplit
    omega
  rw [token_of_startsNumeral hstart] at h
  dsimp only at h
  split at h
  · cases h
  · rename_i hpoint
    cases h
    have hnumeral : numeral s'.rest = ((numeral s.rest).1, (numeral s.rest).2 ++ tail) := by
      rw [hrest, numeral_append_tail ht.space]
    have hstart' : startsNumeral s'.rest = true := hrest ▸ startsNumeral_append hstart
    have hpoint' := ht.strayPoint_append (Bool.eq_false_iff.mpr hpoint)
    exact ⟨_, _, _, by decide, hlength, rfl, token_of_numeral hstart' hnumeral hpoint'⟩

omit ht in
theorem shares_literal {quote : Char} {text : List Char} (hquote : quote = '"' ∨ quote = '\'')
    (hs : s.rest = quote :: text) : Shares s s' x := by
  rw [hs, List.cons_append] at hrest
  rw [token_of_quote hquote hs] at h
  dsimp only at h
  split at h
  · cases h
  · rename_i hdrop
    obtain ⟨htake, hdrop'⟩ := span_append hdrop tail
    cases h
    refine ⟨_, _, _, by decide, ?_, rfl, ?_⟩
    · have hsplit := congrArg List.length
        (List.takeWhile_append_dropWhile (p := (· != quote)) (l := text))
      rw [hdrop, List.length_append] at hsplit
      simp only [hs, List.length_append, List.length_cons, List.length_nil] at hsplit ⊢
      omega
    · rw [token_of_quote hquote hrest]
      dsimp only
      rw [hdrop', htake]

theorem shares_name (hexpected : s'.operandExpected = s.operandExpected)
    (hname : qName? s.rest = some (n, cs)) : Shares s s' x := by
  have hname' : qName? s'.rest = some (n, cs ++ tail) := by
    rw [hrest, qName?_append_tail ht.space, hname]
    rfl
  rw [token_of_name hname] at h
  cases h
  refine ⟨_, _, _, classifyName_ne_eof _ _ _, ?_, rfl, ?_⟩
  · have hlength := classifyName_length_le s.operandExpected n cs
    rw [← qName?_split hname, List.length_append, List.length_append]
    omega
  · rw [token_of_name hname', hexpected, ht.classifyName_append]

end

theorem shares_token (h : s.token = .ok x) (hne : s.rest ≠ [])
    (hrest : s'.rest = s.rest ++ tail) (hexpected : s'.operandExpected = s.operandExpected) :
    Shares s s' x := by
  by_cases hnumeral : startsNumeral s.rest = true
  · exact ht.shares_number h hrest hnumeral
  have htoken := h
  obtain ⟨source, cs, offset, previous⟩ := s
  obtain ⟨source', cs', offset', previous'⟩ := s'
  obtain rfl : cs' = cs ++ tail := hrest
  unfold State.token at h
  split at h
  case h_1 hcs => exact absurd hcs hne
  case h_13 => cases h
  -- A second character would make a longer operator of the first one.
  case h_15 | h_17 | h_19 =>
      rename_i ds hshort hcs
      obtain rfl : cs = _ := hcs
      have hnext : ∀ es, ds ++ tail ≠ _ :: es :=
        ht.append_ne_cons rfl fun es heq => hshort es (heq ▸ rfl)
      cases h
      refine ⟨_, _, _, by decide, by simp, rfl, ?_⟩
      simp only [State.token, List.cons_append]
      rfl
  case h_20 | h_21 =>
      rename_i hcs
      obtain rfl : cs = _ := hcs
      cases h
      refine ⟨_, _, _, ?_, by simp, rfl, ?_⟩
      · split <;> nofun
      rw [← hexpected]
      rfl
  case h_23 c ds _ hcs =>
      obtain rfl : cs = _ := hcs
      have hdigit : ¬c.isDigit = true := hnumeral
      rw [if_neg hdigit] at h
      cases h
      refine ⟨_, _, _, by decide, by simp, rfl, ?_⟩
      simp only [State.token, List.cons_append, if_neg hdigit]
      rfl
  case h_24 hcs =>
      obtain rfl : cs = _ := hcs
      cases h
      refine ⟨_, _, _, by decide, by simp, rfl, ?_⟩
      cases tail with
      | nil => rfl
      | cons c ds => rcases isSpace_cases (ht.space c rfl) with rfl | rfl | rfl | rfl <;> rfl
  case h_25 hcs => exact shares_literal htoken rfl (.inl rfl) hcs
  case h_26 hcs => exact shares_literal htoken rfl (.inr rfl) hcs
  case h_27 hpoint _ _ _ hcs =>
      rw [hcs, startsNumeral] at hnumeral
      · rw [if_neg hnumeral] at h
        split at h
        · rename_i hname
          exact ht.shares_name htoken rfl hexpected hname
        · cases h
      · exact hpoint
  all_goals
    rename_i hcs
    obtain rfl : cs = _ := hcs
    cases h
    exact ⟨_, _, _, by decide, by simp, rfl, rfl⟩

end Boundary

end XPath.Lexer
