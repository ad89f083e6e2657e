import XPath.Proofs.Lexer.Words

/-!
# Words that tile a text

What is read of a text are its words, each where its token says and spelled as its kind and value
tell, with white space between them (`Lexer.Spells.exists_tiles`). Which word is read depends on its
spelling and on the word before it alone, so the words are read again as they are when one space
stands between them (`Lexer.tokens_tile`).
-/

namespace XPath.Lexer

open Lexeme

variable {s m m' : State} {t e : Token} {ts : List Token} {x : Token × State} {l : Lexeme}
  {n w cs after : List Char} {previous : Option TokenKind} {c : Char}

/-! ## The spelling of a word -/

/-- The word `w` in front of the text `cs` is read as the lexeme behind a token of the kind
`previous`. A parenthesis behind a name would belong to it. -/
structure Stands (previous : Option TokenKind) (l : Lexeme) (w cs : List Char) : Prop where
  writes : l.Writes w
  suits : l.suits previous = true
  ends : l.kind = .name → ∀ c ∈ (cs.dropWhile isSpace).head?, c ≠ '('

/-- What is left behind a name does not go on with a parenthesis. -/
def State.NameEnds (s : State) : Prop :=
  s.previous = some .name → ∀ c ∈ (s.rest.dropWhile isSpace).head?, c ≠ '('

section

variable {whole fraction : List Char} (hwhole : ∀ d ∈ whole, d.isDigit = true)

include hwhole

theorem numeral_whole : numeral whole = (whole, []) := by
  unfold numeral
  rw [List.takeWhile_eq_self_iff.mpr hwhole, List.dropWhile_eq_nil_iff.mpr hwhole]

theorem numeral_point (hfraction : ∀ d ∈ fraction, d.isDigit = true) :
    numeral (whole ++ '.' :: fraction) = (whole ++ '.' :: fraction, []) := by
  have hpoint : ∀ d ∈ ('.' :: fraction).head?, d.isDigit = false := by
    rintro d ⟨⟩
    rfl
  unfold numeral
  rw [takeWhile_append_stop hpoint hwhole, dropWhile_append_stop hpoint hwhole]
  simp only [List.takeWhile_eq_self_iff.mpr hfraction, List.dropWhile_eq_nil_iff.mpr hfraction]

end

theorem numeral_front (cs : List Char) : numeral (numeral cs).1 = ((numeral cs).1, []) := by
  have hdigits (ds : List Char) : ∀ d ∈ ds.takeWhile Char.isDigit, d.isDigit = true :=
    fun d hd => List.mem_takeWhile_imp hd
  obtain hfront | ⟨after, hfront⟩ : (numeral cs).1 = cs.takeWhile Char.isDigit ∨
      ∃ after : List Char, (numeral cs).1 =
        cs.takeWhile Char.isDigit ++ '.' :: after.takeWhile Char.isDigit := by
    rw [numeral]
    split
    · exact .inr ⟨_, rfl⟩
    · exact .inl rfl
  · rw [hfront]
    exact numeral_whole (hdigits cs)
  · rw [hfront]
    exact numeral_point (hdigits cs) (hdigits after)

theorem startsNumeral_front (h : startsNumeral cs = true) :
    startsNumeral (numeral cs).1 = true := by
  match cs, h with
  | c :: ds, h =>
      by_cases hc : c = '.'
      · subst hc
        cases ds with
        | nil => cases h
        | cons d ds =>
            have hd : d.isDigit = true := h
            simp [numeral, startsNumeral, hd]
      · rw [startsNumeral_cons hc] at h
        unfold numeral
        rw [List.takeWhile_cons, if_pos h]
        dsimp only
        split
        · rw [List.cons_append, startsNumeral_cons hc, h]
        · rw [startsNumeral_cons hc, h]

theorem qName?_front (h : qName? cs = some (n, after)) : qName? n = some (n, []) := by
  have hself {n : List Char} (hn : ncName? n = some (n, [])) : qName? n = some (n, []) := by
    have hqName : qName? (n ++ []) = some (n, []) := qName?_of_ncName? hn nofun nofun
    rwa [List.append_nil] at hqName
  rw [qName?] at h
  split at h
  · cases h
  · rename_i hfront
    have hfront := (ncName?_front hfront).2
    split at h
    · rename_i hback
      have hback := (ncName?_front hback).2
      obtain ⟨rfl, -⟩ := Prod.mk.inj (Option.some.inj h)
      rw [qName?, ncName?_append hfront (by rintro c ⟨⟩; decide)]
      simp only [hback]
    · obtain ⟨rfl, -⟩ := Prod.mk.inj (Option.some.inj h)
      exact hself hfront
  · rename_i hfound
    exact hself (ncName?_front (hfound.trans h)).2

theorem operatorName?_eq_some {name : String} {k : TokenKind} (h : operatorName? name = some k) :
    name = k.describe ∧ k.isSymbol = true ∧
      ∀ previous, TokenKind.canFollow previous k = !TokenKind.awaitsOperand previous := by
  unfold operatorName? at h
  split_ifs at h with hand hor hdiv hmod <;> cases h
  · exact ⟨beq_iff_eq.mp hand, rfl, fun _ => rfl⟩
  · exact ⟨beq_iff_eq.mp hor, rfl, fun _ => rfl⟩
  · exact ⟨beq_iff_eq.mp hdiv, rfl, fun _ => rfl⟩
  · exact ⟨beq_iff_eq.mp hmod, rfl, fun _ => rfl⟩

/-! ## One word -/

theorem eq_takeWhile_append {p : Char → Bool} {ds : List Char} (h : cs.dropWhile p = ds) :
    cs = cs.takeWhile p ++ ds := by
  rw [← h, List.takeWhile_append_dropWhile]

theorem stands_afterSpace (hname : qName? n = some (n, []))
    (hoperand : (TokenKind.awaitsOperand previous || (operatorName? (.ofList n)).isNone) = true) :
    ∃ k absorbed cs, classifyName.afterSpace (.ofList n) after = (k, absorbed) ∧
      after = absorbed ++ cs ∧ Stands previous ⟨k, .ofList n⟩ (n ++ absorbed) cs := by
  have hgap : ∀ c ∈ after.takeWhile isSpace, isSpace c = true := fun c hc =>
    List.mem_takeWhile_imp hc
  rw [classifyName.afterSpace]
  split
  · rename_i cs hdrop
    refine ⟨_, _, cs, rfl, (eq_takeWhile_append hdrop).trans (by simp), .axis hname hgap, hoperand,
      ?_⟩
    rintro ⟨⟩
  · rename_i cs hdrop
    refine ⟨_, _, cs, rfl, (eq_takeWhile_append hdrop).trans (by simp), .opening hname hgap, ?_, ?_⟩
    · cases hnode : isNodeTypeName (.ofList n) <;> exact hoperand
    · cases hnode : isNodeTypeName (.ofList n) <;> rintro ⟨⟩
  · rename_i hparen
    refine ⟨_, _, after, rfl, rfl, ?_, hoperand, fun _ c hc => ?_⟩
    · rw [List.append_nil]
      exact .name hname
    · rintro rfl
      obtain ⟨ds, hds⟩ := List.head?_eq_some_iff.mp hc
      exact hparen ds hds

theorem stands_classifyName (previous : Option TokenKind) (after : List Char)
    (hname : qName? n = some (n, [])) :
    ∃ k absorbed cs, classifyName (TokenKind.awaitsOperand previous) n after = (k, absorbed) ∧
      after = absorbed ++ cs ∧ Stands previous ⟨k, .ofList n⟩ (n ++ absorbed) cs := by
  cases hoperator : (if TokenKind.awaitsOperand previous then none
      else operatorName? (.ofList n)) with
  | some k =>
      split at hoperator
      · cases hoperator
      · rename_i hexpected
        obtain ⟨hdescribe, hsymbol, hfollow⟩ := operatorName?_eq_some hoperator
        refine ⟨k, [], after, ?_, rfl, ?_⟩
        · unfold classifyName
          simp only [hoperator, if_neg hexpected]
        · have hn : n ++ [] = k.describe.toList := by
            rw [List.append_nil, ← hdescribe, String.toList_ofList]
          rw [hn, hdescribe]
          have hsuits : (symbol k).suits previous = true := suits_of_canFollow (by
            show TokenKind.canFollow previous k = true
            rw [hfollow, Bool.eq_false_iff.mpr hexpected]
            rfl)
          refine ⟨.symbol hsymbol, hsuits, ?_⟩
          rintro rfl
          cases hsymbol
  | none =>
      have hoperand : (TokenKind.awaitsOperand previous ||
          (operatorName? (.ofList n)).isNone) = true := by
        split at hoperator
        · rename_i hexpected
          rw [hexpected]
          rfl
        · rw [hoperator, Option.isNone_none, Bool.or_true]
      unfold classifyName
      simp only [hoperator]
      split
      · split
        · exact stands_afterSpace hname hoperand
        · rename_i cs hcolon
          refine ⟨_, _, cs, rfl, rfl, .wildcard ?_, hoperand, nofun⟩
          obtain hn | ⟨front, back, rfl, -, -⟩ := qName?_cases hname
          · exact hn
          · exact absurd (by simp) hcolon
      · exact stands_afterSpace hname hoperand

/-- What is read at the front of a text is a word in front of the rest of it. -/
theorem exists_stands (h : s.token = .ok x) (hne : s.rest ≠ []) (hend : s.NameEnds) :
    ∃ l w cs, x = s.take l.kind w l.value ∧ s.rest = w ++ cs ∧ Stands s.previous l w cs := by
  by_cases hnumeral : startsNumeral s.rest = true
  · rw [token_of_startsNumeral hnumeral] at h
    dsimp only at h
    split at h
    · cases h
    · cases h
      exact ⟨⟨.number, _⟩, _, _, rfl, (numeral_split s.rest).symm,
        .number (startsNumeral_front hnumeral) (numeral_front s.rest), rfl, nofun⟩
  have hliteral {quote : Char} {text : List Char} (hquote : quote = '"' ∨ quote = '\'')
      (hrest : s.rest = quote :: text) :
      ∃ l w cs, x = s.take l.kind w l.value ∧ s.rest = w ++ cs ∧ Stands s.previous l w cs := by
    rw [token_of_quote hquote hrest] at h
    dsimp only at h
    split at h
    · cases h
    · rename_i c cs hdrop
      cases h
      have hbody : quote ∉ text.takeWhile (· != quote) := fun hmem => by
        simpa using List.mem_takeWhile_imp hmem
      have hc : c = quote := by
        have hhead := List.head?_dropWhile_not (· != quote) text
        rw [hdrop] at hhead
        simpa using hhead
      have htext := congrArg (quote :: ·) (eq_takeWhile_append hdrop)
      rw [hc] at htext
      exact ⟨⟨.literal, _⟩, _, cs, rfl, (hrest.trans htext).trans (by simp), .literal hquote hbody,
        rfl, nofun⟩
  have hsymbol {k : TokenKind} {cs : List Char} (hx : x = s.take k k.describe.toList k.describe)
      (hk : k.isSymbol = true) (hrest : s.rest = k.describe.toList ++ cs)
      (hsuits : (symbol k).suits s.previous = true) :
      ∃ l w cs, x = s.take l.kind w l.value ∧ s.rest = w ++ cs ∧ Stands s.previous l w cs := by
    refine ⟨symbol k, _, cs, hx, hrest, .symbol hk, hsuits, ?_⟩
    rintro rfl
    cases hk
  have hexpected := operandExpected_eq s
  unfold State.token at h
  split at h
  case h_1 hcs => exact absurd hcs hne
  case h_13 => cases h
  case h_2 hcs =>
    cases h
    refine hsymbol rfl rfl hcs ?_
    refine bne_iff_ne.mpr fun hprevious => hend hprevious '(' ?_ rfl
    rw [hcs]
    rfl
  case h_20 | h_21 =>
    rename_i hcs
    split at h
    · rename_i hoperand
      cases h
      exact hsymbol rfl rfl hcs (hexpected.symm.trans hoperand)
    · rename_i hoperand
      cases h
      rw [hexpected, Bool.not_eq_true] at hoperand
      exact hsymbol rfl rfl hcs (congrArg not hoperand)
  case h_23 hcs =>
    rw [hcs] at hnumeral
    have hdigit : ¬Char.isDigit _ = true := hnumeral
    rw [if_neg hdigit] at h
    cases h
    exact hsymbol rfl rfl hcs rfl
  case h_25 hcs => exact hliteral (.inl rfl) hcs
  case h_26 hcs => exact hliteral (.inr rfl) hcs
  case h_27 hpoint _ _ _ hcs =>
    rw [hcs, startsNumeral] at hnumeral
    · rw [if_neg hnumeral] at h
      split at h
      · rename_i n after hname
        cases h
        obtain ⟨k, absorbed, cs, hclass, hafter, hstands⟩ :=
          stands_classifyName s.previous after (qName?_front hname)
        refine ⟨_, _, cs, ?_, ?_, hstands⟩
        · show s.take (classifyName s.operandExpected n after).1
            (n ++ (classifyName s.operandExpected n after).2) (.ofList n) = _
          rw [hexpected, hclass]
        · rw [List.append_assoc, ← hafter, qName?_split hname]
      · cases h
    · exact hpoint
  all_goals
    rename_i hcs
    cases h
    exact hsymbol rfl rfl hcs rfl

/-- Reading at `s` yields the token, which the word `w` spells behind the white space `gap`. -/
structure ReadsWord (s : State) (gap w : List Char) (t : Token) (m : State) : Prop where
  spaces : ∀ c ∈ gap, isSpace c = true
  rest : s.rest = gap ++ (w ++ m.rest)
  offset : t.offset = s.offset + utf8Length gap
  behind : m.offset = t.offset + utf8Length w
  previous : m.previous = some t.kind
  stands : Stands s.previous t.lexeme w m.rest

theorem exists_readsWord (h : next s = .ok (t, m)) (hkind : t.kind ≠ .eof) (hend : s.NameEnds) :
    ∃ gap w, ReadsWord s gap w t m := by
  have hne : s.skipSpace.rest ≠ [] := by
    intro hnil
    obtain ⟨e, m', hnext, he⟩ := next_of_spaces (List.dropWhile_eq_nil_iff.mp hnil)
    rw [h] at hnext
    cases hnext
    exact hkind he
  have hskip : s.skipSpace.NameEnds := by
    intro hprevious
    show ∀ c ∈ ((s.rest.dropWhile isSpace).dropWhile isSpace).head?, c ≠ '('
    rw [List.dropWhile_idempotent]
    exact hend hprevious
  obtain ⟨l, w, cs, hx, hrest, hstands⟩ := exists_stands h hne hskip
  obtain ⟨rfl, rfl⟩ := Prod.mk.inj hx
  have hbehind : s.skipSpace.rest.drop w.length = cs := by rw [hrest, List.drop_left]
  refine ⟨s.rest.takeWhile isSpace, w, fun c hc => List.mem_takeWhile_imp hc, ?_, rfl, rfl, rfl, ?_⟩
  · show s.rest = _ ++ (w ++ s.skipSpace.rest.drop w.length)
    rw [hbehind, ← hrest]
    exact List.takeWhile_append_dropWhile.symm
  · show Stands _ _ w (s.skipSpace.rest.drop w.length)
    rw [hbehind]
    exact hstands

namespace ReadsWord

variable {gap : List Char} (h : ReadsWord s gap w t m)

include h

theorem nameEnds : m.NameEnds := by
  intro hprevious
  rw [h.previous] at hprevious
  exact h.stands.ends (Option.some.inj hprevious)

theorem length_pos : 0 < w.length := by
  obtain ⟨c, ds, rfl, -⟩ := head_of_writes h.stands.writes
  exact Nat.succ_pos _

theorem length_lt : m.rest.length < s.rest.length := by
  have hlength := congrArg List.length h.rest
  have hpos := h.length_pos
  simp only [List.length_append] at hlength
  omega

end ReadsWord

/-! ## The words of a text -/

theorem utf8Length_append (cs ds : List Char) :
    utf8Length (cs ++ ds) = utf8Length cs + utf8Length ds := by
  induction cs with
  | nil => simp [utf8Length]
  | cons c cs ih =>
      rw [List.cons_append, utf8Length, utf8Length, ih]
      omega

theorem utf8Length_pos (h : 0 < cs.length) : 0 < utf8Length cs := by
  cases cs with
  | nil => cases h
  | cons c cs =>
      rw [utf8Length]
      have hpos := c.utf8Size_pos
      omega

/-- From the byte `offset` on the text is the words one after the other, with white space around
them. Each word spells its token and stands where the token says. -/
inductive Tiles : Nat → List Char → List Token → List String → Prop
  | blank {offset : Nat} {gap : List Char} (hgap : ∀ c ∈ gap, isSpace c = true) :
      Tiles offset gap [] []
  | word {offset : Nat} {gap cs : List Char} {t : Token} {ts : List Token} {w : String}
      {ws : List String} (hgap : ∀ c ∈ gap, isSpace c = true)
      (hoffset : t.offset = offset + utf8Length gap) (hw : t.lexeme.Writes w.toList)
      (h : Tiles (t.offset + utf8Length w.toList) cs ts ws) :
      Tiles offset (gap ++ (w.toList ++ cs)) (t :: ts) (w :: ws)

namespace Spells

theorem nameEnds (h : Spells s ts m) (hend : s.NameEnds) : m.NameEnds := by
  induction h with
  | nil s => exact hend
  | cons h hkind _ ih =>
      obtain ⟨gap, w, hread⟩ := exists_readsWord h hkind hend
      exact ih hread.nameEnds

theorem offset_add (h : Spells s ts m) (hend : s.NameEnds) :
    m.offset + utf8Length m.rest = s.offset + utf8Length s.rest := by
  induction h with
  | nil s => rfl
  | cons h hkind _ ih =>
      obtain ⟨gap, w, hread⟩ := exists_readsWord h hkind hend
      rw [ih hread.nameEnds, hread.rest, utf8Length_append, utf8Length_append, hread.behind,
        hread.offset]
      omega

/-- Words are read where they stand, each behind the one before it. -/
theorem exists_tiles (h : Spells s ts m) (hend : s.NameEnds)
    (hspaces : ∀ c ∈ m.rest, isSpace c = true) :
    Suited s.previous (ts.map Token.lexeme) ∧ ∃ ws, Tiles s.offset s.rest ts ws := by
  induction h with
  | nil s => exact ⟨trivial, [], .blank hspaces⟩
  | @cons s m m' t ts h hkind _ ih =>
      obtain ⟨gap, w, hread⟩ := exists_readsWord h hkind hend
      obtain ⟨hsuited, ws, htiles⟩ := ih hread.nameEnds hspaces
      rw [hread.previous] at hsuited
      refine ⟨⟨hread.stands.suits, hsuited⟩, .ofList w :: ws, ?_⟩
      rw [hread.rest]
      have hw : (String.ofList w).toList = w := String.toList_ofList
      have htiles : Tiles (t.offset + utf8Length (String.ofList w).toList) m.rest ts ws := by
        rw [hw, ← hread.behind]
        exact htiles
      have hword := htiles.word hread.spaces hread.offset (hw.symm ▸ hread.stands.writes)
      rwa [hw] at hword

end Spells

namespace Tiles

variable {offset : Nat} {ws : List String}

theorem offsets (h : Tiles offset cs ts ws) :
    (∀ t ∈ ts, offset ≤ t.offset ∧ t.offset < offset + utf8Length cs) ∧
      (ts.map Token.offset).Pairwise (· < ·) := by
  induction h with
  | blank hgap => exact ⟨nofun, .nil⟩
  | @word offset gap cs t ts w ws hgap hoffset hw h ih =>
      obtain ⟨hbounds, hpairwise⟩ := ih
      have hpos : 0 < utf8Length w.toList := by
        obtain ⟨c, ds, hcons, -⟩ := head_of_writes hw
        exact utf8Length_pos (by rw [hcons]; exact Nat.succ_pos _)
      rw [utf8Length_append, utf8Length_append]
      refine ⟨?_, ?_⟩
      · intro u hu
        obtain rfl | hu := List.mem_cons.mp hu
        · omega
        · have hbound := hbounds u hu
          omega
      · rw [List.map_cons, List.pairwise_cons]
        refine ⟨fun o ho => ?_, hpairwise⟩
        obtain ⟨u, hu, rfl⟩ := List.mem_map.mp ho
        have hbound := hbounds u hu
        omega

end Tiles

/-! ## Words that are spelled again -/

theorem renders_intercalate {ls : List Lexeme} {ws : List (List Char)}
    (h : List.Forall₂ Writes ls ws) (gap : List Char) (hgap : ∀ c ∈ gap, isSpace c = true) :
    Renders ls (gap ++ [' '].intercalate ws) := by
  have hblank : ∀ c ∈ [' '], isSpace c = true := by simp [isSpace]
  induction h generalizing gap with
  | nil => exact .blank (by simpa using hgap)
  | @cons l w ls ws hw hws ih =>
      cases hws with
      | nil =>
          rw [List.intercalate_singleton, ← List.append_nil w]
          exact .word hgap hw (by rintro c ⟨⟩) (.blank (List.forall_mem_nil _))
      | @cons l' w' ls ws hw' hws =>
          rw [List.intercalate_cons_cons, List.append_assoc]
          refine .word hgap hw ?_ (ih _ hblank)
          rintro c ⟨⟩
          rfl

/-- A text is read up to its end or to an error, with no more words than characters. -/
theorem exists_spells {fuel : Nat} (hend : s.NameEnds) (hfuel : s.rest.length < fuel) :
    ∃ ts m, Spells s ts m ∧ ts.length ≤ s.rest.length ∧
      ((∃ failure, next m = .error failure ∧ tokensWith fuel s = (ts, some failure)) ∨
        ∃ e m', next m = .ok (e, m') ∧ e.kind = .eof ∧ tokensWith fuel s = (ts ++ [e], none)) := by
  induction fuel generalizing s with
  | zero => cases hfuel
  | succ fuel ih =>
      rw [tokensWith]
      cases hnext : next s with
      | error failure => exact ⟨[], s, .nil s, Nat.zero_le _, .inl ⟨failure, hnext, rfl⟩⟩
      | ok found =>
          obtain ⟨t, m⟩ := found
          by_cases hkind : t.kind = .eof
          · exact ⟨[], s, .nil s, Nat.zero_le _, .inr ⟨t, m, hnext, hkind, if_pos hkind⟩⟩
          · obtain ⟨gap, w, hread⟩ := exists_readsWord hnext hkind hend
            have hlt := hread.length_lt
            obtain ⟨ts, m', hspells, hlength, hlast⟩ := ih hread.nameEnds (by omega)
            refine ⟨t :: ts, m', .cons hnext hkind hspells, by rw [List.length_cons]; omega, ?_⟩
            simp only [if_neg hkind]
            obtain ⟨failure, hfail, htokens⟩ | ⟨e, m'', hend, he, htokens⟩ := hlast
            · exact .inl ⟨failure, hfail, by rw [htokens]⟩
            · exact .inr ⟨e, m'', hend, he, by rw [htokens]; rfl⟩

theorem offset_of_eof (h : next s = .ok (e, m)) (he : e.kind = .eof) :
    e.offset = s.offset + utf8Length s.rest := by
  have hspaces := spaces_of_next h he
  rw [next, State.skipSpace, List.dropWhile_eq_nil_iff.mpr hspaces,
    List.takeWhile_eq_self_iff.mpr hspaces] at h
  cases h
  rfl

/-- Reading a text word by word takes at least one character each time, so it comes to the end or to
an error with no more words than characters. If it comes to the end, the words tile the text in the
order of their places, and however they are spelled again, with one space between them, they are
read as they were. -/
theorem tokens_tile (source : String) :
    (∀ ts m t m', Spells (start source) ts m → next m = .ok (t, m') → t.kind ≠ .eof →
      m'.rest.length < m.rest.length) ∧
    ∃ ts m, Spells (start source) ts m ∧ ts.length ≤ source.toList.length ∧
      ((∃ failure, next m = .error failure ∧ tokens source = (ts, some failure)) ∨
        ∃ e m', next m = .ok (e, m') ∧ e.kind = .eof ∧ tokens source = (ts ++ [e], none) ∧
          ((ts ++ [e]).map Token.offset).Pairwise (· < ·) ∧
          (∃ ws, Tiles 0 source.toList ts ws) ∧
          ∀ ws, List.Forall₂ (fun (t : Token) w => t.lexeme.Writes w.toList) ts ws →
            ∃ ts' e', tokens (" ".intercalate ws) = (ts' ++ [e'], none) ∧ e'.kind = .eof ∧
              ts'.map Token.lexeme = ts.map Token.lexeme) := by
  have hstart : (start source).NameEnds := nofun
  refine ⟨fun ts m t m' hspells hnext hkind => ?_, ?_⟩
  · obtain ⟨gap, w, hread⟩ := exists_readsWord hnext hkind (hspells.nameEnds hstart)
    exact hread.length_lt
  obtain ⟨ts, m, hspells, hlength, hfail | ⟨e, m', hnext, he, htokens⟩⟩ :=
    exists_spells hstart (Nat.lt_succ_self _)
  · exact ⟨ts, m, hspells, hlength, .inl hfail⟩
  refine ⟨ts, m, hspells, hlength, .inr ⟨e, m', hnext, he, htokens, ?_⟩⟩
  obtain ⟨hsuited, ws, htiles⟩ := hspells.exists_tiles hstart (spaces_of_next hnext he)
  refine ⟨?_, ⟨ws, htiles⟩, fun ws hws => ?_⟩
  · obtain ⟨hbounds, hpairwise⟩ := htiles.offsets
    have hlast : e.offset = utf8Length source.toList := by
      rw [offset_of_eof hnext he, hspells.offset_add hstart]
      exact Nat.zero_add _
    rw [List.map_append, List.pairwise_append]
    refine ⟨hpairwise, List.pairwise_singleton _ _, ?_⟩
    rintro o ho _ ⟨⟩
    · obtain ⟨t, ht, rfl⟩ := List.mem_map.mp ho
      rw [hlast]
      exact (hbounds t ht).2.trans_eq (Nat.zero_add _)
    · contradiction
  · have hwrites : List.Forall₂ Writes (ts.map Token.lexeme) (ws.map String.toList) := by
      rw [List.forall₂_map_left_iff, List.forall₂_map_right_iff]
      exact hws
    have hrenders : Renders (ts.map Token.lexeme) (" ".intercalate ws).toList := by
      rw [String.toList_intercalate]
      exact renders_intercalate hwrites [] nofun
    obtain ⟨ts', e', htokens', hlexemes, he'⟩ := exists_tokens hrenders hsuited
    exact ⟨ts', e', htokens', he', hlexemes⟩

/-- The second star is a multiplication, and the text is read to its end. -/
example : tokens "* * b" =
    ([⟨.star, "*", 0⟩, ⟨.multiply, "*", 2⟩, ⟨.name, "b", 4⟩, ⟨.eof, "", 5⟩], none) := by
  decide +kernel

end XPath.Lexer
