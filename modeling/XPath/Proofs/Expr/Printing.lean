import XPath.Proofs.Expr.Operands

/-!
# Reading what is written

A text that writes the words of a phrase one after the other is read as the tree that the phrase
stands for (`Phrase.read_of_renders`), so long as no parentheses are missing that the levels of the
operators require. One such text is the phrase as it is printed (`Phrase.print`).
-/

namespace XPath

open Reader

/-! ## Words that are printed -/

namespace Lexeme

variable {l : Lexeme} {ls : List Lexeme}

def spelling (l : Lexeme) : List Char :=
  let text := l.value.toList
  match l.kind with
  | .name | .number => text
  | .namespaceWildcard => text ++ [':', '*']
  | .axis => text ++ [':', ':']
  | .functionName | .nodeType => text ++ ['(']
  | .literal => if text.contains '"' then '\'' :: text ++ ['\''] else '"' :: text ++ ['"']
  | k => k.describe.toList

/-- There is a way to write the lexeme: its name is one, and its text lacks some kind of quotes. -/
def isWord (l : Lexeme) : Bool :=
  let text := l.value.toList
  match l.kind with
  | .name => Lexer.qName? text == some (text, [])
  | .namespaceWildcard | .axis => Lexer.ncName? text == some (text, [])
  | .functionName => Lexer.ncName? text == some (text, []) && !Lexer.isNodeTypeName l.value
  | .nodeType => Lexer.ncName? text == some (text, []) && Lexer.isNodeTypeName l.value
  | .literal => !(text.contains '"' && text.contains '\'')
  | .number => Lexer.startsNumeral text && Lexer.numeral text == (text, [])
  | k => k.isSymbol && l.value == k.describe

theorem writes_literal {text : List Char}
    (h : (!(text.contains '"' && text.contains '\'')) = true) :
    Writes ⟨.literal, .ofList text⟩
      (if text.contains '"' then '\'' :: text ++ ['\''] else '"' :: text ++ ['"']) := by
  split
  · rename_i hquote
    rw [hquote, Bool.true_and] at h
    exact .literal (.inr rfl) (by simpa using h)
  · rename_i hquote
    exact .literal (.inl rfl) (by simpa using hquote)

theorem writes_spelling (h : l.isWord = true) : l.Writes l.spelling := by
  obtain ⟨kind, value⟩ := l
  obtain ⟨text, rfl⟩ : ∃ text, value = String.ofList text := ⟨_, String.ofList_toList.symm⟩
  have hsymbol (hk : (kind.isSymbol && String.ofList text == kind.describe) = true) :
      Writes ⟨kind, .ofList text⟩ kind.describe.toList := by
    rw [Bool.and_eq_true, beq_iff_eq] at hk
    rw [hk.2]
    exact .symbol hk.1
  have hgap : ∀ c ∈ ([] : List Char), isSpace c = true := nofun
  have hname (hn : Lexer.ncName? text = some (text, [])) : Lexer.qName? text = some (text, []) := by
    have hqName : Lexer.qName? (text ++ []) = some (text, []) :=
      Lexer.qName?_of_ncName? hn nofun nofun
    rwa [List.append_nil] at hqName
  cases kind with
  | name =>
      simp only [isWord, spelling, String.toList_ofList, beq_iff_eq] at h ⊢
      exact .name h
  | namespaceWildcard =>
      simp only [isWord, spelling, String.toList_ofList, beq_iff_eq] at h ⊢
      exact .wildcard h
  | axis =>
      simp only [isWord, spelling, String.toList_ofList, beq_iff_eq] at h ⊢
      exact .axis (hname h) hgap
  | functionName =>
      simp only [isWord, spelling, String.toList_ofList, Bool.and_eq_true, beq_iff_eq,
        Bool.not_eq_true'] at h ⊢
      have hopening := Writes.opening (hname h.1) hgap
      rwa [h.2] at hopening
  | nodeType =>
      simp only [isWord, spelling, String.toList_ofList, Bool.and_eq_true, beq_iff_eq] at h ⊢
      have hopening := Writes.opening (hname h.1) hgap
      rwa [h.2] at hopening
  | literal =>
      simp only [isWord, spelling, String.toList_ofList] at h ⊢
      exact writes_literal h
  | number =>
      simp only [isWord, spelling, String.toList_ofList, Bool.and_eq_true, beq_iff_eq] at h ⊢
      exact .number h.1 h.2
  | _ => exact hsymbol h

def print (ls : List Lexeme) : List Char := ls.flatMap fun l => ' ' :: l.spelling

theorem renders_print (h : ∀ l ∈ ls, l.isWord = true) : Renders ls (print ls) := by
  induction ls with
  | nil => exact .blank (by rintro c ⟨⟩)
  | cons l ls ih =>
      have hgap : ∀ c ∈ [' '], isSpace c = true := by
        intro c hc
        rw [List.mem_singleton.mp hc]
        rfl
      have hend : ∀ c ∈ (print ls).head?, isSpace c = true := by
        cases ls with
        | nil => rintro c ⟨⟩
        | cons l ls =>
            rintro c ⟨⟩
            rfl
      exact .word hgap (writes_spelling (h l List.mem_cons_self)) hend
        (ih fun l' hl' => h l' (List.mem_cons_of_mem _ hl'))

end Lexeme

/-! ## Phrases that are read -/

namespace Phrase

open XPath.Expr

variable {s : StaticScope} {inner : Reader Expr} {e : Expr} {n depth : Nat}

theorem max_level_le (p : Phrase) : max p.level 1 ≤ 11 := by
  cases p with
  | binary op =>
      have hop := op.level_lt
      simp only [level]
      omega
  | _ => exact Nat.le_of_ble_eq_true rfl

theorem continues_operand {p : Phrase} (h : Continues s inner (max p.level 1) p.lexemes e)
    (hn : 1 ≤ n) (hle : n ≤ p.level) : Continues s inner n p.lexemes e :=
  h.below p.max_level_le hn (Nat.le_trans hle (Nat.le_max_left _ _))

theorem reads_nested {p : Phrase}
    (h : Continues s (expression s (depth - 1)) (max p.level 1) p.lexemes e) (hdepth : 0 < depth) :
    ReadsNested (expression s depth) p.lexemes e := by
  obtain ⟨depth, rfl⟩ : ∃ k, depth = k + 1 := ⟨depth - 1, by omega⟩
  exact fun _ _ hc hend => (h.below p.max_level_le le_rfl (Nat.le_max_right _ _)).takes hc hend

theorem length_lexemesOfMoreArguments (args : List Phrase) :
    0 < (lexemesOfMoreArguments args).length := by
  cases args <;> exact Nat.succ_pos _

theorem head_lexemes (p : Phrase) : ∃ l ls, p.lexemes = l :: ls ∧ l.kind ≠ .rightParen := by
  match p with
  | binary _ lhs _ | union lhs _ | step lhs _ _ _ | filter lhs _ =>
      obtain ⟨l, ls, h, hl⟩ := head_lexemes lhs
      rw [lexemes, h]
      exact ⟨l, _, rfl, hl⟩
  | negate _ | root | absolute .. | relative .. | reference _ | string _ | number _ | call _ _
  | parens _ => exact ⟨_, _, rfl, nofun⟩

mutual

/-- The words of a phrase are read as its tree at the level of the phrase; a root by itself is read as
an operand of no other operator. -/
theorem continues {e : Expr} {depth : Nat} (p : Phrase) (ht : p.tree? s = some e)
    (hfits : p.fits = true) (hdepth : p.lexemes.length ≤ depth) :
    Continues s (expression s depth) (max p.level 1) p.lexemes e := by
  match p with
  | binary op lhs rhs =>
      obtain ⟨hleft, hright, hlhs, hrhs⟩ := fits_binary.mp hfits
      simp only [tree?, Option.bind_eq_bind, Option.bind_eq_some_iff] at ht
      obtain ⟨a, ha, b, hb, ht⟩ := ht
      cases ht
      simp only [lexemes, List.length_append, List.length_cons] at hdepth
      have hop := op.level_pos
      have hl : Continues s (expression s depth) op.level lhs.lexemes a :=
        continues_operand (continues lhs ha hlhs (by omega)) hop hleft
      have hr : Continues s (expression s depth) (op.level + 1) rhs.lexemes b :=
        continues_operand (continues rhs hb hrhs (by omega)) (Nat.le_add_left _ _) hright
      rw [level, max_eq_left hop]
      exact hl.binary hr.readsAt
  | negate a =>
      obtain ⟨hlevel, ha⟩ := fits_negate.mp hfits
      simp only [tree?, Option.bind_eq_bind, Option.bind_eq_some_iff] at ht
      obtain ⟨a', ht', ht⟩ := ht
      cases ht
      simp only [lexemes, List.length_cons] at hdepth
      exact (continues_operand (continues a ht' ha (by omega)) (by decide) hlevel).negate
  | union lhs rhs =>
      obtain ⟨hleft, hright, hlhs, hrhs⟩ := fits_union.mp hfits
      simp only [tree?, Option.bind_eq_bind, Option.bind_eq_some_iff] at ht
      obtain ⟨a, ha, b, hb, ht⟩ := ht
      split at ht
      · rename_i hoperands
        rw [Bool.and_eq_true] at hoperands
        cases ht
        simp only [lexemes, List.length_append, List.length_cons] at hdepth
        have hl : Continues s (expression s depth) 8 lhs.lexemes a :=
          continues_operand (continues lhs ha hlhs (by omega)) (by decide) hleft
        have hr : Continues s (expression s depth) 9 rhs.lexemes b :=
          continues_operand (continues rhs hb hrhs (by omega)) (by decide) hright
        exact hl.union hr hoperands.1 hoperands.2
      · cases ht
  | root =>
      cases ht
      exact Continues.root.below (by decide) le_rfl (by decide)
  | absolute axis test ps =>
      simp only [tree?, Option.bind_eq_bind, Option.bind_eq_some_iff] at ht
      obtain ⟨t, htest, es, hes, ht⟩ := ht
      cases ht
      simp only [lexemes, List.length_append, List.length_cons] at hdepth
      exact .absolute htest (reads_predicates ps hes hfits (by omega))
  | relative axis test ps =>
      simp only [tree?, Option.bind_eq_bind, Option.bind_eq_some_iff] at ht
      obtain ⟨t, htest, es, hes, ht⟩ := ht
      cases ht
      simp only [lexemes, List.length_append] at hdepth
      exact .relative htest (reads_predicates ps hes hfits (by omega))
  | step start axis test ps =>
      obtain ⟨hlevel, hstart, hps⟩ := fits_step.mp hfits
      simp only [tree?, Option.bind_eq_bind, Option.bind_eq_some_iff] at ht
      obtain ⟨a, ha, t, htest, es, hes, ht⟩ := ht
      cases ht
      simp only [lexemes, List.length_append, List.length_cons] at hdepth
      have hs : Continues s (expression s depth) 9 start.lexemes a :=
        continues_operand (continues start ha hstart (by omega)) (by decide) hlevel
      exact hs.step htest (reads_predicates ps hes hps (by omega))
  | filter base q =>
      obtain ⟨hlevel, hbase, hq⟩ := fits_filter.mp hfits
      simp only [tree?, Option.bind_eq_bind, Option.bind_eq_some_iff] at ht
      obtain ⟨a, ha, b, hb, ht⟩ := ht
      cases ht
      simp only [lexemes, List.length_append, List.length_cons] at hdepth
      have hs : Continues s (expression s depth) 10 base.lexemes a :=
        continues_operand (continues base ha hbase (by omega)) (by decide) hlevel
      exact hs.filter (reads_nested (continues q hb hq (by omega)) (by omega))
  | reference name =>
      simp only [tree?, Option.bind_eq_bind, Option.bind_eq_some_iff] at ht
      obtain ⟨expanded, hname, binding, hbinding, ht⟩ := ht
      cases ht
      exact .reference (toOption_eq_some.mp hname) (toOption_eq_some.mp hbinding)
  | string text =>
      cases ht
      exact .string text
  | number numeral =>
      obtain ⟨x, hx, ht⟩ := Option.map_eq_some_iff.mp ht
      cases ht
      exact .number hx
  | call function args =>
      simp only [tree?, Option.bind_eq_bind, Option.bind_eq_some_iff] at ht
      obtain ⟨es, hes, ht⟩ := ht
      simp only [lexemes, List.length_cons] at hdepth
      exact .call (reads_arguments args hes hfits (by omega)) ht
  | parens a =>
      simp only [lexemes, List.length_cons, List.length_append] at hdepth
      exact .parens (reads_nested (continues a ht hfits (by omega)) (by omega))

theorem reads_predicates {es : List Expr} {depth : Nat} (ps : List Phrase)
    (ht : trees? s ps = some es) (hfits : allFit ps = true)
    (hdepth : (lexemesOfPredicates ps).length ≤ depth) :
    ReadsPredicates (expression s depth) (lexemesOfPredicates ps) es := by
  match ps with
  | [] =>
      cases ht
      exact .nil
  | p :: ps =>
      rw [allFit, Bool.and_eq_true] at hfits
      simp only [trees?, Option.bind_eq_bind, Option.bind_eq_some_iff] at ht
      obtain ⟨e, he, es, hes, ht⟩ := ht
      cases ht
      simp only [lexemesOfPredicates, List.length_cons, List.length_append] at hdepth
      exact .cons (reads_nested (continues p he hfits.1 (by omega)) (by omega))
        (reads_predicates ps hes hfits.2 (by omega))

theorem reads_arguments {es : List Expr} {depth : Nat} (args : List Phrase)
    (ht : trees? s args = some es) (hfits : allFit args = true)
    (hdepth : (lexemesOfArguments args).length ≤ depth) :
    ReadsArguments (expression s depth) (lexemesOfArguments args) es := by
  match args with
  | [] =>
      cases ht
      exact .nil
  | p :: ps =>
      rw [allFit, Bool.and_eq_true] at hfits
      simp only [trees?, Option.bind_eq_bind, Option.bind_eq_some_iff] at ht
      obtain ⟨e, he, es, hes, ht⟩ := ht
      cases ht
      simp only [lexemesOfArguments, List.length_append] at hdepth
      obtain ⟨l, ls, hhead, hl⟩ := head_lexemes p
      have hlength := length_lexemesOfMoreArguments ps
      have hp : ReadsNested (expression s depth) p.lexemes e :=
        reads_nested (continues p he hfits.1 (by omega)) (by omega)
      -- A closing parenthesis here would end the arguments.
      rw [lexemesOfArguments]
      rw [hhead] at hp ⊢
      exact .cons hl hp (reads_moreArguments ps hes hfits.2 (by omega))

theorem reads_moreArguments {es : List Expr} {depth : Nat} (args : List Phrase)
    (ht : trees? s args = some es) (hfits : allFit args = true)
    (hdepth : (lexemesOfMoreArguments args).length ≤ depth) :
    ReadsMoreArguments (expression s depth) (lexemesOfMoreArguments args) es := by
  match args with
  | [] =>
      cases ht
      exact .nil
  | p :: ps =>
      rw [allFit, Bool.and_eq_true] at hfits
      simp only [trees?, Option.bind_eq_bind, Option.bind_eq_some_iff] at ht
      obtain ⟨e, he, es, hes, ht⟩ := ht
      cases ht
      simp only [lexemesOfMoreArguments, List.length_cons, List.length_append] at hdepth
      exact .cons (reads_nested (continues p he hfits.1 (by omega)) (by omega))
        (reads_moreArguments ps hes hfits.2 (by omega))

end

theorem read_of_renders {p : Phrase} (ht : p.tree? s = some e) (hfits : p.fits = true)
    {text : String} (h : Lexeme.Renders p.lexemes text.toList) : Expr.read s text = .ok e := by
  have hplaced : Lexeme.Placed none (p.lexemes ++ []) :=
    placed p hfits rfl (fun _ _ => trivial) fun _ => trivial
  rw [List.append_nil] at hplaced
  obtain ⟨ts, last, htokens, hlexemes, heof⟩ := Lexer.exists_tokens h hplaced.suited
  obtain ⟨l, ls, hhead, -⟩ := head_lexemes p
  rw [hhead] at hlexemes
  obtain ⟨c, d, hstart, hpasses, hlast, hrest⟩ := Cursor.exists_passes htokens hlexemes
  rw [← hhead] at hpasses
  have hdepth : p.lexemes.length ≤ c.rest.length := by
    rw [← hpasses.length]
    exact Nat.le_add_left _ _
  have heof : d.current.kind = .eof := by rw [hlast, heof]
  have hread : Takes (nested s) c e d :=
    takes_nested.mpr (reads_nested (continues p ht hfits hdepth) (Nat.succ_pos _) _ _ hpasses
      ⟨0, by rw [heof]; rfl, Nat.one_pos⟩)
  exact run_eq_ok.mpr ⟨c, d, hstart, hread, heof⟩

/-! ## Printing -/

def print (p : Phrase) : String := .ofList (Lexeme.print p.lexemes)

def isWritable (p : Phrase) : Bool := p.lexemes.all Lexeme.isWord

mutual

theorem all_lexemes_bare (p : Phrase) :
    p.bare.lexemes.all Lexeme.isWord = p.lexemes.all Lexeme.isWord := by
  match p with
  | binary op lhs rhs | union lhs rhs =>
      simp only [bare, lexemes, List.all_append, List.all_cons, all_lexemes_bare lhs,
        all_lexemes_bare rhs]
  | negate e => simp only [bare, lexemes, List.all_cons, all_lexemes_bare e]
  | absolute axis test ps | relative axis test ps =>
      simp only [bare, lexemes, List.all_append, List.all_cons, all_predicates_bare ps]
  | step start axis test ps =>
      simp only [bare, lexemes, List.all_append, List.all_cons, all_lexemes_bare start,
        all_predicates_bare ps]
  | filter base q =>
      simp only [bare, lexemes, List.all_append, List.all_cons, all_lexemes_bare base,
        all_lexemes_bare q]
  | call function args => simp only [bare, lexemes, List.all_cons, all_arguments_bare args]
  | parens e =>
      have hleft : (Lexeme.symbol .leftParen).isWord = true := rfl
      have hright : (Lexeme.symbol .rightParen).isWord = true := rfl
      simp only [bare, lexemes, List.all_cons, List.all_append, List.all_nil, all_lexemes_bare e,
        hleft, hright, Bool.true_and, Bool.and_true]
  | root | reference _ | string _ | number _ => rfl

theorem all_predicates_bare (ps : List Phrase) :
    (lexemesOfPredicates (bareList ps)).all Lexeme.isWord =
      (lexemesOfPredicates ps).all Lexeme.isWord := by
  match ps with
  | [] => rfl
  | p :: ps =>
      simp only [bareList, lexemesOfPredicates, List.all_append, List.all_cons, all_lexemes_bare p,
        all_predicates_bare ps]

theorem all_arguments_bare (args : List Phrase) :
    (lexemesOfArguments (bareList args)).all Lexeme.isWord =
      (lexemesOfArguments args).all Lexeme.isWord := by
  match args with
  | [] => rfl
  | p :: ps =>
      simp only [bareList, lexemesOfArguments, List.all_append, all_lexemes_bare p,
        all_moreArguments_bare ps]

theorem all_moreArguments_bare (args : List Phrase) :
    (lexemesOfMoreArguments (bareList args)).all Lexeme.isWord =
      (lexemesOfMoreArguments args).all Lexeme.isWord := by
  match args with
  | [] => rfl
  | p :: ps =>
      simp only [bareList, lexemesOfMoreArguments, List.all_append, List.all_cons,
        all_lexemes_bare p, all_moreArguments_bare ps]

end

theorem isWritable_bare (p : Phrase) : p.bare.isWritable = p.isWritable := all_lexemes_bare p

/-- An expression that is printed with parentheses around every compound operand, or without some that
the levels of the operators make redundant, is read as it was. -/
theorem read_print {p : Phrase} (ht : p.tree? s = some e) (hwords : p.isWritable = true) :
    Expr.read s p.full.print = .ok e ∧
      ∀ q : Phrase, q.bare = p.bare → q.fits = true → Expr.read s q.print = .ok e := by
  have hread (q : Phrase) (hq : q.bare = p.bare) (hfits : q.fits = true) :
      Expr.read s q.print = .ok e := by
    have htree : q.tree? s = some e := by rw [← tree?_bare, hq, tree?_bare, ht]
    have hwords : q.isWritable = true := by rw [← isWritable_bare, hq, isWritable_bare, hwords]
    refine read_of_renders htree hfits ?_
    rw [print, String.toList_ofList]
    exact Lexeme.renders_print (List.all_eq_true.mp hwords)
  exact ⟨hread p.full (bare_full p) (fits_full p), hread⟩

def namedLikeOperators : Phrase :=
  .binary .divide
    (.binary .minus (.relative .child (.name "div") [.relative .child .text []])
      (.negate (.relative .child (.name "text") [])))
    (.union (.relative .attributeAxis (.name "mod") []) .root)

/-- `namedLikeOperators` with no parentheses but those that its levels and the slash need. -/
def namedLikeOperatorsInShort : Phrase :=
  .binary .divide
    (.parens (.binary .minus (.relative .child (.name "div") [.relative .child .text []])
      (.negate (.relative .child (.name "text") []))))
    (.union (.relative .attributeAxis (.name "mod") []) (.parens .root))

theorem read_print_namedLikeOperators :
    let div := Expr.path .contextNode .child ⟨.element, .named ⟨"", "div"⟩⟩
      [.path .contextNode .child ⟨.text, .any⟩ []]
    let text := Expr.path .contextNode .child ⟨.element, .named ⟨"", "text"⟩⟩ []
    let mod := Expr.path .contextNode .attributeAxis ⟨.attributeNode, .named ⟨"", "mod"⟩⟩ []
    let e := Expr.binary .divide (.binary .minus div (.negate text)) (.setOperation .union mod .root)
    namedLikeOperators.tree? {} = some e ∧ namedLikeOperators.isWritable = true ∧
      Expr.read {} (" ( ( child:: div [ child:: text( ) ] ) - ( - ( child:: text ) ) )" ++
        " div ( ( attribute:: mod ) | ( / ) )") = .ok e ∧
      Expr.read {} (" ( child:: div [ child:: text( ) ] - - child:: text )" ++
        " div attribute:: mod | ( / )") = .ok e := by
  intro div text mod e
  have htree : namedLikeOperators.tree? {} = some e := rfl
  have hwords : namedLikeOperators.isWritable = true := by decide
  obtain ⟨hfull, hshort⟩ := read_print htree hwords
  have hfits : namedLikeOperatorsInShort.fits = true := rfl
  have hprint : namedLikeOperators.full.print =
      " ( ( child:: div [ child:: text( ) ] ) - ( - ( child:: text ) ) )" ++
        " div ( ( attribute:: mod ) | ( / ) )" := by decide
  have hprint' : namedLikeOperatorsInShort.print =
      " ( child:: div [ child:: text( ) ] - - child:: text )" ++
        " div attribute:: mod | ( / )" := by decide
  exact ⟨htree, hwords, hprint ▸ hfull, hprint' ▸ hshort _ rfl hfits⟩

end Phrase

end XPath
