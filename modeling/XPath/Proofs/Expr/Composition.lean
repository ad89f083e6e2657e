import XPath.Proofs.Expr.Locality

/-!
# Operators between texts

An operator between two texts that spell its operands, in blanks, spells the operation of the two
(`Expr.read_operator`), if it can follow the last word of the first text. A minus can follow whatever
ends an operand but the slash of a bare root: there `-` is read as a negation, and there is nothing
that it could negate (`Expr.read_sum_and_difference`).
-/

namespace XPath

open Reader Lexer

variable {source left right : String} {l : Lexeme} {ls lhs rhs : List Lexeme}

def Lexer.lastWord (source : String) : Option TokenKind :=
  lastKind ((tokens source).1.dropLast.map Token.lexeme)

theorem Lexer.Words.lastWord_eq (h : Words source ls) : lastWord source = lastKind ls := by
  obtain ⟨ts, e, htokens, rfl, -⟩ := h.tokens
  rw [lastWord, htokens, List.dropLast_concat]

/-- Between its first token and its end a cursor passes all words. -/
theorem Cursor.Passes.eq_of_eof {c d : Cursor} {front : List Token} {e : Token} (h : c.Passes ls d)
    (hd : d.current.kind = .eof) (hc : c.current :: c.rest = front ++ [e])
    (hfront : ∀ t ∈ front, t.kind ≠ .eof) : ls = front.map Token.lexeme := by
  induction ls generalizing c front with
  | nil =>
      obtain rfl := h
      cases front with
      | nil => rfl
      | cons t front =>
          obtain ⟨rfl, -⟩ := List.cons.inj hc
          exact absurd hd (hfront _ List.mem_cons_self)
  | cons l ls ih =>
      obtain ⟨rfl, t, ts, hrest, h⟩ := h
      rw [hrest] at hc
      cases front with
      | nil => cases hc
      | cons t' front =>
          obtain ⟨rfl, htail⟩ := List.cons.inj hc
          rw [ih h htail fun t ht => hfront t (List.mem_cons_of_mem _ ht)]
          rfl

theorem Cursor.tokens_of_start {c : Cursor} (h : start source = .ok c) :
    ∃ failure, tokens source = (c.current :: c.rest, failure) := by
  unfold start at h
  split at h
  · rename_i htokens
    cases h
    exact ⟨_, htokens⟩
  · cases h
  · rename_i htokens
    rw [tokens, tokensWith] at htokens
    split at htokens
    · cases htokens
    · split at htokens <;> cases htokens

theorem Cursor.words_of_start {c d : Cursor} (h : start source = .ok c) (hd : d.Behind c)
    (heof : d.current.kind = .eof) : c.Whole ∧ ∃ ls, Words source ls ∧ c.rest.length = ls.length ∧
      ∀ ls', c.Passes ls' d → ls' = ls := by
  obtain ⟨failure, htokens⟩ := tokens_of_start h
  obtain ⟨-, front, last, hcursor, hlast, hfront, hwords⟩ :=
    Words.of_tokens htokens ⟨d.current, hd.subset List.mem_cons_self, heof⟩
  refine ⟨?_, front.map Token.lexeme, hwords, ?_, fun ls' hpasses =>
    hpasses.eq_of_eof heof hcursor hfront⟩
  · unfold Whole
    simp only [hcursor, List.getLast_append_singleton, hlast]
  · have hlength := congrArg List.length hcursor
    simp only [List.length_cons, List.length_append, List.length_nil] at hlength
    rw [List.length_map]
    omega

namespace Expr

variable {s : StaticScope} {n : Nat} {e a b : Expr}

/-- The expression of a level that a whole text spells: an operand of the operators of the levels
before. -/
def readAt (s : StaticScope) (n : Nat) (source : String) : Except Error Expr :=
  Reader.run (do readLevel s (expression s (← remaining)) n) source

theorem readAt_one : readAt s 1 source = read s source := rfl

/-- What a text spells is spelled by its words wherever they stand, and the last of them closes an
operand. -/
theorem exists_words (hn : 1 ≤ n) (hle : n ≤ 7) (h : readAt s n source = .ok e) :
    ∃ l ls k, Words source (l :: ls) ∧ lastKind (l :: ls) = some k ∧ Closes k ∧
      ∀ depth, (l :: ls).length ≤ depth → ∀ c d, c.Passes (l :: ls) d → Halts n d.current.kind →
        Takes (readLevel s (expression s depth) n) c e d := by
  obtain ⟨c, d, hstart, htakes, hd⟩ := run_eq_ok.mp h
  obtain ⟨_, m, hremaining, htakes⟩ := takes_bind.mp htakes
  obtain ⟨rfl, hm⟩ := takes_remaining.mp hremaining
  rw [hm] at htakes
  have hbehind := (follows_readLevel (follows_expression s le_rfl) hn hle).behind htakes
  obtain ⟨hwhole, ls, hwords, hlength, hunique⟩ := Cursor.words_of_start hstart hbehind hd
  have hreplays (depth room : Nat) (hdepth : ls.length ≤ depth) :
      Replays n 1 room (readLevel s (expression s c.rest.length) n)
        (readLevel s (expression s depth) n) c :=
    replays_readLevel (replays_expression s (hlength ▸ hdepth)) hn hle le_rfl
  have htakes' (depth : Nat) (hdepth : ls.length ≤ depth) (c' d' : Cursor) (hc' : c'.Passes ls d')
      (hd' : Halts n d'.current.kind) : Takes (readLevel s (expression s depth) n) c' e d' := by
    obtain ⟨ls', -, -, hpasses, hreplay⟩ :=
      hreplays depth (c'.rest.length + 1) hdepth hwhole e d htakes
    obtain rfl := hunique ls' hpasses
    exact hreplay c' d' (Nat.lt_succ_self _) hc' (.inr hd')
  obtain ⟨ls', hleast, hcloses, hpasses, -⟩ := hreplays _ 0 le_rfl hwhole e d htakes
  obtain rfl := hunique ls' hpasses
  obtain _ | ⟨l, ls⟩ := ls'
  · cases hleast
  · obtain ⟨k, hk⟩ : ∃ k, lastKind (l :: ls) = some k := by
      rw [lastKind, List.getLast?_cons]
      exact ⟨_, rfl⟩
    exact ⟨l, ls, k, hwords, hk, hcloses k hk, htakes'⟩

theorem readAt_of_words (hwords : Words source (l :: ls))
    (h : ∀ c d, c.Passes (l :: ls) d → d.current.kind = .eof →
      Takes (readLevel s (expression s (l :: ls).length) n) c e d) :
    readAt s n source = .ok e := by
  obtain ⟨ts, last, htokens, hts, hlast⟩ := hwords.tokens
  obtain ⟨c, d, hstart, hpasses, hd, hrest⟩ := Cursor.exists_passes htokens hts
  have heof : d.current.kind = .eof := by rw [hd, hlast]
  have hlength : c.rest.length = (l :: ls).length := by
    rw [← hpasses.length, hrest]
    exact Nat.zero_add _
  have htakes := h c d hpasses heof
  rw [← hlength] at htakes
  exact run_eq_ok.mpr ⟨c, d, hstart,
    takes_bind.mpr ⟨_, c, takes_remaining.mpr ⟨rfl, rfl⟩, htakes⟩, heof⟩

theorem endsAt_of_eof {k : TokenKind} (hn : 1 ≤ n) (hk : k = .eof) : EndsAt n k :=
  ⟨0, by rw [hk]; rfl, hn⟩

theorem read_of_readAt (hn : 1 ≤ n) (hle : n ≤ 6) (h : readAt s (n + 1) source = .ok e) :
    read s source = .ok e := by
  obtain ⟨l, ls, k, hwords, -, -, htakes⟩ := exists_words (Nat.le_add_left _ _) (by omega) h
  have hreads : ReadsAt s (expression s (l :: ls).length) (n + 1) (l :: ls) e :=
    fun c d hc hd => htakes _ le_rfl c d hc hd.halts
  have hcontinues := (hreads.continues hn (by omega)).below (by omega) le_rfl hn
  exact readAt_of_words hwords fun c d hc hd => hcontinues.takes hc (endsAt_of_eof le_rfl hd)

/-! ## Operators -/

theorem isSymbol_token (op : BinaryOperator) :
    op.token.isSymbol = true ∧ op.token ≠ .leftParen := by
  cases op <;> decide

/-- An operator between texts that spell its operands spells the operation. -/
theorem read_operator (op : BinaryOperator) (hl : readAt s (op.level + 1) left = .ok a)
    (hr : readAt s (op.level + 1) right = .ok b)
    (hsource : source.toList =
      left.toList ++ ' ' :: (op.token.describe.toList ++ ' ' :: right.toList))
    (hfollow : TokenKind.canFollow (lastWord left) op.token = true) :
    read s source = .ok (.binary op a b) := by
  have hlevel := op.level_pos
  have hlevel' := op.level_lt
  obtain ⟨l, ls, k, hwords, -, -, htakes⟩ := exists_words (Nat.le_add_left 1 _) (by omega) hl
  obtain ⟨l', ls', k', hwords', -, -, htakes'⟩ := exists_words (Nat.le_add_left 1 _) (by omega) hr
  obtain ⟨hsymbol, hparen⟩ := isSymbol_token op
  rw [hwords.lastWord_eq] at hfollow
  have hall := hwords.operator hwords' hsource hsymbol hparen op.expectsOperand_token hfollow
  rw [List.cons_append] at hall
  rw [← readAt_one]
  refine readAt_of_words hall fun c d hc hd => ?_
  have hdepth : (l :: ls).length ≤ (l :: (ls ++ .symbol op.token :: l' :: ls')).length ∧
      (l' :: ls').length ≤ (l :: (ls ++ .symbol op.token :: l' :: ls')).length := by
    simp only [List.length_cons, List.length_append]
    omega
  generalize (l :: (ls ++ .symbol op.token :: l' :: ls')).length = depth at hdepth ⊢
  have hleft : ReadsAt s (expression s depth) (op.level + 1) (l :: ls) a :=
    fun c d hc hd => htakes depth hdepth.1 c d hc hd.halts
  have hright : ReadsAt s (expression s depth) (op.level + 1) (l' :: ls') b :=
    fun c d hc hd => htakes' depth hdepth.2 c d hc hd.halts
  have hbinary := (hleft.continues hlevel (by omega)).binary hright
  exact (hbinary.below (by omega) le_rfl hlevel).takes hc (endsAt_of_eof le_rfl hd)

/-- What ends in the slash of a root is read up to there, and a sign behind it begins an operand. -/
theorem not_read_of_slash (hn : 1 ≤ n) (hle : n ≤ 6) (hl : readAt s (n + 1) left = .ok a)
    (hr : readAt s (n + 1) right = .ok b)
    (hsource : source.toList = left.toList ++ ' ' :: '-' :: ' ' :: right.toList)
    (hslash : lastWord left = some .slash) : read s source ≠ .ok e := by
  intro h
  have hread : readAt s 1 left = .ok a := read_of_readAt hn hle hl
  obtain ⟨l, ls, k, hwords, -, -, htakes⟩ := exists_words le_rfl (by decide) hread
  obtain ⟨l', ls', k', hwords', -⟩ := exists_words (Nat.le_add_left _ _) (by omega) hr
  rw [hwords.lastWord_eq] at hslash
  have hall : Words source (l :: ls ++ .symbol .negate :: l' :: ls') :=
    hwords.operator hwords' hsource rfl nofun rfl (by rw [hslash]; rfl)
  obtain ⟨ts, last, htokens, hts, -⟩ := hall.tokens
  obtain ⟨c, d, hstart, hpasses, -⟩ := Cursor.exists_passes htokens hts
  have hdepth : (l :: ls).length ≤ c.rest.length := by
    rw [← hpasses.length, List.append_eq, List.length_cons, List.length_cons, List.length_append]
    omega
  have hpasses : c.Passes ((l :: ls) ++ .symbol .negate :: l' :: ls') d := hpasses
  obtain ⟨m, hm, hnegate⟩ := Cursor.passes_append.mp hpasses
  have hkind : m.current.kind = .negate := (Cursor.passes_cons hnegate).1
  have hhalts : Halts 1 m.current.kind := by
    rw [hkind]
    exact ⟨rfl, nofun⟩
  -- What is read of the whole text can only be what stands on the left.
  obtain ⟨c', d', hstart', hread, hd'⟩ := run_eq_ok.mp h
  obtain rfl : c = c' := by
    rw [hstart] at hstart'
    exact Except.ok.inj hstart'
  have hleft := htakes c.rest.length hdepth c m hm hhalts
  have heq : (Except.ok (a, m) : Except Error (Expr × Cursor)) = .ok (e, d') :=
    hleft.symm.trans (takes_nested.mp hread)
  cases heq
  rw [hkind] at hd'
  cases hd'

/-! ## Sums and differences -/

/-- Two texts that spell products, or tighter operands, spell the sum of the two with `+` between
them. With `-` they spell the difference, unless the first one ends in the slash of a bare root. -/
theorem read_sum_and_difference {l r : Expr} (hl : readAt s 6 left = .ok l)
    (hr : readAt s 6 right = .ok r) :
    read s (left ++ " + " ++ right) = .ok (.binary .plus l r) ∧
      (read s (left ++ " - " ++ right) = .ok (.binary .minus l r) ↔
        lastWord left ≠ some .slash) := by
  have hsource (sign : String) : (left ++ sign ++ right).toList =
      left.toList ++ (sign.toList ++ right.toList) := by
    rw [String.toList_append, String.toList_append, List.append_assoc]
  refine ⟨read_operator .plus hl hr (hsource " + ") rfl, ?_, fun hslash => ?_⟩
  · intro h hslash
    exact not_read_of_slash (by decide) (by decide) hl hr (hsource " - ") hslash h
  · refine read_operator .minus hl hr (hsource " - ") ?_
    obtain ⟨w, ws, k, hwords, hk, hcloses, -⟩ := exists_words (by decide) (by decide) hl
    rw [hwords.lastWord_eq, hk] at hslash ⊢
    obtain hexpects | rfl := hcloses
    · exact BinaryOperator.canFollow_token .minus hexpects
    · exact absurd rfl hslash

def childrenNamed (name : String) (predicates : List Expr) : Expr :=
  .path .contextNode .child ⟨.element, .named ⟨"", name⟩⟩ predicates

theorem readAt_product : readAt {} 6 "x[y] * z" =
    .ok (.binary .multiply (childrenNamed "x" [childrenNamed "y" []]) (childrenNamed "z" [])) := by
  have htokens : tokens "x[y] * z" = ([⟨.name, "x", 0⟩, ⟨.leftSquare, "[", 1⟩, ⟨.name, "y", 2⟩,
      ⟨.rightSquare, "]", 3⟩, ⟨.multiply, "*", 5⟩, ⟨.name, "z", 7⟩, ⟨.eof, "", 8⟩], none) := by
    decide +kernel
  exact run_eq_ok.mpr ⟨_, _, start_of_tokens htokens, rfl, rfl⟩

theorem readAt_negation : readAt {} 6 "-x" = .ok (.negate (childrenNamed "x" [])) := by
  have htokens : tokens "-x" = ([⟨.negate, "-", 0⟩, ⟨.name, "x", 1⟩, ⟨.eof, "", 2⟩], none) := by
    decide +kernel
  exact run_eq_ok.mpr ⟨_, _, start_of_tokens htokens, rfl, rfl⟩

theorem read_sum_and_difference_product :
    let product := Expr.binary .multiply (childrenNamed "x" [childrenNamed "y" []])
      (childrenNamed "z" [])
    let negation := Expr.negate (childrenNamed "x" [])
    readAt {} 6 "x[y] * z" = .ok product ∧ readAt {} 6 "-x" = .ok negation ∧
      read {} "x[y] * z + -x" = .ok (.binary .plus product negation) ∧
      read {} "x[y] * z - -x" = .ok (.binary .minus product negation) := by
  intro product negation
  obtain ⟨hplus, hminus⟩ := read_sum_and_difference readAt_product readAt_negation
  have hlast : lastWord "x[y] * z" ≠ some .slash := by decide +kernel
  exact ⟨readAt_product, readAt_negation, hplus, hminus.mpr hlast⟩

/-- Behind the root `-` begins an operand, and nothing can begin there. -/
theorem not_read_difference_of_root :
    readAt {} 6 "/" = .ok .root ∧ readAt {} 6 "1" = .ok (.number (Number.ofDecimal false 1 0)) ∧
      read {} "/ + 1" = .ok (.binary .plus .root (.number (Number.ofDecimal false 1 0))) ∧
      read {} "/ - 1" = .error (.syntaxFault "/ - 1" (.beyondEnd ⟨.negate, "-", 2⟩)) := by
  have hroot : tokens "/" = ([⟨.slash, "/", 0⟩, ⟨.eof, "", 1⟩], none) := by decide +kernel
  have hone : tokens "1" = ([⟨.number, "1", 0⟩, ⟨.eof, "", 1⟩], none) := by decide +kernel
  have hboth : tokens "/ - 1" = ([⟨.slash, "/", 0⟩, ⟨.negate, "-", 2⟩, ⟨.number, "1", 4⟩,
      ⟨.eof, "", 5⟩], none) := by decide +kernel
  have hl : readAt {} 6 "/" = .ok .root :=
    run_eq_ok.mpr ⟨_, _, start_of_tokens hroot, rfl, rfl⟩
  have hr : readAt {} 6 "1" = .ok (.number (Number.ofDecimal false 1 0)) :=
    run_eq_ok.mpr ⟨_, _, start_of_tokens hone, rfl, rfl⟩
  have hslash : lastWord "/" = some .slash := by
    rw [lastWord, hroot]
    rfl
  refine ⟨hl, hr, read_operator .plus hl hr rfl (by rw [hslash]; rfl), ?_⟩
  rw [read, run, start_of_tokens hboth]
  rfl

end Expr

end XPath
