import Mathlib.Data.List.SplitBy
import XPath.Proofs.Evaluation.Answers
import XPath.Proofs.Lexer.Lexeme
import XPath.Proofs.NodeSet.Coherence
import XPath.Proofs.Pattern.Selection

/-!
# Ids of patterns and of expressions

The function `id()` looks up every word of its argument, the pattern `id()` looks up its literal as
it is written. So the pattern of a word accepts what the function selects, and the function selects
what the patterns of all words accept; a literal that is no word by itself, because it has white
space in it or nothing else, is an id to the pattern and none to the function
(`Pattern.accepts_id_iff_selected`).
-/

namespace XPath

/-! ## Words -/

namespace Text

variable {text word : String}

theorem not_isSpace_of_mem_words (h : word ∈ words text) : ∀ c ∈ word.toList, isSpace c = false := by
  obtain ⟨cs, hcs, rfl⟩ := List.mem_map.mp h
  have hword := (List.mem_filter.mp hcs).2
  simpa using hword

theorem words_of_not_isSpace (hne : text ≠ "") (h : ∀ c ∈ text.toList, isSpace c = false) :
    words text = [text] := by
  have hnil : text.toList ≠ [] := by simpa using hne
  have hchain : text.toList.IsChain fun a b => (isSpace a == isSpace b) = true := by
    apply List.Pairwise.isChain
    apply List.pairwise_of_forall_mem_list
    intro a ha b hb
    rw [h a ha, h b hb]
    rfl
  have hnone : text.toList.any isSpace = false := by simpa using h
  have hof : wordsOf text.toList = [text.toList] := by
    rw [wordsOf, List.splitBy_of_isChain hnil hchain]
    simp [hnone]
  simp [words, hof]

theorem ne_empty_of_mem_words (h : word ∈ words text) : word ≠ "" := by
  obtain ⟨cs, hcs, rfl⟩ := List.mem_map.mp h
  have hsplit := (List.mem_filter.mp hcs).1
  have hnil : cs ≠ [] := List.ne_nil_of_mem_splitBy hsplit
  simpa using hnil

theorem words_of_mem_words (h : text ∈ words text) : words text = [text] :=
  words_of_not_isSpace (ne_empty_of_mem_words h) (not_isSpace_of_mem_words h)

end Text

/-! ## Lookups by id -/

namespace Forest

variable {F : Forest} {m n : Node} {id : String}

theorem elementById?_documentRoot (L : F.Linked) (n : Node) (id : String) :
    F.elementById? (F.documentRoot n) id = F.elementById? n id := by
  have hdocument := document?_congr (F := F) (L.document_of_below (below_documentRoot F n)).symm
  have hroot := documentRoot_of_no_parent (L.parent_documentRoot n)
  unfold elementById?
  rw [hdocument, hroot]

theorem document_of_elementById (L : F.Linked) (h : F.elementById? n id = some m) :
    m.document = n.document := by
  have hmem := List.mem_of_find?_eq_some h
  have hm := L.document_of_below (L.below_of_mem_subtree hmem)
  exact hm.trans (L.document_of_below (below_documentRoot F n)).symm

theorem id_of_elementById {id' : String} (h : F.elementById? n id = some m)
    (h' : F.elementById? n id' = some m) : id = id' := by
  have hid := List.find?_some h
  have hid' := List.find?_some h'
  simp only [Bool.and_eq_true, beq_iff_eq] at hid hid'
  exact Option.some.inj (hid.2.symm.trans hid'.2)

theorem mem_inOrder_of_document {ns : List Node} {d : Nat} (h : ∀ n ∈ ns, n.document = d) :
    n ∈ F.inOrder ns ↔ n ∈ ns := by
  refine ⟨mem_of_mem_inOrder, fun hn => ?_⟩
  obtain ⟨k, hk, hkey⟩ := exists_mem_inOrder F hn
  have hdocument : k.document = n.document := (h k (mem_of_mem_inOrder hk)).trans (h n hn).symm
  have hnumber : k.number = n.number := congrArg OrderKey.sequence hkey
  have hsame : k = n := by
    cases k
    cases n
    simp_all
  exact hsame ▸ hk

end Forest

namespace Expr

/-- `id('value')` -/
def idCall (value : String) : Expr := call .id [string value] .free

variable {h : Host} {n : Node}

/-- The function selects what it finds under the words of its argument. -/
theorem select_idCall (L : h.forest.Linked) (value : String) (c : Context) (n : Node) :
    ∃ ns, (idCall value).select h (c.withNode n) = .ok ns ∧
      ∀ m, m ∈ ns ↔ ∃ w ∈ Text.words value, h.forest.elementById? n w = some m := by
  let found := ([value].flatMap Text.words).filterMap
    (h.forest.elementById? (h.forest.documentRoot n))
  let x := (Extent.ofNodes found false).sort h.forest
  have hevaluate : (idCall value).evaluate h (c.withNode n) = .ok (.nodeSet x.toNodeSet) := rfl
  have hfound (m : Node) :
      m ∈ found ↔ ∃ w ∈ Text.words value, h.forest.elementById? n w = some m := by
    simp [found, Forest.elementById?_documentRoot L]
  have hmem (m : Node) : m ∈ x.nodes ↔ m ∈ found := by
    rw [nodes_sort_ofNodes]
    refine Forest.mem_inOrder_of_document (d := n.document) fun k hk => ?_
    obtain ⟨w, -, hw⟩ := (hfound k).mp hk
    exact Forest.document_of_elementById L hw
  refine ⟨x.nodes, ?_, fun m => (hmem m).trans (hfound m)⟩
  rw [select, hevaluate, ok_bind]
  exact Extent.toList_toNodeSet Extent.sorted_sort

end Expr

namespace Pattern

open Reader

variable {h : Host} {s : StaticScope} {quote : Char} {value : String}

theorem accepts_id (value : String) (c : Context) (n : Node) :
    (id value).accepts h c n = .ok true ↔ h.forest.elementById? n value = some n := by
  rw [accepts, Except.ok.injEq, Bool.and_eq_true, beq_iff_eq, beq_iff_eq, and_iff_right_iff_imp]
  intro hfound
  have hn := List.find?_some hfound
  simp only [Bool.and_eq_true, beq_iff_eq] at hn
  exact hn.1

/-! ## How an id is written -/

/-- The text `id('value')`, with one or the other kind of quotes. -/
def idText (quote : Char) (value : String) : String :=
  .ofList ('i' :: 'd' :: '(' :: quote :: (value.toList ++ [quote, ')']))

section

variable (hquote : quote = '"' ∨ quote = '\'') (hvalue : quote ∉ value.toList)

include hquote hvalue

theorem tokens_idText : ∃ i j, Lexer.tokens (idText quote value) =
    ([⟨.functionName, "id", 0⟩, ⟨.literal, value, 3⟩, ⟨.rightParen, ")", i⟩, ⟨.eof, "", j⟩],
      none) := by
  let source := idText quote value
  let spelling := quote :: value.toList ++ [quote]
  have hfirst (cs : List Char) : Lexer.next ⟨source, 'i' :: 'd' :: '(' :: cs, 0, none⟩ =
      .ok (⟨.functionName, "id", 0⟩, ⟨source, cs, 3, some .functionName⟩) := rfl
  have hsecond : Lexer.next ⟨source, spelling ++ [')'], 3, some .functionName⟩ =
      .ok (⟨.literal, value, 3⟩, ⟨source, [')'], 3 + utf8Length spelling, some .literal⟩) := by
    have hspace : isSpace quote = false := by
      rcases hquote with rfl | rfl <;> rfl
    have hskip : (⟨source, spelling ++ [')'], 3, some .functionName⟩ : Lexer.State).skipSpace =
        ⟨source, spelling ++ [')'], 3, some .functionName⟩ := by
      simp [Lexer.State.skipSpace, spelling, hspace, utf8Length]
    have hrest : spelling ++ [')'] = quote :: (value.toList ++ quote :: [')']) := by simp [spelling]
    rw [Lexer.next, hskip, Lexer.token_of_literal hquote hvalue hrest]
    simp [Lexer.State.take, spelling]
  have hthird (i : Nat) : Lexer.next ⟨source, [')'], i, some .literal⟩ =
      .ok (⟨.rightParen, ")", i⟩, ⟨source, [], i + 1, some .rightParen⟩) := rfl
  have hlast (i : Nat) : Lexer.next ⟨source, [], i, some .rightParen⟩ =
      .ok (⟨.eof, "", i⟩, ⟨source, [], i, some .eof⟩) := rfl
  have htext : source.toList = 'i' :: 'd' :: '(' :: (spelling ++ [')']) := by
    simp [source, idText, spelling]
  refine ⟨3 + utf8Length spelling, 3 + utf8Length spelling + 1, ?_⟩
  change Lexer.tokens source = _
  rw [Lexer.tokens, Lexer.start, htext]
  simp only [List.length_cons, Lexer.tokensWith, hfirst, hsecond, hthird, hlast]
  rfl

theorem read_idText : read s (idText quote value) = .ok (id value) := by
  obtain ⟨i, j, htokens⟩ := tokens_idText hquote hvalue
  exact run_eq_ok.mpr ⟨_, _, start_of_tokens htokens, rfl, rfl⟩

theorem parse_idText {F : Forest} : parse s F (idText quote value) = .ok (id value) :=
  bind_eq_ok.mpr ⟨id value, read_idText hquote hvalue, rfl⟩

theorem parse_idText_expr {F : Forest} :
    Expr.parse s F (idText quote value) = .ok (Expr.idCall value) := by
  obtain ⟨i, j, htokens⟩ := tokens_idText hquote hvalue
  have htakes (source : String) : Takes (Expr.nested s) ⟨source, ⟨.functionName, "id", 0⟩,
      [⟨.literal, value, 3⟩, ⟨.rightParen, ")", i⟩, ⟨.eof, "", j⟩], none⟩ (Expr.idCall value)
      ⟨source, ⟨.eof, "", j⟩, [], none⟩ := by cbv
  have hread : Expr.read s (idText quote value) = .ok (Expr.idCall value) :=
    run_eq_ok.mpr ⟨_, _, start_of_tokens htokens, htakes _, rfl⟩
  rw [Expr.parse, hread]
  rfl

/-- The expression `id('value')` selects a node exactly if the pattern of some word of the value
accepts it. The pattern `id('value')` agrees if the value is one word; if it is not, no node is
both accepted by the pattern and selected by the expression. -/
theorem accepts_id_iff_selected (L : h.forest.Linked) :
    parse s h.forest (idText quote value) = .ok (id value) ∧
      ∃ e, Expr.parse s h.forest (idText quote value) = .ok e ∧
        ∀ c n, ∃ ns, e.select h (c.withNode n) = .ok ns ∧
          (n ∈ ns ↔ ∃ w ∈ Text.words value, (id w).accepts h c n = .ok true) ∧
          (Text.words value = [value] → ((id value).accepts h c n = .ok true ↔ n ∈ ns)) ∧
          (Text.words value ≠ [value] → ¬((id value).accepts h c n = .ok true ∧ n ∈ ns)) := by
  refine ⟨parse_idText hquote hvalue, _, parse_idText_expr hquote hvalue, fun c n => ?_⟩
  obtain ⟨ns, hns, hmem⟩ := Expr.select_idCall L value c n
  have hselected : n ∈ ns ↔ ∃ w ∈ Text.words value, (id w).accepts h c n = .ok true := by
    simpa only [accepts_id] using hmem n
  refine ⟨ns, hns, hselected, fun hword => ?_, fun hwords => ?_⟩
  · simp [hselected, hword]
  · rintro ⟨haccepts, hn⟩
    obtain ⟨w, hw, hfound⟩ := hselected.mp hn
    obtain rfl := Forest.id_of_elementById ((accepts_id _ _ _).mp haccepts)
      ((accepts_id _ _ _).mp hfound)
    exact hwords (Text.words_of_mem_words hw)

end

/-! ## A list of ids -/

/-- The document `<r><x id="a"/></r>`. -/
def marked : Forest :=
  ⟨#[.ofEvents 1 [.element ⟨none, none, "r"⟩, .element ⟨none, none, "x"⟩,
    .attributeNode ⟨none, none, "id"⟩ "a", .close, .close]]⟩

theorem linked_marked : marked.Linked :=
  (Forest.wellFormed_of_contract (by decide) (by decide) (by decide)).linked

def markedHost : Host := ⟨marked, fun _ _ _ => .error (.evaluation .noContextNode)⟩

theorem accepts_id_iff_selected_marked :
    '"' ∉ "a".toList ∧ markedHost.forest.Linked ∧
      ∃ e ns, Expr.parse { } marked (idText '"' "a") = .ok e ∧
        e.select markedHost (Context.standalone.withNode ⟨0, 2⟩) = .ok ns ∧ ⟨0, 2⟩ ∈ ns := by
  have hvalue : '"' ∉ "a".toList := by decide
  obtain ⟨-, e, he, hagree⟩ :=
    accepts_id_iff_selected (h := markedHost) (s := { }) (.inl rfl) hvalue linked_marked
  obtain ⟨ns, hns, -, hword, -⟩ := hagree .standalone ⟨0, 2⟩
  have haccepts : (id "a").accepts markedHost .standalone ⟨0, 2⟩ = .ok true :=
    toOption_eq_some.mp (by decide +kernel)
  exact ⟨hvalue, linked_marked, e, ns, he, hns, (hword (by decide)).mp haccepts⟩

/-- `id('a b')` selects the element with the id `a` and accepts no element. -/
theorem not_accepts_id_iff_selected : ¬∀ (h : Host) (s : StaticScope) (value : String) (p : Pattern)
    (e : Expr) (c : Context) (n : Node) (ns : List Node), h.forest.Linked → '\'' ∉ value.toList →
      parse s h.forest (idText '\'' value) = .ok p →
        Expr.parse s h.forest (idText '\'' value) = .ok e →
          e.select h (c.withNode n) = .ok ns → (p.accepts h c n = .ok true ↔ n ∈ ns) := by
  intro hagree
  have hvalue : '\'' ∉ "a b".toList := by decide
  obtain ⟨ns, hns, hmem⟩ :=
    Expr.select_idCall (h := markedHost) linked_marked "a b" .standalone ⟨0, 2⟩
  have hselected : ⟨0, 2⟩ ∈ ns :=
    (hmem _).mpr ⟨"a", by decide, by decide +kernel⟩
  have haccepts := (hagree markedHost { } "a b" _ _ .standalone ⟨0, 2⟩ ns linked_marked hvalue
    (parse_idText (.inr rfl) hvalue) (parse_idText_expr (.inr rfl) hvalue) hns).mpr hselected
  have hnone : marked.elementById? ⟨0, 2⟩ "a b" = none := by decide +kernel
  rw [accepts_id] at haccepts
  cases hnone.symm.trans haccepts

end Pattern

end XPath
