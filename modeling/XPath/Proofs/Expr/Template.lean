import XPath.Expr.Template
import XPath.Proofs.Evaluation.Answers
import XPath.Proofs.Evaluation.Depth
import XPath.Proofs.Expr.Composition
import XPath.Proofs.Lexer.Tiling

/-!
# Templates that are written from their parts

A template is written from texts, with their braces doubled, and from expressions in braces. The
text of an expression has no brace outside of its strings (`Expr.braceless_of_read`), so a scan
finds each expression again, whatever stands next to it, and one text where several met
(`TemplateStretch.scan_written`). A constant part comes to the same text when the template is
simplified as when it is evaluated (`Expr.evaluateAsText_literal`). So the template comes to the
texts of its parts, one after the other (`Expr.parseTemplate_written`).
-/

namespace XPath

open Lexer Lexeme Reader

/-! ## Braces in the text of an expression -/

section

variable {s : StaticScope} {source : String} {cs ds w : List Char} {c : Char}
  {quote : Option Char}

namespace TemplateStretch

/-- With the quote `quote` open, or none, the characters hold no brace outside of strings, and
leave no string open. -/
def Braceless : Option Char → List Char → Prop
  | quote, [] => quote = none
  | quote, c :: cs =>
    (quote = none → c ≠ '\x7b' ∧ c ≠ '\x7d') ∧ Braceless (quoteAfter quote c) cs

theorem Braceless.append (h : Braceless quote cs) (h' : Braceless none ds) :
    Braceless quote (cs ++ ds) := by
  induction cs generalizing quote with
  | nil =>
      obtain rfl : quote = none := h
      exact h'
  | cons c cs ih => exact ⟨h.1, ih h.2⟩

/-- Whether the character is neither a brace nor a quote. -/
def isPlain (c : Char) : Bool := c != '\x7b' && c != '\x7d' && c != '"' && c != '\''

theorem braceless_of_plain (h : ∀ c ∈ cs, isPlain c = true) : Braceless none cs := by
  induction cs with
  | nil => rfl
  | cons c cs ih =>
      obtain ⟨hc, hcs⟩ := List.forall_mem_cons.mp h
      simp only [isPlain, Bool.and_eq_true, bne_iff_ne] at hc
      have hquote : quoteAfter none c = none := by simp [quoteAfter, hc]
      exact ⟨fun _ => ⟨hc.1.1.1, hc.1.1.2⟩, hquote.symm ▸ ih hcs⟩

theorem braceless_string {q : Char} (hq : q = '"' ∨ q = '\'') (h : q ∉ cs) :
    Braceless none (q :: cs ++ [q]) := by
  have hopen : quoteAfter none q = some q := by
    obtain rfl | rfl := hq <;> rfl
  refine ⟨fun _ => by obtain rfl | rfl := hq <;> decide, ?_⟩
  rw [hopen]
  induction cs with
  | nil => exact ⟨nofun, if_pos (beq_self_eq_true q)⟩
  | cons c cs ih =>
      obtain ⟨hc, hcs⟩ := not_or.mp (List.mem_cons.not.mp h)
      have hinside : quoteAfter (some q) c = some q := if_neg (by simpa using Ne.symm hc)
      refine ⟨nofun, ?_⟩
      rw [hinside]
      exact ih hcs

end TemplateStretch

open TemplateStretch

namespace Lexer

section

variable {p : Char → Bool} (hp : ['\x7b', '\x7d', '"', '\''].any p = false)

include hp

theorem isPlain_of_class (h : p c = true) : isPlain c = true := by
  have hne : ∀ d ∈ ['\x7b', '\x7d', '"', '\''], c ≠ d := by
    rintro d hd rfl
    exact List.any_eq_false.mp hp c hd h
  simpa [isPlain, and_assoc] using hne

theorem isPlain_of_takeWhile : ∀ c ∈ cs.takeWhile p, isPlain c = true :=
  fun _ hc => isPlain_of_class hp (List.mem_takeWhile_imp hc)

end

theorem isPlain_of_isSpace (h : isSpace c = true) : isPlain c = true :=
  isPlain_of_class rfl h

theorem isPlain_of_ncName? (h : ncName? w = some (w, [])) : ∀ c ∈ w, isPlain c = true := by
  obtain ⟨c, ds, rfl, hstart, heq⟩ := ncName?_eq_some h
  have htail : ds = ds.takeWhile isNameChar := (List.cons.inj (Prod.mk.inj heq).1).2
  have hc : isNameChar c = true := by
    rw [isNameStart, Bool.or_eq_true] at hstart
    obtain hletter | hline := hstart
    · simp [isNameChar, hletter]
    · simp [isNameChar, hline]
  rw [htail]
  exact List.forall_mem_cons.mpr
    ⟨isPlain_of_class rfl hc, isPlain_of_takeWhile rfl⟩

theorem isPlain_of_qName? (h : qName? w = some (w, [])) : ∀ c ∈ w, isPlain c = true := by
  obtain h | ⟨front, back, rfl, hfront, hback⟩ := qName?_cases h
  · exact isPlain_of_ncName? h
  · exact List.forall_mem_append.mpr ⟨isPlain_of_ncName? hfront,
      List.forall_mem_cons.mpr ⟨rfl, isPlain_of_ncName? hback⟩⟩

theorem isPlain_of_numeral (h : numeral w = (w, [])) : ∀ c ∈ w, isPlain c = true := by
  have hdigits (ds : List Char) : ∀ d ∈ ds.takeWhile Char.isDigit, isPlain d = true :=
    isPlain_of_takeWhile rfl
  rw [numeral] at h
  split at h
  · rename_i after _
    rw [← (Prod.mk.inj h).1]
    exact List.forall_mem_append.mpr ⟨hdigits w, List.forall_mem_cons.mpr ⟨rfl, hdigits after⟩⟩
  · rw [← (Prod.mk.inj h).1]
    exact hdigits w

theorem braceless_of_writes {l : Lexeme} (h : l.Writes w) : Braceless none w := by
  have hspelled {n gap sign : List Char} (hn : qName? n = some (n, []))
      (hgap : ∀ c ∈ gap, isSpace c = true) (hsign : sign.all isPlain = true) :
      Braceless none (n ++ (gap ++ sign)) :=
    braceless_of_plain (List.forall_mem_append.mpr ⟨isPlain_of_qName? hn,
      List.forall_mem_append.mpr
        ⟨fun c hc => isPlain_of_isSpace (hgap c hc), List.all_eq_true.mp hsign⟩⟩)
  cases h with
  | @symbol k h =>
      refine braceless_of_plain ?_
      cases k with
      | eof | name | functionName | nodeType | axis | namespaceWildcard | literal | number =>
          cases h
      | _ => exact List.all_eq_true.mp rfl
  | name h => exact braceless_of_plain (isPlain_of_qName? h)
  | wildcard h =>
      exact braceless_of_plain
        (List.forall_mem_append.mpr ⟨isPlain_of_ncName? h, List.all_eq_true.mp rfl⟩)
  | axis h hgap => exact hspelled h hgap rfl
  | opening h hgap => exact hspelled h hgap rfl
  | literal hquote h => exact braceless_string hquote h
  | number _ h => exact braceless_of_plain (isPlain_of_numeral h)

theorem Tiles.braceless {offset : Nat} {ts : List Token} {ws : List String}
    (h : Tiles offset cs ts ws) : Braceless none cs := by
  have hblank {gap : List Char} (hgap : ∀ c ∈ gap, isSpace c = true) : Braceless none gap :=
    braceless_of_plain fun c hc => isPlain_of_isSpace (hgap c hc)
  induction h with
  | blank hgap => exact hblank hgap
  | word hgap _ hw _ ih => exact (hblank hgap).append ((braceless_of_writes hw).append ih)

end Lexer

/-- The text of an expression has no brace outside of strings, and all its strings are closed. -/
theorem Expr.braceless_of_read {e : Expr} (h : read s source = .ok e) :
    Braceless none source.toList := by
  obtain ⟨c, d, hstart, htakes, heof⟩ := run_eq_ok.mp (h : readAt s 1 source = .ok e)
  obtain ⟨_, m, hremaining, htakes⟩ := takes_bind.mp htakes
  obtain ⟨rfl, hm⟩ := takes_remaining.mp hremaining
  rw [hm] at htakes
  have hbehind := (follows_readLevel (follows_expression s le_rfl) le_rfl (by decide)).behind htakes
  obtain ⟨-, ls, ⟨ts, e, m, m', hspells, hnext, he, -, -⟩, -⟩ :=
    Cursor.words_of_start hstart hbehind heof
  obtain ⟨-, ws, htiles⟩ := hspells.exists_tiles nofun (spaces_of_next hnext he)
  exact htiles.braceless

end

/-! ## Scanning what was written -/

namespace TemplateStretch

/-- The character as it is written in a text: a brace is doubled. -/
def doubled (c : Char) : List Char := if c = '\x7b' ∨ c = '\x7d' then [c, c] else [c]

/-- The stretch as it is written: a text with its braces doubled, an expression in braces. -/
def written : TemplateStretch → List Char
  | .text cs => cs.flatMap doubled
  | .code cs => '\x7b' :: (cs ++ ['\x7d'])

variable {cs : List Char} {quote : Option Char}

theorem scan_text (latest cs rest : List Char) :
    scan (.text latest) (cs.flatMap doubled ++ rest) =
      scan (.text (cs.reverse ++ latest)) rest := by
  induction cs generalizing latest with
  | nil => rfl
  | cons c cs ih =>
      rw [List.flatMap_cons, List.append_assoc, List.reverse_cons, List.append_assoc, doubled]
      split
      · rename_i hc
        obtain rfl | rfl := hc
        · exact ih _
        · exact ih _
      · rename_i hc
        obtain ⟨hopen, hclose⟩ := not_or.mp hc
        rw [List.singleton_append, scan]
        · exact ih _
        all_goals simp_all

theorem scan_code (h : Braceless quote cs) (latest rest : List Char) :
    scan (.code latest quote) (cs ++ '\x7d' :: rest) =
      (.code (latest.reverse ++ cs) :: (scan (.text []) rest).1, (scan (.text []) rest).2) := by
  induction cs generalizing latest quote with
  | nil =>
      obtain rfl : quote = none := h
      rw [List.append_nil, List.nil_append, scan]
      rfl
  | cons c cs ih =>
      have hstays : ¬(c == '\x7d' && quote.isNone) = true := by
        simp only [Bool.and_eq_true, beq_iff_eq, Option.isNone_iff_eq_none]
        exact fun ⟨hc, hquote⟩ => (h.1 hquote).2 hc
      rw [List.cons_append, scan, if_neg hstays, ih h.2, List.reverse_cons, List.append_assoc]
      rfl

theorem scan_expression (h : Braceless none cs) (latest rest : List Char) :
    scan (.text latest) (written (.code cs) ++ rest) =
      (ofText latest ++ .code cs :: (scan (.text []) rest).1, (scan (.text []) rest).2) := by
  have hscan := scan_code h [] rest
  rw [written, List.cons_append, List.append_assoc, List.singleton_append, scan]
  · simp only [hscan]
    rfl
  · rintro ds hds
    cases cs with
    | nil => cases hds
    | cons c cs => exact (h.1 rfl).1 (List.cons.inj hds).1

/-- The stretches that are told apart when the parts are written one after the other, behind the
text `latest`: neighbouring texts are one. -/
def gather : List Char → List TemplateStretch → List TemplateStretch
  | latest, [] => ofText latest
  | latest, .text cs :: parts => gather (cs.reverse ++ latest) parts
  | latest, .code cs :: parts => ofText latest ++ .code cs :: gather [] parts

theorem scan_written {parts : List TemplateStretch}
    (h : ∀ cs, .code cs ∈ parts → Braceless none cs) (latest : List Char) :
    scan (.text latest) (parts.flatMap written) = (gather latest parts, none) := by
  induction parts generalizing latest with
  | nil => rfl
  | cons p parts ih =>
      have hparts := fun cs hcs => h cs (List.mem_cons_of_mem _ hcs)
      cases p with
      | text cs => exact (scan_text latest cs _).trans (ih hparts _)
      | code cs =>
          rw [List.flatMap_cons, scan_expression (h cs List.mem_cons_self), ih hparts]
          rfl

end TemplateStretch

/-! ## The text of a constant -/

variable {F : Forest} {h : Host} {s : StaticScope} {c : Context} {parts : List TemplatePart}
  {text : String}

namespace Extent

theorem first?_toNodeSet (e : Extent) : e.toNodeSet.first? F = .ok (e.first? F) := by
  obtain ⟨nodes, sorted, reverse⟩ := e
  unfold toNodeSet
  split
  · rename_i hnil
    obtain rfl : nodes = [] := hnil
    cases sorted <;> cases reverse <;> rfl
  · rename_i n hone
    obtain rfl : nodes = [n] := hone
    cases sorted <;> cases reverse <;> rfl
  · rfl

theorem first?_sort (e : Extent) : (e.sort F).first? F = e.first? F := by
  obtain ⟨nodes, sorted, reverse⟩ := e
  cases sorted with
  | true => rfl
  | false =>
      cases reverse with
      | true => exact List.head?_reverse
      | false => exact Forest.head?_inOrder F nodes

end Extent

/-- Which node comes first is the same before a set is put in order. -/
theorem NodeSet.first?_sorted (s : NodeSet) : s.sorted F >>= NodeSet.first? F = s.first? F := by
  cases s with
  | empty => rfl
  | singleton n => rfl
  | extent e => rw [sorted, ok_bind, Extent.first?_toNodeSet, Extent.first?_sort, first?]
  | intent i =>
      have hfix : (do return (← i.fix F).toNodeSet : Except Error NodeSet) >>= NodeSet.first? F =
          do return (← i.fix F).first? F := by
        cases i.fix F with
        | error e => rfl
        | ok x => exact x.first?_toNodeSet
      obtain ⟨display, listing, fixed, identity⟩ := i
      cases fixed with
      | true => rfl
      | false =>
          cases listing with
          | error e => rfl
          | ok raw =>
              cases hraw : raw.sorted with
              | true => simp [sorted, Intent.isInOrder, first?, Intent.first?, Except.map, hraw]
              | false =>
                  simp only [sorted, Intent.isInOrder, first?, Intent.first?, Except.map, hraw,
                    Bool.false_eq_true, ↓reduceIte, ok_bind]
                  exact hfix

theorem Value.toText_ofConstant (v : Value) : v.ofConstant F >>= Value.toText F = v.toText F := by
  cases v with
  | nodeSet s =>
      simp only [ofConstant, toText, NodeSet.toText, ← s.first?_sorted (F := F)]
      cases s.sorted F <;> rfl
  | _ => rfl

/-- What the part of a template comes to: a text to itself, and an expression to what the text
between the braces comes to by itself. -/
def TemplateStretch.ComesTo (s : StaticScope) (h : Host) (c : Context) :
    TemplateStretch → String → Prop
  | .text cs, text => text = String.ofList cs
  | .code cs, text => ∃ e, Expr.parse s h.forest (String.ofList cs) = .ok e ∧
      e.evaluateAsText h c = .ok text

namespace Expr

theorem evaluateAsText_literal (v : Value) (c : Context) :
    (literal v).evaluateAsText h c = v.toText h.forest :=
  ((h.matches_evaluator (literal v)).text c).symm.trans v.toText_ofConstant

/-! ## The text of a template -/

/-- The parts come to texts that make up `text` one after the other. -/
inductive Says (h : Host) (c : Context) : List TemplatePart → String → Prop
  | nil : Says h c [] ""
  | text {parts : List TemplatePart} {text : String} (front : String)
      (hparts : Says h c parts text) : Says h c (.text front :: parts) (front ++ text)
  | expr {e : Expr} {parts : List TemplatePart} {front text : String}
      (he : e.evaluateAsText h c = .ok front) (hparts : Says h c parts text) :
      Says h c (.expr e :: parts) (front ++ text)

theorem Says.joinTexts (hparts : Says h c parts text) : Says h c (joinTexts parts) text := by
  induction hparts with
  | nil => exact .nil
  | expr he _ ih => exact .expr he ih
  | @text parts text front _ ih =>
      rw [Expr.joinTexts]
      split
      · rename_i back others hjoined
        rw [hjoined] at ih
        cases ih with
        | text _ hothers =>
            rw [← String.append_assoc]
            exact .text _ hothers
      · exact .text front ih

theorem Says.evaluate_template (hparts : Says h c parts text) :
    (template parts).evaluate h c = .ok (.string text) := by
  obtain ⟨texts, htexts, rfl⟩ : ∃ texts : List String,
      parts.mapM (Engine.ruleValue.text h.evaluator · c) = .ok texts ∧
        text = String.join texts := by
    induction hparts with
    | nil => exact ⟨[], rfl, rfl⟩
    | text front _ ih =>
        obtain ⟨texts, htexts, rfl⟩ := ih
        refine ⟨front :: texts, ?_, by simp⟩
        rw [List.mapM_cons, htexts]
        rfl
    | @expr e parts front text he _ ih =>
        obtain ⟨texts, htexts, rfl⟩ := ih
        have hfront : Engine.ruleValue.text h.evaluator (.expr e) c = .ok front := he
        refine ⟨front :: texts, ?_, by simp⟩
        rw [List.mapM_cons, hfront, htexts]
        rfl
  rw [evaluate_eq, Engine.ruleValue, htexts]
  rfl

theorem Says.evaluate_ofTemplate (hparts : Says h c parts text) :
    (ofTemplate parts).evaluate h c = .ok (.string text) ∧
      (ofTemplate parts).evaluateAsText h c = .ok text := by
  have hliteral (text : String) : (string text).evaluate h c = .ok (.string text) ∧
      (string text).evaluateAsText h c = .ok text :=
    ⟨evaluate_eq (h := h) _ c, evaluateAsText_literal (.string text) c⟩
  have hjoined := hparts.joinTexts
  unfold ofTemplate
  split
  · rename_i hnil
    rw [hnil] at hjoined
    cases hjoined
    exact hliteral ""
  · rename_i hone
    rw [hone] at hjoined
    cases hjoined with
    | text _ hnil =>
        cases hnil
        rw [String.append_empty]
        exact hliteral _
  · have hvalue := hjoined.evaluate_template
    refine ⟨hvalue, ((h.matches_evaluator _).text c).symm.trans ?_⟩
    rw [evaluate_eq] at hvalue
    show h.evaluator.ruleValue h _ c >>= Value.toText h.forest = _
    rw [hvalue]
    rfl

/-! ## Reading a template -/

/-- The stretch is read as a part, which is simplified to this one. -/
def Compiles (s : StaticScope) (F : Forest) (stretch : TemplateStretch) (part : TemplatePart) :
    Prop :=
  ∃ p, stretch.read s = .ok p ∧ simplifyPart F p = .ok part

theorem parse_eq_ok {source : String} {e : Expr} (hstrict : s.options.forwardsCompatible = false)
    (he : parse s F source = .ok e) : ∃ r, read s source = .ok r ∧ r.simplify F = .ok e := by
  refine bind_eq_ok.mp ?_
  unfold parse deferIn at he
  split at he
  · rw [hstrict, Bool.and_false, if_neg Bool.false_ne_true] at he
    cases he
  · rename_i hresult
    cases he
    exact hresult

/-- The part of an expression says what the expression by itself comes to. -/
theorem Says.code {cs : List Char} {front : String} (hstrict : s.options.forwardsCompatible = false)
    (hcode : (TemplateStretch.code cs).ComesTo s h c front) (hparts : Says h c parts text) :
    ∃ p, Compiles s h.forest (.code cs) p ∧ Says h c (p :: parts) (front ++ text) := by
  obtain ⟨e, hparse, htext⟩ := hcode
  obtain ⟨r, hread, hsimplify⟩ := parse_eq_ok hstrict hparse
  have hcompiles {p : TemplatePart} (hp : simplifyPart h.forest (.expr r) = .ok p) :
      Compiles s h.forest (.code cs) p := ⟨.expr r, by rw [TemplateStretch.read, hread]; rfl, hp⟩
  by_cases hconstant : ∃ v, e = literal v
  · obtain ⟨v, rfl⟩ := hconstant
    rw [evaluateAsText_literal] at htext
    refine ⟨.text front, hcompiles ?_, .text front hparts⟩
    rw [simplifyPart, hsimplify, ok_bind]
    simp only [htext]
    rfl
  · refine ⟨.expr e, hcompiles ?_, .expr htext hparts⟩
    rw [simplifyPart, hsimplify, ok_bind]
    split
    · exact absurd ⟨_, rfl⟩ hconstant
    · rfl

theorem braceless_of_comesTo {stretches : List TemplateStretch} {texts : List String}
    (hstrict : s.options.forwardsCompatible = false)
    (hparts : List.Forall₂ (TemplateStretch.ComesTo s h c) stretches texts) :
    ∀ cs, .code cs ∈ stretches → TemplateStretch.Braceless none cs := by
  induction hparts with
  | nil => nofun
  | cons hpart _ ih =>
      intro cs hcs
      obtain rfl | hcs := List.mem_cons.mp hcs
      · obtain ⟨e, hparse, -⟩ := hpart
        obtain ⟨r, hread, -⟩ := parse_eq_ok hstrict hparse
        have hread := braceless_of_read hread
        rwa [String.toList_ofList] at hread
      · exact ih cs hcs

theorem exists_compiled {stretches : List TemplateStretch} {texts : List String}
    (hstrict : s.options.forwardsCompatible = false)
    (hparts : List.Forall₂ (TemplateStretch.ComesTo s h c) stretches texts) (latest : List Char) :
    ∃ parts, List.Forall₂ (Compiles s h.forest) (TemplateStretch.gather latest stretches) parts ∧
      Says h c parts (String.ofList latest.reverse ++ String.join texts) := by
  have htext (latest : List Char) {stretches : List TemplateStretch} {parts : List TemplatePart}
      {text : String} (hcompiled : List.Forall₂ (Compiles s h.forest) stretches parts)
      (hsaid : Says h c parts text) :
      ∃ parts,
        List.Forall₂ (Compiles s h.forest) (TemplateStretch.ofText latest ++ stretches) parts ∧
        Says h c parts (String.ofList latest.reverse ++ text) := by
    cases latest with
    | nil => exact ⟨parts, hcompiled, by simpa using hsaid⟩
    | cons d latest => exact ⟨_, .cons ⟨_, rfl, rfl⟩ hcompiled, .text _ hsaid⟩
  induction hparts generalizing latest with
  | nil =>
      obtain ⟨parts, hcompiled, hsaid⟩ := htext latest .nil .nil
      rw [List.append_nil] at hcompiled
      exact ⟨parts, hcompiled, hsaid⟩
  | @cons stretch front stretches texts hpart _ ih =>
      rw [String.join_cons]
      cases stretch with
      | text cs =>
          obtain rfl : front = String.ofList cs := hpart
          obtain ⟨parts, hcompiled, hsaid⟩ := ih (cs.reverse ++ latest)
          refine ⟨parts, hcompiled, ?_⟩
          rwa [List.reverse_append, List.reverse_reverse, String.ofList_append,
            String.append_assoc] at hsaid
      | code cs =>
          obtain ⟨parts, hcompiled, hsaid⟩ := ih []
          obtain ⟨p, hp, hsaid⟩ := hsaid.code hstrict hpart
          have hsaid' : Says h c (p :: parts) (front ++ String.join texts) := by simpa using hsaid
          exact htext latest (.cons hp hcompiled) hsaid'

theorem parseTemplate_of_scan {source : String} {stretches : List TemplateStretch}
    (hscan : TemplateStretch.scan (.text []) source.toList = (stretches, none))
    (hparts : List.Forall₂ (Compiles s F) stretches parts) :
    parseTemplate s F source = .ok (ofTemplate parts) := by
  obtain ⟨read, hread, hsimplify⟩ : ∃ read, stretches.mapM (TemplateStretch.read s) = .ok read ∧
      simplifyParts F read = .ok parts := by
    clear hscan
    induction hparts with
    | nil => exact ⟨[], rfl, rfl⟩
    | cons hp _ ih =>
        obtain ⟨p, hread, hsimplify⟩ := hp
        obtain ⟨ps, hreads, hsimplifies⟩ := ih
        refine ⟨p :: ps, ?_, ?_⟩
        · rw [List.mapM_cons, hread, ok_bind, hreads]
          rfl
        · rw [simplifyParts, hsimplify, ok_bind, hsimplifies]
          rfl
  rw [parseTemplate, readTemplate, hscan]
  dsimp only
  rw [hread]
  show deferIn s ((template read).simplify F) = _
  rw [simplify, hsimplify]
  rfl

/-- A template that is written from texts and expressions comes to their texts one after the other,
in every context where the expressions come to texts. -/
theorem parseTemplate_written {stretches : List TemplateStretch} {texts : List String}
    (hstrict : s.options.forwardsCompatible = false)
    (hparts : List.Forall₂ (TemplateStretch.ComesTo s h c) stretches texts) :
    ∃ e, parseTemplate s h.forest
        (String.ofList (stretches.flatMap TemplateStretch.written)) = .ok e ∧
      e.evaluateAsText h c = .ok (String.join texts) ∧
      e.evaluate h c = .ok (.string (String.join texts)) := by
  obtain ⟨parts, hcompiled, hsaid⟩ := exists_compiled hstrict hparts []
  have hscan := TemplateStretch.scan_written (braceless_of_comesTo hstrict hparts) []
  rw [← String.toList_ofList (l := stretches.flatMap TemplateStretch.written)] at hscan
  obtain ⟨hvalue, htext⟩ := hsaid.evaluate_ofTemplate
  rw [List.reverse_nil, String.ofList_nil, String.empty_append] at hvalue htext
  exact ⟨_, parseTemplate_of_scan hscan hcompiled, htext, hvalue⟩

/-- A text that ends in a brace next to an expression, one that begins with a brace behind it, and
an expression whose string holds braces and a quote. -/
def braced : List TemplateStretch :=
  [.text ['é', '\x7b'], .code ['$', 'b'], .text ['\x7d'], .code ['\'', '\x7d', '"', '\x7b', '\'']]

theorem parseTemplate_written_braced :
    ∃ e, parseTemplate flagScope .nested "é\x7b\x7b\x7b$b\x7d\x7d\x7d\x7b'\x7d\"\x7b'\x7d" = .ok e ∧
      e.evaluateAsText nestedHost flagContext = .ok "é\x7btrue\x7d\x7d\"\x7b" ∧
      e.evaluate nestedHost flagContext = .ok (.string "é\x7btrue\x7d\x7d\"\x7b") := by
  have hflag : parse flagScope .nested "$b" = .ok flag := by cbv
  have hstring : parse flagScope .nested "'\x7d\"\x7b'" = .ok (string "\x7d\"\x7b") := by cbv
  have hvalue : flag.evaluateAsText nestedHost flagContext = .ok "true" :=
    toOption_eq_some.mp (by decide +kernel)
  have hparts : List.Forall₂ (TemplateStretch.ComesTo flagScope nestedHost flagContext) braced
      ["é\x7b", "true", "\x7d", "\x7d\"\x7b"] :=
    .cons rfl (.cons ⟨_, hflag, hvalue⟩ (.cons rfl (.cons
      ⟨_, hstring, evaluateAsText_literal _ _⟩ .nil)))
  have hwritten : String.ofList (braced.flatMap TemplateStretch.written) =
      "é\x7b\x7b\x7b$b\x7d\x7d\x7d\x7b'\x7d\"\x7b'\x7d" := by decide +kernel
  have hjoined : String.join ["é\x7b", "true", "\x7d", "\x7d\"\x7b"] =
      "é\x7btrue\x7d\x7d\"\x7b" := by decide +kernel
  have htemplate := parseTemplate_written rfl hparts
  rwa [hwritten, hjoined] at htemplate

end Expr

end XPath
