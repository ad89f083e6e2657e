import XPath.Proofs.Xml.Delivered
import XPath.Xml.Assembly

/-!
# Documents that are assembled from markup

What is proved of places asks of a parser only what `Document.Delivered` says, and the reader of XML
texts keeps it (`Document.delivered_ofXml?`). Whatever markup a document is assembled from, with
entities in entities and tags in them: an element comes with its declarations and then its attributes
right behind it, and nowhere else do declarations and attributes come. Every step of the assembly keeps
that (`Xml.Assembly.layered_addContent`).
-/

namespace XPath

namespace Xml

theorem foldlM_keeps {σ α : Type} {P : σ → Prop} {step : σ → α → Option σ}
    (hstep : ∀ s x s', P s → step s x = some s' → P s') {xs : List α} {s s' : σ} (h : P s)
    (hrun : xs.foldlM step s = some s') : P s' := by
  induction xs generalizing s with
  | nil =>
      obtain rfl : s = s' := Option.some.inj hrun
      exact h
  | cons x xs ih =>
      rw [List.foldlM_cons, Option.bind_eq_bind, Option.bind_eq_some_iff] at hrun
      obtain ⟨t, ht, hrun⟩ := hrun
      exact ih (hstep s x t h ht) hrun

namespace Assembly

variable {a a' : Assembly} {s : Source} {left : Nat}

/-! ## Text -/

theorem layered_addEvent {e : TreeEvent} (he : e.isContent = true) (h : Layered a.events) :
    Layered (a.addEvent e).events := .content e he h

theorem layered_endText (h : Layered a.events) : Layered a.endText.events := by
  unfold endText
  split
  · exact .content _ rfl h
  · exact h

theorem layered_addLatest (latest : List Char) (h : Layered a.events) :
    Layered (a.addLatest latest).events := by
  unfold addLatest
  split <;> exact h

theorem layered_addPieces {expand : String → Assembly → Option Assembly}
    (hexpand : ∀ name a a', Layered a.events → expand name a = some a' → Layered a'.events)
    {nested kept : Bool} {pieces : List Piece} {latest : List Char} (h : Layered a.events)
    (hrun : addPieces expand nested pieces latest kept a = some a') : Layered a'.events := by
  induction pieces generalizing latest kept a with
  | nil =>
      rw [addPieces, Option.some.injEq] at hrun
      exact hrun ▸ layered_addLatest latest h
  | cons piece rest ih =>
      cases piece with
      | plain c =>
          rw [addPieces] at hrun
          exact ih h hrun
      | reference r =>
          cases r with
          | character c =>
              rw [addPieces] at hrun
              split at hrun
              · exact ih h hrun
              · exact ih h hrun
          | entity name =>
              rw [addPieces, Option.bind_eq_bind, Option.bind_eq_some_iff] at hrun
              obtain ⟨t, ht, hrun⟩ := hrun
              exact ih (hexpand name _ t (layered_addLatest latest h) ht) hrun

/-! ## Tags -/

theorem events_addAttribute {name : WrittenName} {written : List Char}
    (hrun : a.addAttribute s left name written = some a') : a'.events = a.events := by
  unfold addAttribute at hrun
  simp only [Option.bind_eq_bind, Option.bind_eq_some_iff, Prod.exists] at hrun
  obtain ⟨latest, references, -, declared, -, hrun⟩ := hrun
  cases declared <;> · cases hrun; rfl

theorem events_takeTag {scope : List Binding} {attributes : List (QName × String)}
    (hrun : a.takeTag = some (scope, attributes, a')) : a'.events = a.events := by
  unfold takeTag at hrun
  simp only [Option.bind_eq_bind, Option.bind_eq_some_iff] at hrun
  obtain ⟨named, -, hrun⟩ := hrun
  cases hrun
  rfl

theorem layered_openElement {written : WrittenName} {scope : List Binding}
    (h : Layered a.events) (hrun : a.openElement written = some (scope, a')) :
    Layered a'.events := by
  unfold openElement at hrun
  simp only [Option.bind_eq_bind, Option.bind_eq_some_iff, Prod.exists] at hrun
  obtain ⟨scope, attributes, t, ht, name, -, hrun⟩ := hrun
  cases hrun
  have hevents : t.events = a.events := events_takeTag ht
  have helement : elementEvents name scope attributes = TreeEvent.opening name
      (scope.map fun b => (b.boundPrefix.getD "", b.uri)) attributes := by
    simp [elementEvents, TreeEvent.opening]
  exact hevents ▸ helement ▸ .element name _ attributes h

theorem layered_addStartTag {tag : StartTag} (h : Layered a.events)
    (hrun : a.addStartTag s left tag = some a') : Layered a'.events := by
  unfold addStartTag at hrun
  by_cases hreserved : (tag.name.namePrefix == "xmlns") = true
  · rw [if_pos hreserved] at hrun
    cases hrun
  · rw [if_neg hreserved] at hrun
    simp only [Option.bind_eq_bind, Option.bind_eq_some_iff] at hrun
    obtain ⟨t, ht, hrun⟩ := hrun
    have hlayered : Layered t.events := by
      refine foldlM_keeps (P := fun a : Assembly => Layered a.events) ?_ (layered_endText h) ht
      rintro a ⟨name, value⟩ a' ha hstep
      rw [events_addAttribute hstep]
      exact ha
    split at hrun
    · cases hrun
      exact hlayered
    · simp only [Option.bind_eq_some_iff, Prod.exists] at hrun
      obtain ⟨scope, u, hu, hrun⟩ := hrun
      cases hrun
      exact layered_addEvent rfl (layered_openElement hlayered hu)
    · simp only [Option.bind_eq_some_iff, Prod.exists] at hrun
      obtain ⟨scope, u, hu, hrun⟩ := hrun
      have hopened : Layered u.events := layered_openElement hlayered hu
      cases hrun
      exact hopened

theorem layered_addEndTag {name : WrittenName} (h : Layered a.events)
    (hrun : a.addEndTag name = some a') : Layered a'.events := by
  unfold addEndTag at hrun
  simp only [Option.bind_eq_bind, Option.bind_eq_some_iff, Prod.exists] at hrun
  obtain ⟨scope, attributes, t, ht, hrun⟩ := hrun
  have hlayered : Layered t.events := (events_takeTag ht) ▸ layered_endText h
  split at hrun
  · split at hrun
    · cases hrun
      exact layered_addEvent rfl hlayered
    · cases hrun
  · cases hrun

/-! ## Content -/

theorem layered_add {expand : String → Assembly → Option Assembly}
    (hexpand : ∀ name a a', Layered a.events → expand name a = some a' → Layered a'.events)
    {item : Markup} (h : Layered a.events) (hrun : a.add s expand left item = some a') :
    Layered a'.events := by
  cases item with
  | startTag tag => exact layered_addStartTag h hrun
  | endTag name => exact layered_addEndTag h hrun
  | text cs =>
      simp only [add, Option.bind_eq_bind, Option.bind_eq_some_iff] at hrun
      obtain ⟨pieces, -, hrun⟩ := hrun
      exact layered_addPieces hexpand h hrun
  | verbatim cs =>
      cases hrun
      exact h
  | comment text | instruction target data =>
      cases hrun
      exact layered_addEvent rfl (layered_endText h)

/-- The induction is on the levels of entities that may still be entered. -/
theorem layered_addContent {items : List Markup} (h : Layered a.events)
    (hrun : addContent s left items a = some a') : Layered a'.events := by
  induction left generalizing items a a' with
  | zero =>
      refine foldlM_keeps (P := fun a : Assembly => Layered a.events) ?_ h hrun
      exact fun a item a' ha hstep => layered_add (fun _ _ _ _ hnone => by cases hnone) ha hstep
  | succ left ih =>
      refine foldlM_keeps (P := fun a : Assembly => Layered a.events) ?_ h hrun
      refine fun a item a' ha hstep => layered_add (fun name b b' hb hentity => ?_) ha hstep
      simp only [Option.bind_eq_bind, Option.bind_eq_some_iff] at hentity
      obtain ⟨references, -, text, -, inside, -, hentity⟩ := hentity
      split at hentity
      · cases hentity
      · simp only [Option.bind_eq_some_iff] at hentity
        obtain ⟨t, ht, hentity⟩ := hentity
        have hentered : Layered t.events := ih (a := { b with references }) hb ht
        cases hentity
        exact hentered

theorem layered_events {events : List TreeEvent} (hrun : events? s = some events) :
    Layered events.reverse := by
  unfold events? at hrun
  simp only [Option.bind_eq_bind, Option.bind_eq_some_iff] at hrun
  obtain ⟨t, ht, hrun⟩ := hrun
  split at hrun
  · cases hrun
    rw [List.reverse_reverse]
    exact layered_endText (layered_addContent .nil ht)
  · cases hrun

end Assembly

end Xml

theorem Document.delivered_ofXml? {id : Nat} {text : String} {d : Document}
    (h : Document.ofXml? id text = some d) : d.Delivered := by
  unfold ofXml? at h
  simp only [Option.bind_eq_bind, Option.bind_eq_some_iff] at h
  obtain ⟨s, -, events, hevents, h⟩ := h
  cases h
  exact delivered_ofEvents id (Xml.Assembly.layered_events hevents)

end XPath
