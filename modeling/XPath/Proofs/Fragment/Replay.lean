import Mathlib.Data.List.Chain
import XPath.Fragment

/-!
# Replaying fragments

A recorder merges the characters of neighbouring calls and skips empty ones, so in its log no text is
empty and no two texts meet (`Fragment.Merged`), and all its character data is the texts of the log
in order (`FragmentRecorder.Faithful`). Every call keeps that. A log in this form is recorded as it
stands, event by event, so that a fragment is the copy of itself (`Fragment.copy_ofCalls`). Apart from
where its texts are cut, the log is the list of the calls, each late attribute with its element
(`Fragment.calledPieces`).
-/

namespace XPath

def FragmentEvent.text? : FragmentEvent → Option String
  | .characters text => some text
  | _ => none

def FragmentCall.text? : FragmentCall → Option String
  | .event e => e.text?
  | .lateAttribute _ => none

def FragmentEvent.pieces : FragmentEvent → List FragmentEvent
  | .characters text => text.toList.map fun c => .characters (.singleton c)
  | e => [e]

namespace Fragment

/-- No text is empty, and of two neighbours at most one is a text. -/
structure Merged (events : List FragmentEvent) : Prop where
  nonempty : ∀ e ∈ events, e.text? ≠ some ""
  apart : events.IsChain fun a b => a.text? = none ∨ b.text? = none

def textOf (events : List FragmentEvent) : String := String.join (events.filterMap (·.text?))

def lateAttributes : List FragmentCall → List FragmentAttribute
  | [] | .event (.startElement ..) :: _ => []
  | .event _ :: calls => lateAttributes calls
  | .lateAttribute a :: calls => a :: lateAttributes calls

/-- What was called, one character after the other. A late attribute belongs to the element that was
started last. -/
def calledPieces : List FragmentCall → List FragmentEvent
  | [] => []
  | .event (.startElement name display attributes) :: calls =>
    .startElement name display (attributes ++ lateAttributes calls) :: calledPieces calls
  | .event e :: calls => e.pieces ++ calledPieces calls
  | .lateAttribute _ :: calls => calledPieces calls

variable {e : FragmentEvent} {es es' : List FragmentEvent}

theorem merged_nil : Merged [] := ⟨by simp, .nil⟩

theorem merged_cons : Merged (e :: es) ↔
    e.text? ≠ some "" ∧ (∀ b ∈ es.head?, e.text? = none ∨ b.text? = none) ∧ Merged es := by
  constructor
  · rintro ⟨hnonempty, hapart⟩
    rw [List.isChain_cons] at hapart
    exact ⟨hnonempty e List.mem_cons_self, hapart.1,
      ⟨fun b hb => hnonempty b (List.mem_cons_of_mem e hb), hapart.2⟩⟩
  · rintro ⟨hhead, hnext, hrest⟩
    refine ⟨fun b hb => ?_, List.isChain_cons.mpr ⟨hnext, hrest.apart⟩⟩
    rcases List.mem_cons.mp hb with rfl | hb
    · exact hhead
    · exact hrest.nonempty b hb

theorem merged_reverse : Merged es.reverse ↔ Merged es := by
  have hswap : (fun a b : FragmentEvent => b.text? = none ∨ a.text? = none) =
      fun a b => a.text? = none ∨ b.text? = none := by
    funext a b
    exact propext or_comm
  constructor
  · rintro ⟨hnonempty, hapart⟩
    rw [List.isChain_reverse, hswap] at hapart
    exact ⟨fun e he => hnonempty e (List.mem_reverse.mpr he), hapart⟩
  · rintro ⟨hnonempty, hapart⟩
    refine ⟨fun e he => hnonempty e (List.mem_reverse.mp he), ?_⟩
    rwa [List.isChain_reverse, hswap]

theorem Merged.of_append (h : Merged (es ++ es')) : Merged es' :=
  ⟨fun e he => h.nonempty e (List.mem_append_right es he), (List.isChain_append.mp h.apart).2.1⟩

theorem Merged.of_texts (h : Merged es) (htexts : es'.map (·.text?) = es.map (·.text?)) :
    Merged es' := by
  constructor
  · intro e he hempty
    have hmem : some "" ∈ es.map (·.text?) := by
      rw [← htexts]
      exact List.mem_map.mpr ⟨e, he, hempty⟩
    obtain ⟨b, hb, hb'⟩ := List.mem_map.mp hmem
    exact h.nonempty b hb hb'
  · have hchain := h.apart
    rw [← List.isChain_map (R := fun a b : Option String => a = none ∨ b = none)
      FragmentEvent.text?] at hchain ⊢
    rwa [htexts]

theorem textOf_append (es es' : List FragmentEvent) :
    textOf (es ++ es') = textOf es ++ textOf es' := by
  rw [textOf, List.filterMap_append, String.join_append]
  rfl

theorem textOf_cons (e : FragmentEvent) (es : List FragmentEvent) :
    textOf (e :: es) = textOf [e] ++ textOf es := textOf_append [e] es

theorem textOf_characters (text : String) : textOf [.characters text] = text := by
  simp [textOf, FragmentEvent.text?]

theorem textOf_of_none (h : e.text? = none) : textOf [e] = "" := by
  simp [textOf, h]

theorem textOf_of_texts (htexts : es'.map (·.text?) = es.map (·.text?)) :
    textOf es' = textOf es := by
  have hids (es : List FragmentEvent) : es.filterMap (·.text?) =
      (es.map (·.text?)).filterMap id := by
    rw [List.filterMap_map]
    rfl
  rw [textOf, textOf, hids, hids, htexts]

end Fragment

namespace FragmentRecorder

open Fragment

variable {r : FragmentRecorder}

/-- The log is merged, and the character data is that of the log. -/
structure Faithful (r : FragmentRecorder) : Prop where
  merged : Merged r.latest
  text : r.text = textOf r.latest.reverse

theorem faithful_start : start.Faithful := ⟨merged_nil, rfl⟩

/-! ## What one call does -/

theorem addCharacters_nil (r : FragmentRecorder) : r.addCharacters "" = r := rfl

theorem addCharacters_merging {text previous : String} {earlier : List FragmentEvent}
    (htext : text ≠ "") (hr : r.latest = .characters previous :: earlier) :
    r.addCharacters text = ⟨.characters (previous ++ text) :: earlier, r.text ++ text⟩ := by
  rw [addCharacters, if_neg (by simpa using htext), hr]

theorem addCharacters_fresh {text : String} (htext : text ≠ "")
    (hr : ∀ b ∈ r.latest.head?, b.text? = none) :
    r.addCharacters text = ⟨.characters text :: r.latest, r.text ++ text⟩ := by
  rw [addCharacters, if_neg (by simpa using htext)]
  split
  · rename_i previous earlier heq
    have := hr (.characters previous) (by simp [heq])
    cases this
  · rfl

theorem record_of_none {e : FragmentEvent} (h : e.text? = none) :
    r.record (.event e) = ⟨e :: r.latest, r.text⟩ := by
  cases e with
  | characters text => cases h
  | startElement | endElement | namespaceNode | comment | processingInstruction | escaping => rfl

theorem map_text?_addAttribute (a : FragmentAttribute) (es : List FragmentEvent) :
    (addAttribute a es).map (·.text?) = es.map (·.text?) := by
  induction es with
  | nil => rfl
  | cons e es ih =>
      cases e with
      | startElement => rfl
      | endElement | namespaceNode | characters | comment | processingInstruction | escaping =>
          simp only [addAttribute, List.map_cons, ih]

theorem Faithful.addCharacters (h : r.Faithful) (text : String) :
    (r.addCharacters text).Faithful ∧ (r.addCharacters text).text = r.text ++ text := by
  by_cases htext : text = ""
  · subst htext
    rw [addCharacters_nil]
    exact ⟨h, by simp⟩
  -- the call merges exactly if the latest event is a text
  by_cases hfresh : ∀ b ∈ r.latest.head?, b.text? = none
  · rw [addCharacters_fresh htext hfresh]
    refine ⟨⟨merged_cons.mpr ⟨?_, fun b hb => Or.inr (hfresh b hb), h.merged⟩, ?_⟩, rfl⟩
    · simpa [FragmentEvent.text?] using htext
    · rw [List.reverse_cons, textOf_append, textOf_characters, ← h.text]
  · obtain ⟨previous, earlier, hr⟩ : ∃ previous earlier,
        r.latest = .characters previous :: earlier := by
      cases hlatest : r.latest with
      | nil => simp [hlatest] at hfresh
      | cons e earlier =>
          cases e with
          | characters previous => exact ⟨previous, earlier, rfl⟩
          | startElement | endElement | namespaceNode | comment | processingInstruction | escaping =>
              simp [hlatest, FragmentEvent.text?] at hfresh
    obtain ⟨hmerged, hcontent⟩ := h
    rw [hr, merged_cons] at hmerged
    rw [hr, List.reverse_cons, textOf_append, textOf_characters] at hcontent
    rw [addCharacters_merging htext hr]
    refine ⟨⟨merged_cons.mpr ⟨?_, ?_, hmerged.2.2⟩, ?_⟩, rfl⟩
    · simp [FragmentEvent.text?, String.append_eq_empty_iff, htext]
    · intro b hb
      exact (hmerged.2.1 b hb).imp (fun h => by cases h) id
    · rw [List.reverse_cons, textOf_append, textOf_characters, hcontent, String.append_assoc]

/-- Every call keeps the log faithful, and adds its own text to the character data. -/
theorem Faithful.record (h : r.Faithful) (call : FragmentCall) :
    (r.record call).Faithful ∧ (r.record call).text = r.text ++ call.text?.getD "" := by
  cases call with
  | event e =>
      cases htext : e.text? with
      | some text =>
          obtain rfl : e = .characters text := by
            cases e <;> simp_all [FragmentEvent.text?]
          exact h.addCharacters text
      | none =>
          rw [record_of_none htext]
          refine ⟨⟨merged_cons.mpr ⟨by simp [htext], fun _ _ => Or.inl htext, h.merged⟩, ?_⟩, ?_⟩
          · rw [List.reverse_cons, textOf_append, textOf_of_none htext, h.text]
            simp
          · simp [FragmentCall.text?, htext]
  | lateAttribute a =>
      have htexts := map_text?_addAttribute a r.latest
      refine ⟨⟨h.merged.of_texts htexts, ?_⟩, by simp [FragmentRecorder.record, FragmentCall.text?]⟩
      have hreverse : (addAttribute a r.latest).reverse.map (·.text?) =
          r.latest.reverse.map (·.text?) := by
        rw [List.map_reverse, List.map_reverse, htexts]
      exact h.text.trans (textOf_of_texts hreverse).symm

theorem Faithful.foldl (h : r.Faithful) (calls : List FragmentCall) :
    (calls.foldl FragmentRecorder.record r).Faithful ∧
      (calls.foldl FragmentRecorder.record r).text =
        r.text ++ String.join (calls.filterMap (·.text?)) := by
  induction calls generalizing r with
  | nil => exact ⟨h, by simp⟩
  | cons call calls ih =>
      obtain ⟨hnext, htext⟩ := h.record call
      obtain ⟨hlast, hall⟩ := ih hnext
      refine ⟨hlast, ?_⟩
      rw [List.foldl_cons, hall, htext, List.filterMap_cons]
      cases call.text? with
      | none => simp
      | some text => simp [String.append_assoc]

/-! ## The pieces of the log -/

def addAttributes (as : List FragmentAttribute) (es : List FragmentEvent) : List FragmentEvent :=
  as.foldl (fun es a => addAttribute a es) es

theorem addAttributes_start (as bs : List FragmentAttribute) (name : ExpandedName)
    (display : String) (es : List FragmentEvent) :
    addAttributes as (.startElement name display bs :: es) =
      .startElement name display (bs ++ as) :: es := by
  induction as generalizing bs with
  | nil =>
      rw [List.append_nil]
      rfl
  | cons a as ih =>
      refine (ih (bs ++ [a])).trans ?_
      rw [List.append_assoc, List.singleton_append]

theorem addAttributes_cons {as : List FragmentAttribute} {e : FragmentEvent}
    {es : List FragmentEvent} (he : ∀ a es, addAttribute a (e :: es) = e :: addAttribute a es) :
    addAttributes as (e :: es) = e :: addAttributes as es := by
  induction as generalizing es with
  | nil => rfl
  | cons a as ih =>
      rw [addAttributes, List.foldl_cons, he]
      exact ih

def piecesOf (latest : List FragmentEvent) : List FragmentEvent :=
  latest.reverse.flatMap (·.pieces)

theorem piecesOf_cons (e : FragmentEvent) (es : List FragmentEvent) :
    piecesOf (e :: es) = piecesOf es ++ e.pieces := by
  simp [piecesOf, List.flatMap_append]

/-- Characters come behind what is there, also if they are joined to a text. -/
theorem piecesOf_addCharacters (as : List FragmentAttribute) (r : FragmentRecorder)
    (text : String) : piecesOf (addAttributes as (r.addCharacters text).latest) =
      piecesOf (addAttributes as r.latest) ++ (FragmentEvent.characters text).pieces := by
  by_cases htext : text = ""
  · subst htext
    rw [addCharacters_nil]
    exact (List.append_nil _).symm
  · rw [addCharacters, if_neg (by simpa using htext)]
    split
    · rename_i previous earlier hlatest
      rw [hlatest, addAttributes_cons fun _ _ => rfl, addAttributes_cons fun _ _ => rfl,
        piecesOf_cons, piecesOf_cons, List.append_assoc]
      simp [FragmentEvent.pieces]
    · rw [addAttributes_cons fun _ _ => rfl, piecesOf_cons]

/-- The induction is on the calls: the late ones among them patch what is recorded already. -/
theorem piecesOf_foldl (calls : List FragmentCall) (r : FragmentRecorder) :
    piecesOf (calls.foldl FragmentRecorder.record r).latest =
      piecesOf (addAttributes (lateAttributes calls) r.latest) ++ calledPieces calls := by
  induction calls generalizing r with
  | nil => exact (List.append_nil _).symm
  | cons call calls ih =>
      rw [List.foldl_cons, ih]
      cases call with
      | lateAttribute a => rfl
      | event e =>
          cases e with
          | startElement name display attributes =>
              simp only [FragmentRecorder.record, calledPieces, lateAttributes, addAttributes_start,
                piecesOf_cons, FragmentEvent.pieces, List.append_assoc]
              rfl
          | characters text =>
              simp only [FragmentRecorder.record, calledPieces, lateAttributes,
                piecesOf_addCharacters, List.append_assoc]
          | endElement | namespaceNode | comment | processingInstruction | escaping =>
              simp only [FragmentRecorder.record, calledPieces, lateAttributes]
              rw [addAttributes_cons fun _ _ => rfl, piecesOf_cons, List.append_assoc]

/-! ## Recording a log again -/

/-- An event that continues a merged log is recorded as it stands. -/
theorem record_of_merged {e : FragmentEvent} (h : Merged (e :: r.latest)) :
    r.record (.event e) = ⟨e :: r.latest, r.text ++ textOf [e]⟩ := by
  obtain ⟨hnonempty, hnext, -⟩ := merged_cons.mp h
  cases htext : e.text? with
  | none =>
      rw [record_of_none htext, textOf_of_none htext]
      simp
  | some text =>
      obtain rfl : e = .characters text := by
        cases e <;> simp_all [FragmentEvent.text?]
      rw [textOf_characters]
      refine addCharacters_fresh (fun hempty => hnonempty ?_) fun b hb => ?_
      · rw [htext, hempty]
      · exact (hnext b hb).resolve_left (by simp [htext])

/-- The induction is on the events that are left; the log and they are merged as a whole. -/
theorem replay_of_merged {es : List FragmentEvent} (h : Merged (r.latest.reverse ++ es)) :
    replay handler r es = (⟨es.reverse ++ r.latest, r.text ++ textOf es⟩, none) := by
  induction es generalizing r with
  | nil => simp [replay, textOf]
  | cons e es ih =>
      have hfront : Merged (e :: r.latest) := by
        have hsplit : r.latest.reverse ++ e :: es = (e :: r.latest).reverse ++ es := by simp
        rw [hsplit, ← merged_reverse, List.reverse_append] at h
        simpa using h.of_append
      have hrecord : handler.handle r e = .ok ⟨e :: r.latest, r.text ++ textOf [e]⟩ :=
        congrArg Except.ok (record_of_merged hfront)
      simp only [replay, hrecord]
      rw [ih (by simpa using h), textOf_cons e es]
      simp [String.append_assoc]

end FragmentRecorder

namespace Fragment

open FragmentRecorder

/-- Whatever is called on a recorder, in whatever order: the fragment replays into a fresh recorder to
the end and is recorded again as it is, no text in it is empty and no two texts meet, and its
character data is that of its events, which is what the calls added. Piece by piece its events are
what was called. -/
theorem copy_ofCalls (calls : List FragmentCall) :
    (replay handler .start (ofCalls calls).events).2 = none ∧
      (ofCalls calls).copy = ofCalls calls ∧
      Merged (ofCalls calls).events ∧
      (ofCalls calls).text = textOf (ofCalls calls).events ∧
      (ofCalls calls).text = String.join (calls.filterMap (·.text?)) ∧
      (ofCalls calls).events.flatMap (·.pieces) = calledPieces calls := by
  obtain ⟨⟨hmerged, htext⟩, hcalls⟩ := faithful_start.foldl calls
  have hevents : Merged (ofCalls calls).events := merged_reverse.mpr hmerged
  have hreplay := @replay_of_merged .start (ofCalls calls).events hevents
  have hcontent : (ofCalls calls).text = textOf (ofCalls calls).events := htext
  refine ⟨?_, ?_, hevents, hcontent, ?_, ?_⟩
  · rw [hreplay]
  · rw [copy, hreplay]
    simp [FragmentRecorder.finish, FragmentRecorder.start, ← hcontent]
  · have hstart : FragmentRecorder.start.text = "" := rfl
    rw [hstart, String.empty_append] at hcalls
    exact hcalls
  · have hlate : addAttributes (lateAttributes calls) start.latest = [] := by
      induction lateAttributes calls with
      | nil => rfl
      | cons a as ih => exact ih
    rw [← List.nil_append (calledPieces calls)]
    exact (piecesOf_foldl calls .start).trans (by rw [hlate]; rfl)

/-- Two calls with text become one event, a late attribute goes to the element before them. -/
example : (ofCalls [.event (.startElement ⟨"", "e"⟩ "e" []), .event (.characters "a"),
    .event (.characters ""), .lateAttribute ⟨⟨"", "n"⟩, "n", "1"⟩,
    .event (.characters "b")]).events =
      [.startElement ⟨"", "e"⟩ "e" [⟨⟨"", "n"⟩, "n", "1"⟩], .characters "ab"] := by
  decide

end Fragment

end XPath
