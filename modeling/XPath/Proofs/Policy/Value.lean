import XPath.Proofs.Policy.Basic

/-!
# Values under a policy

What is asked of an admitted value is answered, or it fails with an admitted error: its nodes, its
conversions (`Policy.computes_toText`) and its comparisons (`Policy.computes_compare`).
-/

namespace XPath

namespace Policy

variable {P : Policy} {h : Host} {s t : NodeSet} {i : Intent} {x : Extent} {en : Enumeration}
  {v w : Value} {c : Context} (hP : P.Closed h)

/-! ## Node-sets -/

theorem admits_intent {display : String} {listing : Except Error Enumeration}
    {identity : Option Nat} (hl : Ends P.error P.AdmitsListing listing) :
    P.AdmitsSet (.intent ⟨display, listing, false, identity⟩) := hl

theorem AdmitsSet.of_extent (hs : P.AdmitsSet (.extent x)) : P.AdmitsListing x.enumerate := hs

theorem AdmitsSet.of_intent (hs : P.AdmitsSet (.intent i)) : Ends P.error P.AdmitsListing i.listing :=
  hs

include hP

theorem admits_empty : P.AdmitsSet .empty :=
  AdmitsListing.ofOption hP (n := none) (by simp)

theorem admits_singleton {n : Node} (hn : P.node n) : P.AdmitsSet (.singleton n) :=
  AdmitsListing.ofOption hP (by simpa using hn)

theorem admits_toNodeSet (hx : P.AdmitsListing x.enumerate) : P.AdmitsSet x.toNodeSet := by
  have hns := hx.nodes_of_extent
  unfold Extent.toNodeSet
  split
  · exact admits_empty hP
  · rename_i n hn
    exact admits_singleton hP (hns n (by simp [hn]))
  · exact hx

theorem admits_ofNodes {ns : List Node} (hns : P.AdmitsNodes ns) :
    P.AdmitsSet ((Extent.ofNodes ns false).sort h.forest).toNodeSet :=
  admits_toNodeSet hP ((AdmitsListing.stored hns (hP.flags_ofNodes hns)).sort hP)

namespace AdmitsSet

theorem fix (hi : P.AdmitsSet (.intent i)) :
    Ends P.error (fun x => P.AdmitsListing x.enumerate) (i.fix h.forest) :=
  hi.of_intent.bind fun _ _ hen => (hen.ofEnumeration hP).bind fun _ _ hx => Ends.pure (hx.sort hP)

theorem enumerate (hs : P.AdmitsSet s) : Ends P.error P.AdmitsListing (s.enumerate h.forest) := by
  match s, hs with
  | .empty, hs => exact hs
  | .singleton n, hs => exact hs
  | .extent x, hs => exact hs.of_extent.sort hP
  | .intent i, hs =>
      rw [NodeSet.enumerate]
      unfold Intent.enumerate
      split
      · exact (hs.fix hP).bind fun _ _ hx => Ends.pure hx
      · refine hs.of_intent.bind fun raw _ hraw => ?_
        split
        · exact hraw
        · exact (hs.fix hP).bind fun _ _ hx => Ends.pure hx

theorem store (hs : P.AdmitsSet s) : Ends P.error P.AdmitsListing (s.store h.forest) := by
  match s, hs with
  | .empty, hs | .singleton n, hs | .extent x, hs => exact hs.enumerate hP
  | .intent i, hs => exact (hs.fix hP).map fun _ hx => hx

theorem sorted (hs : P.AdmitsSet s) : Ends P.error P.AdmitsSet (s.sorted h.forest) := by
  match s, hs with
  | .empty, hs | .singleton n, hs => exact hs
  | .extent x, hs => exact admits_toNodeSet hP (hs.of_extent.sort hP)
  | .intent i, hs =>
      have horder : P.Computes i.isInOrder := by
        unfold Intent.isInOrder
        split
        · exact Ends.pure trivial
        · exact hs.of_intent.map fun _ _ => trivial
      refine horder.bind fun inOrder _ _ => ?_
      split
      · exact Ends.pure hs
      · exact (hs.fix hP).bind fun _ _ hx => Ends.pure (admits_toNodeSet hP hx)

theorem toList (hs : P.AdmitsSet s) : Ends P.error P.AdmitsNodes (s.toList h.forest) :=
  (hs.enumerate hP).bind fun _ _ hen => hen.collect

theorem count (hs : P.AdmitsSet s) : P.Computes (s.count h.forest) := by
  match s, hs with
  | .empty, _ | .singleton _, _ | .extent _, _ => exact Ends.pure trivial
  | .intent i, hs =>
      rw [NodeSet.count]
      unfold Intent.count
      have hfix : P.Computes (do return (← i.fix h.forest).nodes.length) :=
        (hs.fix hP).bind fun _ _ _ => Ends.pure trivial
      split
      · exact hfix
      · refine hs.of_intent.bind fun raw _ hraw => ?_
        split
        · exact hraw.collect.bind fun _ _ _ => Ends.pure trivial
        · exact hfix

theorem isEmpty (hs : P.AdmitsSet s) : P.Computes (s.isEmpty h.forest) := by
  match s, hs with
  | .empty, _ | .singleton _, _ | .extent _, _ => exact Ends.pure trivial
  | .intent i, hs =>
      rw [NodeSet.isEmpty]
      unfold Intent.isEmpty
      split
      · exact (hs.fix hP).bind fun _ _ _ => Ends.pure trivial
      · exact hs.of_intent.bind fun _ _ hraw => hraw.firstItem.bind fun _ _ _ => Ends.pure trivial

theorem first? (hs : P.AdmitsSet s) :
    Ends P.error (fun first => ∀ k ∈ first, P.node k) (s.first? h.forest) := by
  have hextent {x : Extent} (hx : P.AdmitsListing x.enumerate) :
      ∀ k ∈ x.first? h.forest, P.node k := by
    intro k hk
    refine hx.nodes_of_extent k ?_
    unfold Extent.first? at hk
    split at hk
    · exact List.mem_of_mem_head? hk
    · split at hk
      · exact List.mem_of_getLast? hk
      · exact Forest.mem_of_earliest? hk
  match s, hs with
  | .empty, _ => exact Ends.pure (P := fun first => ∀ k ∈ first, P.node k) (by simp)
  | .singleton n, hs =>
      refine Ends.pure (P := fun first => ∀ k ∈ first, P.node k) fun k hk => ?_
      cases hk
      exact AdmitsListing.nodes (P := P) hs n (by simp [Enumeration.ofOption])
  | .extent x, hs => exact hextent hs.of_extent
  | .intent i, hs =>
      rw [NodeSet.first?]
      unfold Intent.first?
      have hfix : Ends P.error (fun first => ∀ k ∈ first, P.node k)
          (do return (← i.fix h.forest).first? h.forest) :=
        (hs.fix hP).bind fun _ _ hx => Ends.pure (hextent hx)
      split
      · exact hfix
      · refine hs.of_intent.bind fun raw _ hraw => ?_
        split
        · exact hraw.firstItem
        · exact hfix

theorem toText (hs : P.AdmitsSet s) : P.Computes (s.toText h.forest) :=
  (hs.first? hP).bind fun _ _ _ => Ends.pure trivial

theorem combine (op : SetOperator) (hs : P.AdmitsSet s) (ht : P.AdmitsSet t) :
    P.AdmitsSet (.combine h.forest op s t) :=
  admits_intent ((hs.enumerate hP).bind fun _ _ hl => (ht.enumerate hP).bind fun _ _ hr =>
    hl.merge hP hr)

end AdmitsSet

/-! ## Conversions -/

theorem computes_toBool (hv : P.AdmitsValue v) : P.Computes (v.toBool h.forest) := by
  match v, hv with
  | .nodeSet s, hv => exact (AdmitsSet.isEmpty hP hv).map fun _ _ => trivial
  | .boolean _, _ | .number _, _ | .string _, _ | .fragment _, _ | .object _, _ =>
      exact Ends.pure trivial

theorem computes_toNumber (hv : P.AdmitsValue v) : P.Computes (v.toNumber h.forest) := by
  match v, hv with
  | .nodeSet s, hv => exact (AdmitsSet.toText hP hv).map fun _ _ => trivial
  | .boolean _, _ | .number _, _ | .string _, _ | .fragment _, _ | .object .null, _
  | .object (.object ..), _ => exact Ends.pure trivial

theorem computes_toText (hv : P.AdmitsValue v) : P.Computes (v.toText h.forest) := by
  match v, hv with
  | .nodeSet s, hv => exact AdmitsSet.toText hP hv
  | .boolean _, _ | .number _, _ | .string _, _ | .fragment _, _ | .object _, _ =>
      exact Ends.pure trivial

theorem admits_toNodeSet_value (hv : P.AdmitsValue v) (hc : P.AdmitsContext c) :
    Ends P.error P.AdmitsSet (v.toNodeSet c) := by
  match v, hv with
  | .nodeSet s, hv => exact hv
  | .fragment f, hv =>
      rw [Value.toNodeSet]
      have hk : Ends P.error P.AdmitsController c.controller := by
        unfold Context.controller
        split
        · rename_i k hk
          exact hc.controller k hk
        · exact hP.error _ (by simp)
      refine hk.bind fun k _ hk => (hk.materialize f hv).bind fun n _ hn => ?_
      exact Ends.pure (admits_singleton hP hn)
  | .boolean _, _ | .number _, _ | .string _, _ | .object _, _ =>
      exact hP.error _ (by simp)

/-! ## Comparisons -/

theorem computes_anyItem (hs : P.AdmitsSet s) (p : Node → Bool) :
    P.Computes (do anyItem p (← s.enumerate h.forest).items) :=
  (hs.enumerate hP).bind fun _ _ hen => hen.anyItem p

theorem computes_nodeSetEquals (hs : P.AdmitsSet s) (hw : P.AdmitsValue w) (equal : Bool) :
    P.Computes (Value.nodeSetEquals h.forest s w equal) := by
  match w, hw with
  | .nodeSet t, hw =>
      have ht : P.AdmitsSet t := hw
      cases equal with
      | true => exact (hs.toList hP).bind fun _ _ _ => computes_anyItem hP ht _
      | false => exact (ht.toList hP).bind fun _ _ _ => computes_anyItem hP hs _
  | .number x, _ => exact computes_anyItem hP hs _
  | .boolean b, _ => exact (hs.isEmpty hP).map fun _ _ => trivial
  | .string _, hw | .fragment _, hw | .object _, hw =>
      exact (computes_toText hP hw).bind fun _ _ _ => computes_anyItem hP hs _

theorem computes_numericRange (hs : P.AdmitsSet s) :
    P.Computes (Value.numericRange h.forest s) := by
  refine (hs.toList hP).bind fun ns _ _ => ?_
  split <;> exact Ends.pure trivial

theorem computes_compareNodeSet (hs : P.AdmitsSet s) (op : BinaryOperator)
    (hw : P.AdmitsValue w) : P.Computes (Value.compareNodeSet h.forest s op w) := by
  match w, hw with
  | .nodeSet t, hw =>
      refine (computes_numericRange hP hs).bind fun range _ _ => ?_
      split
      · exact Ends.pure trivial
      · refine (computes_numericRange hP (s := t) hw).bind fun other _ _ => ?_
        split <;> exact Ends.pure trivial
  | .boolean b, _ => exact (hs.isEmpty hP).map fun _ _ => trivial
  | .number _, hw | .string _, hw | .fragment _, hw | .object _, hw =>
      exact (computes_toNumber hP hw).bind fun _ _ _ => computes_anyItem hP hs _

theorem computes_scalarEquals (hv : P.AdmitsValue v) (hw : P.AdmitsValue w) :
    P.Computes (Value.scalarEquals h.forest v w) := by
  unfold Value.scalarEquals
  split
  · exact (computes_toBool hP hv).bind fun _ _ _ => (computes_toBool hP hw).bind fun _ _ _ =>
      Ends.pure trivial
  · exact (computes_toBool hP hv).bind fun _ _ _ => (computes_toBool hP hw).bind fun _ _ _ =>
      Ends.pure trivial
  · exact (computes_toNumber hP hv).bind fun _ _ _ => (computes_toNumber hP hw).bind fun _ _ _ =>
      Ends.pure trivial
  · exact (computes_toNumber hP hv).bind fun _ _ _ => (computes_toNumber hP hw).bind fun _ _ _ =>
      Ends.pure trivial
  · exact (computes_toText hP hv).bind fun _ _ _ => (computes_toText hP hw).bind fun _ _ _ =>
      Ends.pure trivial

theorem computes_fragmentEquals (f : Fragment) (hw : P.AdmitsValue w) (equal : Bool) :
    P.Computes (Value.fragmentEquals h.forest f w equal) := by
  unfold Value.fragmentEquals
  split
  · exact Ends.pure trivial
  · exact Ends.pure trivial
  · exact (computes_toText hP hw).map fun _ _ => trivial

theorem computes_equals (hv : P.AdmitsValue v) (hw : P.AdmitsValue w) (equal : Bool) :
    P.Computes (Value.equals h.forest v w equal) := by
  unfold Value.equals
  split
  · exact computes_nodeSetEquals hP hv hw equal
  · exact computes_nodeSetEquals hP hw hv equal
  · exact computes_fragmentEquals hP _ hw equal
  · exact computes_fragmentEquals hP _ hv equal
  · exact (computes_scalarEquals hP hv hw).map fun _ _ => trivial

theorem computes_compare (op : BinaryOperator) (hv : P.AdmitsValue v) (hw : P.AdmitsValue w) :
    P.Computes (Value.compare h.forest op v w) := by
  unfold Value.compare
  split
  · exact computes_equals hP hv hw true
  · exact computes_equals hP hv hw false
  · split
    · exact computes_compareNodeSet hP hv _ hw
    · exact computes_compareNodeSet hP hw _ hv
    · exact (computes_toNumber hP hv).bind fun _ _ _ => (computes_toNumber hP hw).bind fun _ _ _ =>
        Ends.pure trivial

end Policy

end XPath
