import XPath.Proofs.Xml.Delivered
import XPath.Xml.Place

/-!
# Places stand for nodes

What stands at the places of a tree node are the node, its declarations and its attributes
(`Place.map_resolve?_placesAt`), so a walk over places comes to the nodes of the walk over the tree
(`Place.map_resolve?_walk`). A search with a stack finds what comes first in the subtrees on it
(`Place.search_map_ofNode`), and a climb ends at the root of the document (`Denotes.climb_eq`).
-/

namespace XPath.Xml.Place

open Forest

variable {F : Forest} {m n : Node} {x y : Place}

/-- The places at a node of the tree in the order in which a walk comes to them. -/
def placesAt (F : Forest) (n : Node) : List Place :=
  ofNode n :: ((ofNode n).namespaces F ++ (ofNode n).attributes F)

/-- A node of a tree with a slot that something stands in. -/
structure Denotes (F : Forest) (x : Place) : Prop where
  has : F.Has x.node
  isTreeNode : F.isTreeNode x.node = true
  resolves : (x.resolve? F).isSome = true

theorem listed_ofNode {slot : Nat → Slot} {list : Node → List Node}
    (h : F.type n ≠ .element → list n = []) : (ofNode n).listed F slot list =
      (List.range (list n).length).map fun i => ⟨n, slot i⟩ := by
  by_cases htype : F.type n = .element
  · simp [listed, ofNode, htype]
  · simp [listed, ofNode, htype, h htype]

theorem map_getElem?_range (ns : List Node) :
    ((List.range ns.length).map fun i => ns[i]?) = ns.map some := by
  refine List.ext_getElem (by simp) fun i hi _ => ?_
  have hlt : i < ns.length := by simpa using hi
  simp [hlt]

/-- What is first found among places is what is first found among the nodes that they stand for. -/
theorem map_find?_of_resolve {xs : List Place} {ns : List Node}
    (h : xs.map (resolve? F) = ns.map some) (p : Option Node → Bool) (f : Option Node → String) :
    ((xs.find? fun x => p (x.resolve? F)).map fun x => f (x.resolve? F)) =
      (ns.find? fun n => p (some n)).map fun n => f (some n) := by
  have hfound := congrArg (List.find? p) h
  rw [List.find?_map, List.find?_map] at hfound
  have hmapped := congrArg (Option.map f) hfound
  rwa [Option.map_map, Option.map_map] at hmapped

/-! ## Walks -/

theorem walkTo_ofNode (F : Forest) (depth : Nat) (n : Node) :
    (ofNode n).walkTo F depth = (F.subtreeTo depth n).flatMap (placesAt F) := by
  induction depth generalizing n with
  | zero => simp [walkTo, subtreeTo, placesAt]
  | succ depth ih =>
      have hchildren : (ofNode n).children F = (F.children n).map ofNode := rfl
      rw [walkTo, subtreeTo, List.flatMap_cons, List.flatMap_assoc, hchildren, List.flatMap_map]
      exact congrArg (placesAt F n ++ ·) (List.flatMap_congr fun c _ => ih c)

theorem walk_ofNode (F : Forest) (n : Node) :
    (ofNode n).walk F = (F.subtree n).flatMap (placesAt F) := walkTo_ofNode F _ n

theorem walk_of_slot (h : x.slot ≠ .node) : x.walk F = [x] := by
  obtain ⟨n, slot⟩ := x
  unfold walk
  cases slot with
  | node => exact absurd rfl h
  | namespaceNode | attributeNode =>
      cases F.size n <;> simp [walkTo, namespaces, attributes, listed, children]

section

variable (P : F.Delivered)

include P

theorem namespaces_ofNode (n : Node) : (ofNode n).namespaces F =
    (List.range (F.namespaces n).length).map fun i => ⟨n, .namespaceNode i⟩ :=
  listed_ofNode fun htype => (P.eq_nil_of_type htype).1

theorem attributes_ofNode (n : Node) : (ofNode n).attributes F =
    (List.range (F.attributes n).length).map fun i => ⟨n, .attributeNode i⟩ :=
  listed_ofNode fun htype => (P.eq_nil_of_type htype).2

theorem map_resolve?_namespaces (n : Node) :
    ((ofNode n).namespaces F).map (resolve? F) = (F.namespaces n).map some := by
  rw [namespaces_ofNode P, List.map_map]
  exact map_getElem?_range (F.namespaces n)

theorem map_resolve?_attributes (n : Node) :
    ((ofNode n).attributes F).map (resolve? F) = (F.attributes n).map some := by
  rw [attributes_ofNode P, List.map_map]
  exact map_getElem?_range (F.attributes n)

theorem map_resolve?_placesAt (n : Node) :
    (placesAt F n).map (resolve? F) = (n :: F.ownNodes n).map some := by
  rw [placesAt, ownNodes, List.map_cons, List.map_append, map_resolve?_namespaces P,
    map_resolve?_attributes P, ← List.map_append]
  rfl

theorem mem_placesAt : x ∈ placesAt F n ↔ x.node = n ∧ (x.resolve? F).isSome = true := by
  rw [placesAt, namespaces_ofNode P, attributes_ofNode P, List.mem_cons, List.mem_append,
    List.mem_map, List.mem_map]
  constructor
  · rintro (rfl | ⟨i, hi, rfl⟩ | ⟨i, hi, rfl⟩)
    · exact ⟨rfl, rfl⟩
    all_goals exact ⟨rfl, by simpa [resolve?] using hi⟩
  · obtain ⟨m, slot⟩ := x
    rintro ⟨rfl, hx⟩
    cases slot with
    | node => exact Or.inl rfl
    | namespaceNode i => exact Or.inr (Or.inl ⟨i, by simpa [resolve?] using hx, rfl⟩)
    | attributeNode i => exact Or.inr (Or.inr ⟨i, by simpa [resolve?] using hx, rfl⟩)

/-- A walk over places comes to the nodes of the walk over the tree. -/
theorem map_resolve?_walk (n : Node) :
    ((ofNode n).walk F).map (resolve? F) = (F.walkBy F.ownNodes n).map some := by
  rw [walk_ofNode, walkBy, List.map_flatMap, List.map_flatMap]
  exact List.flatMap_congr fun t _ => map_resolve?_placesAt P t

theorem walk_eq (x : Place) :
    x.walk F = x :: (x.namespaces F ++ x.attributes F) ++ (x.children F).flatMap (walk F) := by
  obtain ⟨n, slot⟩ := x
  cases slot with
  | namespaceNode | attributeNode => exact walk_of_slot Slot.noConfusion
  | node =>
      have hchildren : (ofNode n).children F = (F.children n).map ofNode := rfl
      change (ofNode n).walk F = placesAt F n ++ ((ofNode n).children F).flatMap (walk F)
      rw [walk_ofNode, P.numbered.linked.subtree_eq, List.flatMap_cons, descendants,
        List.flatMap_assoc, hchildren, List.flatMap_map]
      exact congrArg (placesAt F n ++ ·) (List.flatMap_congr fun c _ => (walk_ofNode F c).symm)

theorem mem_walk_ofNode :
    x ∈ (ofNode n).walk F ↔ x.node ∈ F.subtree n ∧ (x.resolve? F).isSome = true := by
  rw [walk_ofNode, List.mem_flatMap]
  simp only [mem_placesAt P]
  constructor
  · rintro ⟨t, ht, rfl, hx⟩
    exact ⟨ht, hx⟩
  · rintro ⟨ht, hx⟩
    exact ⟨x.node, ht, rfl, hx⟩

/-- The subtree of the first node holds the tree nodes of the document. -/
theorem mem_subtree_first (h : F.Has n) : m ∈ F.subtree ⟨n.document, 0⟩ ↔
    F.Has m ∧ m.document = n.document ∧ F.isTreeNode m = true := by
  have L := P.numbered.linked
  constructor
  · intro hm
    have hbelow := L.below_of_mem_subtree hm
    have hfirst : F.Has ⟨n.document, 0⟩ := Nat.lt_of_le_of_lt (Nat.zero_le _) h
    have hd := L.document_of_below hbelow
    exact ⟨has_of_below hfirst hbelow, hd,
      L.isTreeNode_of_mem_subtree (P.isTreeNode_first n.document) hm⟩
  · rintro ⟨hm, hd, htree⟩
    have hbelow := below_first P.arranged hm
    rw [hd] at hbelow
    exact L.mem_subtree.mpr (hbelow.imp_right fun hanc => ⟨hanc, htree⟩)

/-- The walk from the root of a document comes to all of its places. -/
theorem Denotes.mem_walk_iff (h : Denotes F x) : y ∈ x.documentRoot.walk F ↔
    Denotes F y ∧ y.node.document = x.node.document := by
  rw [documentRoot, mem_walk_ofNode P, mem_subtree_first P h.has]
  constructor
  · rintro ⟨⟨hhas, hd, htree⟩, hresolves⟩
    exact ⟨⟨hhas, htree, hresolves⟩, hd⟩
  · rintro ⟨hy, hd⟩
    exact ⟨⟨hy.has, hd, hy.isTreeNode⟩, hy.resolves⟩

/-! ## Ways up -/

theorem documentRoot_eq (h : F.Has n) : F.documentRoot n = ⟨n.document, 0⟩ := by
  rw [← P.numbered.linked.documentRoot_of_below (below_first P.arranged h)]
  exact documentRoot_of_no_parent (parent?_of_arranged P.arranged n.document)

theorem climb_ofNode {steps : Nat} (h : n.number ≤ steps) :
    climb F steps (ofNode n) = ofNode (F.documentRoot n) := by
  have L := P.numbered.linked
  induction steps generalizing n with
  | zero =>
      have hp : F.parent? n = none := by
        cases hp : F.parent? n with
        | none => rfl
        | some p =>
            have := L.parent_lt n p hp
            omega
      rw [climb, documentRoot_of_no_parent hp]
  | succ steps ih =>
      have hparent : (ofNode n).parent? F = (F.parent? n).map ofNode := rfl
      rw [climb, hparent]
      cases hp : F.parent? n with
      | none => rw [documentRoot_of_no_parent hp]; rfl
      | some p =>
          have hlt := L.parent_lt n p hp
          rw [L.documentRoot_of_parent hp]
          exact ih (by omega)

/-- The way up from parent to parent ends at the root of the document. -/
theorem Denotes.climb_eq (h : Denotes F x) {steps : Nat} (hsteps : x.node.number < steps) :
    climb F steps x = x.documentRoot := by
  obtain ⟨n, slot⟩ := x
  rw [documentRoot, ← documentRoot_eq P h.has]
  cases slot with
  | node => exact climb_ofNode P (Nat.le_of_lt hsteps)
  | namespaceNode | attributeNode =>
      cases steps with
      | zero => exact absurd hsteps (Nat.not_lt_zero _)
      | succ steps => exact climb_ofNode P (Nat.le_of_lt_succ hsteps)

theorem parent?_documentRoot (x : Place) : x.documentRoot.parent? F = none := by
  have hparent : x.documentRoot.parent? F = (F.parent? ⟨x.node.document, 0⟩).map ofNode := rfl
  rw [hparent, parent?_of_arranged P.arranged]
  rfl

/-! ## Searches -/

/-- A search finds what comes first in the subtrees of the places on the stack. -/
theorem search_map_ofNode (accepts : Place → Bool) {steps : Nat} {ns : List Node}
    (h : (ns.flatMap F.subtree).length < steps) : search F accepts steps (ns.map ofNode) =
      ((ns.flatMap F.subtree).find? fun n => accepts (ofNode n)).map ofNode := by
  induction steps generalizing ns with
  | zero => exact absurd h (Nat.not_lt_zero _)
  | succ steps ih =>
      cases ns with
      | nil => rfl
      | cons n ns =>
          have hcons : (n :: ns).flatMap F.subtree = n :: (F.children n ++ ns).flatMap F.subtree := by
            rw [List.flatMap_cons, P.numbered.linked.subtree_eq, List.flatMap_append]
            rfl
          have hchildren : (ofNode n).children F ++ ns.map ofNode = (F.children n ++ ns).map ofNode :=
            List.map_append.symm
          rw [hcons, List.length_cons] at h
          rw [hcons, List.map_cons, search, hchildren, List.find?_cons]
          cases haccepts : accepts (ofNode n) with
          | true => rfl
          | false => exact ih (by omega)

/-- The tree nodes of a document in the order of their numbers are the subtree of the first node. -/
theorem subtree_first (h : F.Has n) : F.subtree ⟨n.document, 0⟩ =
    ((List.range (F.size n)).map fun i => { n with number := i }).filter (F.isTreeNode ·) := by
  have hascending : F.Ascending ((List.range (F.size n)).map fun i => { n with number := i }) :=
    ascending_of_numbers List.pairwise_lt_range n
  refine (P.numbered.ascending_subtree _).eq_of_mem_iff (hascending.sublist List.filter_sublist) ?_
  intro m
  rw [mem_subtree_first P h, List.mem_filter, mem_map_number, List.mem_range]
  constructor
  · rintro ⟨hm, hd, htree⟩
    rw [Has, size_congr hd] at hm
    exact ⟨⟨hm, hd⟩, htree⟩
  · rintro ⟨⟨hlt, hd⟩, htree⟩
    refine ⟨?_, hd, htree⟩
    rwa [Has, size_congr hd]

theorem length_subtree_first (h : F.Has n) :
    (F.subtree ⟨n.document, 0⟩).length ≤ F.size n := by
  rw [subtree_first P h]
  refine (List.length_filter_le _ _).trans ?_
  simp

/-- Elements come in the order of the tree when they are looked for by their numbers. -/
theorem find?_numbers (h : F.Has n) (accepts : Node → Bool) :
    (((List.range (F.size n)).map fun i => { n with number := i }).find? fun e =>
        F.type e == .element && accepts e) =
      (F.subtree ⟨n.document, 0⟩).find? fun e => F.type e == .element && accepts e := by
  rw [subtree_first P h, List.find?_filter]
  congr 1
  funext e
  unfold isTreeNode
  cases F.type e <;> simp

theorem firstAttributeValue?_ofNode (n : Node) (accepts : QName → Bool) :
    (ofNode n).firstAttributeValue? F accepts = F.firstAttributeValue? n accepts :=
  map_find?_of_resolve (map_resolve?_attributes P n) (fun k => (k.bind F.name?).any accepts)
    fun k => (k.map F.stringValue).getD ""

theorem Denotes.searchById?_eq (h : Denotes F x) (rule : IdAttribute) {steps : Nat}
    (hsteps : F.size x.node < steps) (value : String) : x.searchById? F rule steps value =
      ((F.subtree ⟨x.node.document, 0⟩).find? fun e =>
        F.type e == .element && F.firstAttributeValue? e rule.accepts == some value).map ofNode := by
  have hlength := length_subtree_first P h.has
  have hstack : [x.documentRoot] = [(⟨x.node.document, 0⟩ : Node)].map ofNode := rfl
  rw [searchById?, hstack, search_map_ofNode P]
  · rw [List.flatMap_singleton]
    simp only [firstAttributeValue?_ofNode P]
    rfl
  · rw [List.flatMap_singleton]
    exact Nat.lt_of_le_of_lt hlength hsteps

/-- The scan of the parser's numbers finds what a search of the tree finds. -/
theorem Denotes.elementById?_eq (h : Denotes F x) {steps : Nat} (hsteps : F.size x.node < steps)
    (value : String) : x.elementById? F value = x.searchById? F .anyNamespace steps value := by
  rw [elementById?, find?_numbers P h.has, h.searchById?_eq P .anyNamespace hsteps]

end

end XPath.Xml.Place
