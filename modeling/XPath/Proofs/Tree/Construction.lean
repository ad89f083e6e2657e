import XPath.Proofs.Tree.Contract
import XPath.Proofs.Tree.Walk

/-!
# Trees as they are built

A builder gives numbers in the order of events, and the events are any: elements may stay open,
too many may be closed, and attributes may come behind children or at the root. What every event keeps
is said of the array of nodes (`Arranged`) and of the elements that are open, whose latest parts all
lie below them (`TreeBuilder.Sound`). So each built document is a tree in which every node is linked
once and what is below a node has the numbers from its own on
(`Document.followsNumbers_ofEvents`).
-/

namespace XPath

namespace Link

def list : Link → NodeRecord → List Nat
  | children, r => r.children
  | attributes, r => r.attributes
  | namespaces, r => r.namespaces

def ofType : NodeType → Link
  | .attributeNode => attributes
  | .namespaceNode => namespaces
  | _ => children

variable (j k : Link) (i : Nat) (r : NodeRecord)

theorem list_enter : k.list (j.enter i r) = if k = j then k.list r ++ [i] else k.list r := by
  cases j <;> cases k <;> rfl

@[simp] theorem parent_enter : (j.enter i r).parent = r.parent := by cases j <;> rfl

@[simp] theorem type_enter : (j.enter i r).type = r.type := by cases j <;> rfl

@[simp] theorem list_leaf (type : NodeType) (name : Option QName) (value : String)
    (parent : Option Nat) : k.list (.leaf type name value parent) = [] := by
  cases k <;> rfl

end Link

/-- The record with the number `i`; beyond the last one it is an empty root. -/
def recordAt (nodes : Array NodeRecord) (i : Nat) : NodeRecord :=
  nodes[i]?.getD (.leaf .root none "" none)

variable {nodes : Array NodeRecord} {i m p : Nat} {k : Link}

theorem recordAt_of_size_le (h : nodes.size ≤ i) :
    recordAt nodes i = .leaf .root none "" none := by
  rw [recordAt, Array.getElem?_eq_none h]
  rfl

theorem lt_size_of_parent (h : (recordAt nodes i).parent = some p) : i < nodes.size := by
  by_contra hge
  rw [recordAt_of_size_le (by omega)] at h
  cases h

/-- The nodes of a tree in the order in which they were made. -/
structure Arranged (nodes : Array NodeRecord) : Prop where
  root : (recordAt nodes 0).parent = none ∧ (recordAt nodes 0).type = .root
  parent : ∀ i, 0 < i → i < nodes.size → (recordAt nodes i).type ≠ .root ∧
    ∃ p < i, (recordAt nodes i).parent = some p ∧
      ((recordAt nodes p).type = .root ∨ (recordAt nodes p).type = .element)
  mem_list : ∀ (k : Link) p i, i ∈ k.list (recordAt nodes p) ↔
    (recordAt nodes i).parent = some p ∧ k = .ofType (recordAt nodes i).type
  sorted : ∀ (k : Link) p, (k.list (recordAt nodes p)).Pairwise (· < ·)
  /-- What was made between a node and its parent hangs on the parent or on later nodes. -/
  nested : ∀ i p m, (recordAt nodes i).parent = some p → p < m → m < i →
    ∃ q, (recordAt nodes m).parent = some q ∧ p ≤ q

theorem Arranged.parent_lt (h : Arranged nodes) (hp : (recordAt nodes i).parent = some p) :
    p < i ∧ ((recordAt nodes p).type = .root ∨ (recordAt nodes p).type = .element) := by
  have hi : 0 < i := by
    refine Nat.pos_of_ne_zero fun hzero => ?_
    rw [hzero, h.root.1] at hp
    cases hp
  obtain ⟨-, q, hq, hparent, htype⟩ := h.parent i hi (lt_size_of_parent hp)
  obtain rfl : q = p := Option.some.inj (hparent.symm.trans hp)
  exact ⟨hq, htype⟩

/-! ## Events -/

namespace TreeBuilder

variable {b : TreeBuilder} {type : NodeType} {name : Option QName} {value : String}

/-- An event closes an element, or adds a node, which is then open if it is an element. -/
theorem apply_cases (b : TreeBuilder) (e : TreeEvent) :
    b.apply e = { b with openElements := b.openElements.drop 1 } ∨
      ∃ type name value, type ≠ NodeType.root ∧ b.apply e =
        { b.add type name value (Link.ofType type).enter with
          openElements := if type = .element then b.nodes.size :: b.openElements
            else b.openElements } := by
  cases e with
  | close => exact Or.inl rfl
  | element | attributeNode | namespaceNode | text | comment | processingInstruction =>
      exact Or.inr ⟨_, _, _, by decide, rfl⟩

theorem size_add (link : Nat → NodeRecord → NodeRecord) :
    (b.add type name value link).nodes.size = b.nodes.size + 1 := by
  simp [add]

/-- The nodes are arranged; the open elements are elements, the innermost the latest, and all that was
made since one of them hangs on it or on later nodes. -/
structure Sound (b : TreeBuilder) : Prop where
  arranged : Arranged b.nodes
  size_pos : 0 < b.nodes.size
  opened : ∀ o ∈ b.openElements, o < b.nodes.size ∧ (recordAt b.nodes o).type = .element
  descending : b.openElements.Pairwise (· > ·)
  latest : ∀ o ∈ b.openElements, ∀ m, o < m → m < b.nodes.size →
    ∃ q, (recordAt b.nodes m).parent = some q ∧ o ≤ q

theorem sound_start : start.Sound where
  arranged := by
    have hrecord (i : Nat) : recordAt start.nodes i = .leaf .root none "" none := by
      by_cases hi : i = 0
      · rw [hi]
        rfl
      · exact recordAt_of_size_le (Nat.pos_of_ne_zero hi)
    constructor
    · exact ⟨rfl, rfl⟩
    · intro i hpos hlt
      exact absurd (show i < 1 from hlt) (by omega)
    · intro k p i
      rw [hrecord, hrecord, Link.list_leaf]
      simp [NodeRecord.leaf]
    · intro k p
      rw [hrecord, Link.list_leaf]
      exact .nil
    · intro i p m hp
      rw [hrecord] at hp
      cases hp
  size_pos := Nat.one_pos
  opened := by simp [start]
  descending := .nil
  latest := by simp [start]

namespace Sound

variable (h : b.Sound)

include h

theorem current_lt : b.current < b.nodes.size := by
  unfold current
  cases hopen : b.openElements with
  | nil => exact h.size_pos
  | cons o outer => exact (h.opened o (by simp [hopen])).1

theorem type_current : (recordAt b.nodes b.current).type = .root ∨
    (recordAt b.nodes b.current).type = .element := by
  unfold current
  cases hopen : b.openElements with
  | nil => exact Or.inl h.arranged.root.2
  | cons o outer => exact Or.inr (h.opened o (by simp [hopen])).2

theorem le_current {o : Nat} (ho : o ∈ b.openElements) : o ≤ b.current := by
  have hdescending := h.descending
  unfold current
  cases hopen : b.openElements with
  | nil => simp [hopen] at ho
  | cons c outer =>
      rw [hopen] at ho hdescending
      rcases List.mem_cons.mp ho with rfl | ho
      · exact Nat.le_refl _
      · exact Nat.le_of_lt ((List.pairwise_cons.mp hdescending).1 o ho)

/-- All that was made since the innermost open element hangs on it or on later nodes. -/
theorem since_current (hm : b.current < m) (hlt : m < b.nodes.size) :
    ∃ q, (recordAt b.nodes m).parent = some q ∧ b.current ≤ q := by
  cases hopen : b.openElements with
  | nil =>
      obtain ⟨-, q, -, hq, -⟩ := h.arranged.parent m (by omega) hlt
      exact ⟨q, hq, by simp [current, hopen]⟩
  | cons o outer =>
      have hcurrent : b.current = o := by simp [current, hopen]
      rw [hcurrent] at hm ⊢
      exact h.latest o (by simp [hopen]) m hm hlt

/-! ## What a new node changes -/

theorem recordAt_add (link : Nat → NodeRecord → NodeRecord) (i : Nat) :
    recordAt (b.add type name value link).nodes i =
      if i = b.current then link b.nodes.size (recordAt b.nodes i)
      else if i = b.nodes.size then .leaf type name value (some b.current)
      else recordAt b.nodes i := by
  have hlt := h.current_lt
  unfold recordAt add
  rw [Array.getElem?_modify, Array.getElem?_push]
  by_cases hcurrent : b.current = i
  · subst hcurrent
    simp [Nat.ne_of_lt hlt, hlt]
  · simp only [hcurrent, Ne.symm hcurrent, if_false]
    by_cases hi : i = b.nodes.size
    · simp [hi]
    · simp [hi]

theorem parent_add (j : Link) (i : Nat) :
    (recordAt (b.add type name value j.enter).nodes i).parent =
      if i = b.nodes.size then some b.current else (recordAt b.nodes i).parent := by
  have hlt := h.current_lt
  rw [h.recordAt_add]
  by_cases hi : i = b.nodes.size
  · rw [if_neg (by omega), if_pos hi, if_pos hi]
    rfl
  · rw [if_neg hi, if_neg hi]
    split
    · exact Link.parent_enter j _ _
    · rfl

theorem type_add (j : Link) (i : Nat) :
    (recordAt (b.add type name value j.enter).nodes i).type =
      if i = b.nodes.size then type else (recordAt b.nodes i).type := by
  have hlt := h.current_lt
  rw [h.recordAt_add]
  by_cases hi : i = b.nodes.size
  · rw [if_neg (by omega), if_pos hi, if_pos hi]
    rfl
  · rw [if_neg hi, if_neg hi]
    split
    · exact Link.type_enter j _ _
    · rfl

theorem list_add (j k : Link) (i : Nat) :
    k.list (recordAt (b.add type name value j.enter).nodes i) =
      if i = b.current ∧ k = j then k.list (recordAt b.nodes i) ++ [b.nodes.size]
      else k.list (recordAt b.nodes i) := by
  rw [h.recordAt_add]
  by_cases hcurrent : i = b.current
  · rw [if_pos hcurrent, Link.list_enter]
    simp [hcurrent]
  · have hother : ¬(i = b.current ∧ k = j) := fun hboth => hcurrent hboth.1
    rw [if_neg hcurrent, if_neg hother]
    split
    · rename_i hi
      rw [Link.list_leaf, recordAt_of_size_le (by omega), Link.list_leaf]
    · rfl

theorem lt_of_mem_list (hi : i ∈ k.list (recordAt b.nodes p)) : i < b.nodes.size :=
  lt_size_of_parent ((h.arranged.mem_list k p i).mp hi).1

theorem arranged_add (htype : type ≠ .root) :
    Arranged (b.add type name value (Link.ofType type).enter).nodes := by
  have hlt := h.current_lt
  constructor
  · rw [h.parent_add, h.type_add, if_neg (by omega), if_neg (by omega)]
    exact h.arranged.root
  · intro i hpos hi
    rw [size_add] at hi
    rw [h.type_add, h.parent_add]
    by_cases hnew : i = b.nodes.size
    · rw [if_pos hnew, if_pos hnew]
      refine ⟨htype, b.current, by omega, rfl, ?_⟩
      rw [h.type_add, if_neg (by omega)]
      exact h.type_current
    · rw [if_neg hnew, if_neg hnew]
      obtain ⟨hroot, p, hp, hparent, hptype⟩ := h.arranged.parent i hpos (by omega)
      refine ⟨hroot, p, hp, hparent, ?_⟩
      rw [h.type_add, if_neg (by omega)]
      exact hptype
  · intro k p i
    rw [h.list_add, h.parent_add, h.type_add]
    have hold := h.arranged.mem_list k p i
    by_cases hnew : i = b.nodes.size
    · have habsent : i ∉ k.list (recordAt b.nodes p) := fun hi => by
        have := h.lt_of_mem_list hi
        omega
      rw [if_pos hnew, if_pos hnew]
      by_cases hhere : p = b.current ∧ k = .ofType type
      · rw [if_pos hhere]
        simp [hnew, hhere]
      · rw [if_neg hhere]
        refine iff_of_false habsent fun hboth => hhere ?_
        exact ⟨(Option.some.inj hboth.1).symm, hboth.2⟩
    · rw [if_neg hnew, if_neg hnew, ← hold]
      split
      · simp [hnew]
      · rfl
  · intro k p
    rw [h.list_add]
    split
    · rw [List.pairwise_append]
      refine ⟨h.arranged.sorted k p, List.pairwise_singleton _ _, fun i hi j hj => ?_⟩
      rw [List.mem_singleton.mp hj]
      exact h.lt_of_mem_list hi
    · exact h.arranged.sorted k p
  · intro i p m hp hpm hmi
    have hi := lt_size_of_parent hp
    rw [size_add] at hi
    rw [h.parent_add] at hp
    rw [h.parent_add, if_neg (by omega)]
    by_cases hnew : i = b.nodes.size
    · rw [if_pos hnew] at hp
      obtain rfl : b.current = p := Option.some.inj hp
      exact h.since_current hpm (by omega)
    · rw [if_neg hnew] at hp
      exact h.arranged.nested i p m hp hpm hmi

theorem apply (e : TreeEvent) : (b.apply e).Sound := by
  rcases apply_cases b e with heq | ⟨type, name, value, htype, heq⟩
  · have hsub {o : Nat} (ho : o ∈ b.openElements.drop 1) : o ∈ b.openElements :=
      List.mem_of_mem_drop ho
    rw [heq]
    exact
      { arranged := h.arranged
        size_pos := h.size_pos
        opened := fun o ho => h.opened o (hsub ho)
        descending := h.descending.sublist (List.drop_sublist 1 _)
        latest := fun o ho => h.latest o (hsub ho) }
  · have hlt := h.current_lt
    have hopened : ∀ o ∈ (b.apply e).openElements, o ∈ b.openElements ∨
        o = b.nodes.size ∧ type = .element := by
      intro o ho
      rw [heq] at ho
      dsimp only at ho
      split at ho
      · exact (List.mem_cons.mp ho).symm.imp id fun hnew => ⟨hnew, ‹_›⟩
      · exact Or.inl ho
    have hnodes : (b.apply e).nodes =
        (b.add type name value (Link.ofType type).enter).nodes := by rw [heq]
    constructor
    · rw [hnodes]
      exact h.arranged_add htype
    · rw [hnodes, size_add]
      omega
    · intro o ho
      rw [hnodes, size_add, h.type_add]
      rcases hopened o ho with ho | ⟨rfl, helement⟩
      · have hold := h.opened o ho
        rw [if_neg (by omega)]
        exact ⟨by omega, hold.2⟩
      · rw [if_pos rfl]
        exact ⟨by omega, helement⟩
    · rw [heq]
      dsimp only
      split
      · exact List.pairwise_cons.mpr ⟨fun o ho => (h.opened o ho).1, h.descending⟩
      · exact h.descending
    · intro o ho m hom hm
      rw [hnodes, size_add] at hm
      rw [hnodes, h.parent_add]
      rcases hopened o ho with ho | ⟨rfl, -⟩
      · split
        · exact ⟨b.current, rfl, h.le_current ho⟩
        · exact h.latest o ho m hom (by omega)
      · omega

theorem foldl (events : List TreeEvent) : (events.foldl TreeBuilder.apply b).Sound := by
  induction events generalizing b with
  | nil => exact h
  | cons e events ih => exact ih (h.apply e)

end Sound

end TreeBuilder

theorem Document.arranged_ofEvents (id : Nat) (events : List TreeEvent) :
    Arranged (Document.ofEvents id events).nodes :=
  (TreeBuilder.sound_start.foldl events).arranged

/-! ## The forest of built documents -/

namespace Forest

variable {F : Forest} {m n p : Node}

/-- The records of a document; a number that belongs to no document has none. -/
def nodesAt (F : Forest) (d : Nat) : Array NodeRecord :=
  (F.documents[d]?.map (·.nodes)).getD #[]

theorem record_eq (F : Forest) (n : Node) : F.record n = recordAt (F.nodesAt n.document) n.number := by
  unfold record document? nodesAt recordAt
  cases F.documents[n.document]? <;> rfl

theorem arranged_nodesAt (h : ∀ d ∈ F.documents, Arranged d.nodes) (d : Nat) :
    Arranged (F.nodesAt d) := by
  unfold nodesAt
  cases hd : F.documents[d]? with
  | some document => exact h document (Array.mem_of_getElem? hd)
  | none =>
      have hrecord (i : Nat) : recordAt #[] i = .leaf .root none "" none := rfl
      constructor
      · exact ⟨rfl, rfl⟩
      · intro i _ hlt
        exact absurd (show i < 0 from hlt) (Nat.not_lt_zero i)
      · intro k p i
        rw [Option.map_none, Option.getD_none, hrecord, hrecord, Link.list_leaf]
        simp [NodeRecord.leaf]
      · intro k p
        rw [Option.map_none, Option.getD_none, hrecord, Link.list_leaf]
        exact .nil
      · intro i p m hp
        cases hp

theorem parent?_eq_some : F.parent? n = some p ↔
    (F.record n).parent = some p.number ∧ p.document = n.document := by
  rw [parent?, Option.map_eq_some_iff]
  constructor
  · rintro ⟨i, hi, rfl⟩
    exact ⟨hi, rfl⟩
  · rintro ⟨hi, hd⟩
    exact ⟨p.number, hi, eq_of_number_eq hd.symm rfl⟩

theorem mem_map_number {is : List Nat} :
    m ∈ is.map (fun i => { n with number := i }) ↔ m.number ∈ is ∧ m.document = n.document := by
  rw [List.mem_map]
  constructor
  · rintro ⟨i, hi, rfl⟩
    exact ⟨hi, rfl⟩
  · rintro ⟨hi, hd⟩
    exact ⟨m.number, hi, eq_of_number_eq hd.symm rfl⟩

theorem isTreeNode_iff_ofType : F.isTreeNode n = true ↔ Link.children = .ofType (F.type n) := by
  unfold isTreeNode
  cases F.type n <;> simp [Link.ofType]

section

variable (h : ∀ d ∈ F.documents, Arranged d.nodes)

include h

/-- A node is in the list for its kind at its parent, and in no other. -/
theorem mem_list_iff (k : Link) (n m : Node) :
    m ∈ (k.list (F.record n)).map (fun i => { n with number := i }) ↔
      F.parent? m = some n ∧ k = .ofType (F.type m) := by
  rw [mem_map_number, parent?_eq_some, type, record_eq, record_eq]
  by_cases hd : m.document = n.document
  · rw [hd, (arranged_nodesAt h n.document).mem_list]
    simp
  · simp [hd, Ne.symm hd]

theorem parent_spec (hp : F.parent? n = some p) :
    p.number < n.number ∧ (F.type p = .root ∨ F.type p = .element) := by
  obtain ⟨hparent, hd⟩ := parent?_eq_some.mp hp
  rw [record_eq] at hparent
  have hspec := (arranged_nodesAt h n.document).parent_lt hparent
  rwa [type, record_eq, hd]

theorem sorted_list (k : Link) (n : Node) : (k.list (F.record n)).Pairwise (· < ·) := by
  rw [record_eq]
  exact (arranged_nodesAt h n.document).sorted k n.number

theorem linked_of_arranged : F.Linked where
  parent_lt n p hp := (parent_spec h hp).1
  isTreeNode_parent n p hp := by
    unfold isTreeNode
    rcases (parent_spec h hp).2 with htype | htype <;> rw [htype]
  mem_children n m := by
    rw [isTreeNode_iff_ofType]
    exact mem_list_iff h .children n m
  mem_attributes n m := by
    have htype : Link.attributes = .ofType (F.type m) ↔ F.type m = .attributeNode := by
      cases F.type m <;> simp [Link.ofType]
    rw [← htype]
    exact mem_list_iff h .attributes n m
  mem_namespaces n m := by
    have htype : Link.namespaces = .ofType (F.type m) ↔ F.type m = .namespaceNode := by
      cases F.type m <;> simp [Link.ofType]
    rw [← htype]
    exact mem_list_iff h .namespaces n m
  children_nodup n := (ascending_of_numbers (F := F) (sorted_list h .children n) n).nodup
  attributes_nodup n := (ascending_of_numbers (F := F) (sorted_list h .attributes n) n).nodup
  namespaces_nodup n := (ascending_of_numbers (F := F) (sorted_list h .namespaces n) n).nodup

/-- What was made between a node and its parent lies below the parent: its own parent is the parent or
was made later still. -/
theorem mem_ancestors_of_arranged (hp : F.parent? n = some p) (hd : m.document = n.document)
    (hpm : p.number < m.number) (hmn : m.number < n.number) : p ∈ F.ancestors m := by
  have L := linked_of_arranged h
  induction hk : m.number using Nat.strongRecOn generalizing m with
  | _ k ih =>
      obtain ⟨hparent, hpd⟩ := parent?_eq_some.mp hp
      rw [record_eq] at hparent
      obtain ⟨q, hq, hpq⟩ :=
        (arranged_nodesAt h n.document).nested n.number p.number m.number hparent hpm hmn
      have hmq : F.parent? m = some ⟨m.document, q⟩ := by
        rw [parent?_eq_some, record_eq, hd]
        exact ⟨hq, rfl⟩
      have hqm := L.parent_lt m ⟨m.document, q⟩ hmq
      rw [L.mem_ancestors hmq]
      rcases Nat.eq_or_lt_of_le hpq with heq | hlt
      · exact Or.inl (eq_of_number_eq (hpd.trans hd.symm) heq)
      · exact Or.inr (ih q (hk ▸ hqm) hd hlt (Nat.lt_trans hqm hmn) rfl)

/-- Documents that are built from events are numbered as their trees are. -/
theorem numbered_of_arranged : F.Numbered where
  linked := linked_of_arranged h
  children_sorted := sorted_list h .children
  attributes_sorted := sorted_list h .attributes
  namespaces_sorted := sorted_list h .namespaces
  between _ _ _ := mem_ancestors_of_arranged h

theorem exists_parent_of_arranged (hn : F.Has n) (hpos : 0 < n.number) :
    ∃ p, F.parent? n = some p := by
  have hsize : F.size n = (F.nodesAt n.document).size := by
    unfold size document? nodesAt
    cases F.documents[n.document]? <;> rfl
  have hlt : n.number < (F.nodesAt n.document).size := hsize ▸ hn
  obtain ⟨-, p, -, hp, -⟩ := (arranged_nodesAt h n.document).parent n.number hpos hlt
  refine ⟨⟨n.document, p⟩, parent?_eq_some.mpr ⟨?_, rfl⟩⟩
  rw [record_eq]
  exact hp

theorem parent?_of_arranged (d : Nat) : F.parent? ⟨d, 0⟩ = none := by
  rw [parent?, record_eq, (arranged_nodesAt h d).root.1]
  rfl

theorem below_first (hn : F.Has n) : F.Below ⟨n.document, 0⟩ n := by
  have L := linked_of_arranged h
  induction n using L.induction with
  | top n hp =>
      refine Or.inl (eq_of_number_eq rfl ?_)
      by_contra hne
      obtain ⟨p, hp'⟩ := exists_parent_of_arranged h hn (Nat.pos_of_ne_zero hne)
      rw [hp] at hp'
      cases hp'
  | below n p hp ih =>
      have hbelow := L.below_trans (ih (L.has_parent hp)) (L.below_of_parent hp)
      rwa [document_parent hp] at hbelow

/-- A walk from the first node goes through all numbers of the document if what is attached to a node
comes before the children of the node. -/
theorem numbers_walkBy_first {own : Node → List Node} {d : Nat} (A : F.Attaches own)
    (hfirst : ∀ n, ∀ m ∈ own n, ∀ c ∈ F.children n, m.number < c.number) (hd : F.Has ⟨d, 0⟩) :
    (F.walkBy own ⟨d, 0⟩).map (·.number) = List.range (F.size ⟨d, 0⟩) := by
  have N := numbered_of_arranged h
  have hnumbers := N.numbers_walkBy A hfirst ⟨d, 0⟩
  have hall (i : Nat) : i < (F.walkBy own ⟨d, 0⟩).length ↔ i < F.size ⟨d, 0⟩ := by
    have hmem : i ∈ (F.walkBy own ⟨d, 0⟩).map (·.number) ↔ i < (F.walkBy own ⟨d, 0⟩).length := by
      rw [hnumbers, List.mem_range'_1]
      simp
    rw [← hmem, List.mem_map]
    constructor
    · rintro ⟨m, hm, rfl⟩
      have hbelow := (N.linked.mem_walkBy A).mp hm
      have hhas := has_of_below hd hbelow
      rwa [Has, size_congr (N.linked.document_of_below hbelow)] at hhas
    · intro hi
      have hhas : F.Has ⟨d, i⟩ := hi
      exact ⟨⟨d, i⟩, (N.linked.mem_walkBy A).mpr (below_first h hhas), rfl⟩
  have hlength : (F.walkBy own ⟨d, 0⟩).length = F.size ⟨d, 0⟩ :=
    Nat.le_antisymm (Nat.le_of_not_lt fun hlt => Nat.lt_irrefl _ ((hall _).mp hlt))
      (Nat.le_of_not_lt fun hlt => Nat.lt_irrefl _ ((hall _).mpr hlt))
  rw [hnumbers, hlength, List.range_eq_range']

end

/-- Each node is once in the lists of its parent and in those of no other node. -/
theorem Linked.count_links (L : F.Linked) (n m : Node) :
    (F.children n ++ F.attributes n ++ F.namespaces n).count m =
      if F.parent? m = some n then 1 else 0 := by
  rw [List.count_append, List.count_append, (L.children_nodup n).count, (L.attributes_nodup n).count,
    (L.namespaces_nodup n).count]
  simp only [L.mem_children, L.mem_attributes, L.mem_namespaces]
  by_cases hp : F.parent? m = some n
  · unfold isTreeNode
    cases F.type m <;> simp [hp]
  · simp [hp]

end Forest

/-! ## One document -/

/-- The nodes of the one document in `F` make a tree that follows their numbers. -/
structure Forest.FollowsNumbers (F : Forest) : Prop where
  root : F.parent? ⟨0, 0⟩ = none
  parent_lt : ∀ n, F.Has n → n.number ≠ 0 → ∃ p, F.parent? n = some p ∧ p.number < n.number
  /-- A node is once in one list of its parent, and in no other list. -/
  linked_once : ∀ n m, (F.children n ++ F.attributes n ++ F.namespaces n).count m =
    if F.parent? m = some n then 1 else 0
  ascending : ∀ n, (F.children n).Pairwise (·.number < ·.number) ∧
    (F.attributes n).Pairwise (·.number < ·.number) ∧
    (F.namespaces n).Pairwise (·.number < ·.number)
  /-- A node and all that is below it have numbers without a gap. -/
  interval : ∀ n, ((F.walkBy F.attached n).map (·.number)).Perm
    (List.range' n.number (F.walkBy F.attached n).length)
  /-- If what is attached to a node comes before its children, the walk from the root goes through
  all numbers in order. -/
  in_order : (∀ n, ∀ m ∈ F.namespaces n ++ F.attributes n, ∀ c ∈ F.children n,
      m.number < c.number) →
    (F.walkBy F.attached ⟨0, 0⟩).map (·.number) = List.range (F.size ⟨0, 0⟩)

namespace Document

open Forest

def forest (d : Document) : Forest := ⟨#[d]⟩

theorem arranged_forest (id : Nat) (events : List TreeEvent) :
    ∀ d ∈ (Document.ofEvents id events).forest.documents, Arranged d.nodes := by
  intro d hd
  rw [forest, List.mem_toArray, List.mem_singleton] at hd
  rw [hd]
  exact arranged_ofEvents id events

/-- Whatever events a document is built from, its tree follows the numbers. -/
theorem followsNumbers_ofEvents (id : Nat) (events : List TreeEvent) :
    (Document.ofEvents id events).forest.FollowsNumbers := by
  have h := arranged_forest id events
  have N := numbered_of_arranged h
  have A := attaches_attached (Document.ofEvents id events).forest
  have hascending (is : List Nat) (n : Node) (his : is.Pairwise (· < ·)) :
      (is.map fun i => { n with number := i }).Pairwise (·.number < ·.number) := by
    rwa [List.pairwise_map]
  have hfirst : (Document.ofEvents id events).forest.Has ⟨0, 0⟩ :=
    (TreeBuilder.sound_start.foldl events).size_pos
  constructor
  · exact parent?_of_arranged h 0
  · intro n hn hpos
    obtain ⟨p, hp⟩ := exists_parent_of_arranged h hn (Nat.pos_of_ne_zero hpos)
    exact ⟨p, hp, N.linked.parent_lt n p hp⟩
  · exact N.linked.count_links
  · intro n
    exact ⟨hascending _ n (N.children_sorted n), hascending _ n (N.attributes_sorted n),
      hascending _ n (N.namespaces_sorted n)⟩
  · exact N.perm_walkBy A
  · intro hbefore
    refine numbers_walkBy_first h A (fun n m hm => hbefore n m ?_) hfirst
    exact List.mem_append.mpr ((A.mem n m).mp hm)

/-- A built document in which a child of the root opens with a declaration between two attributes. -/
def opening : Document :=
  .ofEvents 1 [.comment "c", .element ⟨none, none, "a"⟩, .attributeNode ⟨none, none, "k"⟩ "v",
    .namespaceNode "p" "u", .attributeNode ⟨none, none, "l"⟩ "w", .text "t", .close, .close]

theorem followsNumbers_opening :
    (∀ n, ∀ m ∈ opening.forest.namespaces n ++ opening.forest.attributes n,
        ∀ c ∈ opening.forest.children n, m.number < c.number) ∧
      (opening.forest.walkBy opening.forest.attached ⟨0, 0⟩).map (·.number) =
        [0, 1, 2, 3, 4, 5, 6] := by
  have hbefore : ∀ n, ∀ m ∈ opening.forest.namespaces n ++ opening.forest.attributes n,
      ∀ c ∈ opening.forest.children n, m.number < c.number := by
    intro n m hm c hc
    have hall : ∀ n ∈ opening.forest.allNodes,
        ∀ m ∈ opening.forest.namespaces n ++ opening.forest.attributes n,
          ∀ c ∈ opening.forest.children n, m.number < c.number := by decide
    have hn : opening.forest.Has n := by
      by_contra hn
      rw [Forest.children, record_of_not_has hn] at hc
      cases hc
    exact hall n hn.mem_allNodes m hm c hc
  exact ⟨hbefore, (followsNumbers_ofEvents 1 _).in_order hbefore⟩

def lateEvents : List TreeEvent :=
  [.element ⟨none, none, "a"⟩, .close, .attributeNode ⟨none, none, "k"⟩ "v"]

/-- It is not enough that attributes come before children on every element: the walk comes to the
attribute of the root before it comes to the child. -/
theorem not_followsNumbers_elements :
    ¬∀ (id : Nat) (events : List TreeEvent),
      (∀ n, (Document.ofEvents id events).forest.type n = .element →
        ∀ m ∈ (Document.ofEvents id events).forest.namespaces n ++
            (Document.ofEvents id events).forest.attributes n,
          ∀ c ∈ (Document.ofEvents id events).forest.children n, m.number < c.number) →
      ((Document.ofEvents id events).forest.walkBy
          (Document.ofEvents id events).forest.attached ⟨0, 0⟩).map (·.number) =
        List.range ((Document.ofEvents id events).forest.size ⟨0, 0⟩) := by
  intro h
  have hwalk := h 1 lateEvents ?_
  · revert hwalk
    decide +kernel
  · intro n htype
    have hn := has_of_type (by rw [htype]; decide)
    have hall : ∀ n ∈ (Document.ofEvents 1 lateEvents).forest.allNodes,
        (Document.ofEvents 1 lateEvents).forest.type n = .element →
          (Document.ofEvents 1 lateEvents).forest.children n = [] := by decide
    rw [hall n hn.mem_allNodes htype]
    simp

end Document

end XPath
