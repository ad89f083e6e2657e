import XPath.Proofs.Tree.Construction

/-!
# What a parser delivers

The nodes of a tree are the work of a parser, which is a stranger here: all that is known of it is what
it promises (`Document.Delivered`). It makes the nodes in the order in which they begin, the declarations
of an element before its attributes and the attributes before its children (`Tiered`), and gives neither
to nodes of other kinds. So a walk that visits declarations, attributes and children in this order goes
through the numbers (`Forest.Delivered.numbers_walk`).

A builder keeps the promise if declarations and attributes stand right behind their element in its
events (`Layered`, `Document.delivered_ofEvents`).
-/

namespace XPath

def Link.rank : Link → Nat
  | namespaces => 0
  | attributes => 1
  | children => 2

/-- Each list of a record is numbered before the next, and only elements have more than children. -/
structure Tiered (nodes : Array NodeRecord) : Prop where
  lt : ∀ i (j k : Link), j.rank < k.rank → ∀ a ∈ j.list (recordAt nodes i),
    ∀ c ∈ k.list (recordAt nodes i), a < c
  element : ∀ i (j : Link), j ≠ .children → (recordAt nodes i).type ≠ .element →
    j.list (recordAt nodes i) = []

/-! ## Events in layers -/

/-- The event neither opens an element nor belongs to one that has just been opened. -/
def TreeEvent.isContent : TreeEvent → Bool
  | .element _ | .attributeNode _ _ | .namespaceNode _ _ => false
  | .text _ | .comment _ | .processingInstruction _ _ | .close => true

def TreeEvent.opening (name : QName) (declarations : List (String × String))
    (attributes : List (QName × String)) : List TreeEvent :=
  .element name :: declarations.map (fun (boundPrefix, uri) => .namespaceNode boundPrefix uri) ++
    attributes.map fun (name, value) => .attributeNode name value

/-- Events, latest first, in which declarations and attributes stand right behind their element. -/
inductive Layered : List TreeEvent → Prop
  | nil : Layered []
  | element (name : QName) (declarations : List (String × String))
      (attributes : List (QName × String)) {es : List TreeEvent} (h : Layered es) :
      Layered ((TreeEvent.opening name declarations attributes).reverse ++ es)
  | content (e : TreeEvent) {es : List TreeEvent} (he : e.isContent = true) (h : Layered es) :
      Layered (e :: es)

namespace TreeBuilder

variable {b : TreeBuilder} {r : Nat} {type : NodeType} {name : Option QName} {value : String}

theorem tiered_start : Tiered start.nodes := by
  have hrecord (i : Nat) : recordAt start.nodes i = .leaf .root none "" none := by
    by_cases hi : i = 0
    · rw [hi]
      rfl
    · exact recordAt_of_size_le (Nat.pos_of_ne_zero hi)
  constructor
  · intro i j k _ a ha
    rw [hrecord, Link.list_leaf] at ha
    cases ha
  · intro i j _ _
    rw [hrecord, Link.list_leaf]

/-- A new node keeps the lists in tiers if those of its parent that come later are empty yet. -/
theorem tiered_add (h : b.Sound) (ht : Tiered b.nodes) (j : Link)
    (hlater : ∀ k : Link, j.rank < k.rank → k.list (recordAt b.nodes b.current) = [])
    (helement : j ≠ .children → (recordAt b.nodes b.current).type = .element) :
    Tiered (b.add type name value j.enter).nodes := by
  have hmem {k : Link} {i m : Nat}
      (hm : m ∈ k.list (recordAt (b.add type name value j.enter).nodes i)) :
      m ∈ k.list (recordAt b.nodes i) ∨ m = b.nodes.size ∧ i = b.current ∧ k = j := by
    rw [h.list_add] at hm
    split at hm
    · rcases List.mem_append.mp hm with hm | hm
      · exact Or.inl hm
      · exact Or.inr ⟨List.mem_singleton.mp hm, ‹_›⟩
    · exact Or.inl hm
  constructor
  · intro i k l hkl a ha c hc
    rcases hmem ha with ha | ⟨rfl, hi, rfl⟩
    · rcases hmem hc with hc | ⟨rfl, -, -⟩
      · exact ht.lt i k l hkl a ha c hc
      · exact h.lt_of_mem_list ha
    · -- the new node is the earlier one of the two: nothing may come later
      rcases hmem hc with hc | ⟨-, -, rfl⟩
      · rw [hi, hlater l hkl] at hc
        cases hc
      · exact absurd hkl (Nat.lt_irrefl _)
  · intro i k hk htype
    have hlt := h.current_lt
    rw [h.type_add] at htype
    rw [h.list_add]
    by_cases hnew : i = b.nodes.size
    · rw [if_neg (by omega), hnew, recordAt_of_size_le (Nat.le_refl _), Link.list_leaf]
    · rw [if_neg hnew] at htype
      have hother : ¬(i = b.current ∧ k = j) := by
        rintro ⟨rfl, rfl⟩
        exact htype (helement hk)
      rw [if_neg hother]
      exact ht.element i k hk htype

/-- The innermost open element is at the tier `r` of its lists. -/
structure Ready (b : TreeBuilder) (r : Nat) : Prop where
  sound : b.Sound
  tiered : Tiered b.nodes
  element : (recordAt b.nodes b.current).type = .element
  empty : ∀ k : Link, r < k.rank → k.list (recordAt b.nodes b.current) = []

theorem ready_element (h : b.Sound) (ht : Tiered b.nodes) (name : QName) :
    (b.apply (.element name)).Ready 0 where
  sound := h.apply _
  tiered := by
    have hadd : Tiered (b.add .element (some name) "" Link.children.enter).nodes :=
      tiered_add h ht .children (fun k hk => by cases k <;> simp [Link.rank] at hk)
        fun hne => absurd rfl hne
    exact hadd
  element := (h.type_add .children b.nodes.size).trans (if_pos rfl)
  empty k _ := by
    have hlt := h.current_lt
    refine (h.list_add .children k b.nodes.size).trans ?_
    rw [if_neg (by omega), recordAt_of_size_le (Nat.le_refl _), Link.list_leaf]

def AttachesIn (j : Link) (e : TreeEvent) : Prop :=
  ∀ b : TreeBuilder, ∃ type name value, j ≠ .children ∧ b.apply e =
    { b.add type name value j.enter with openElements := b.openElements }

theorem Ready.attach {j : Link} {e : TreeEvent} (h : b.Ready j.rank) (he : AttachesIn j e) :
    (b.apply e).Ready j.rank := by
  obtain ⟨type, name, value, hj, heq⟩ := he b
  have hlt := h.sound.current_lt
  have hcurrent : (b.apply e).current = b.current := by rw [heq]; rfl
  have hnodes : (b.apply e).nodes = (b.add type name value j.enter).nodes := by rw [heq]
  constructor
  · exact h.sound.apply e
  · rw [hnodes]
    exact tiered_add h.sound h.tiered j h.empty fun _ => h.element
  · rw [hnodes, hcurrent, h.sound.type_add, if_neg (by omega)]
    exact h.element
  · intro k hk
    have hother : ¬(b.current = b.current ∧ k = j) := by
      rintro ⟨-, rfl⟩
      exact Nat.lt_irrefl _ hk
    rw [hnodes, hcurrent, h.sound.list_add, if_neg hother]
    exact h.empty k hk

theorem Ready.attachAll {j : Link} {es : List TreeEvent} (h : b.Ready j.rank)
    (hes : ∀ e ∈ es, AttachesIn j e) : (es.foldl TreeBuilder.apply b).Ready j.rank := by
  induction es generalizing b with
  | nil => exact h
  | cons e es ih =>
      exact ih (h.attach (hes e List.mem_cons_self)) fun e he => hes e (List.mem_cons_of_mem _ he)

/-- An element goes through the tiers with its declarations and attributes. -/
theorem ready_opening (h : b.Sound) (ht : Tiered b.nodes) (name : QName)
    (declarations : List (String × String)) (attributes : List (QName × String)) :
    ((TreeEvent.opening name declarations attributes).foldl TreeBuilder.apply b).Ready 1 := by
  have hnamespaces : ∀ e ∈ declarations.map fun (d : String × String) =>
      TreeEvent.namespaceNode d.1 d.2, AttachesIn .namespaces e := by
    intro e he b
    obtain ⟨d, -, rfl⟩ := List.mem_map.mp he
    exact ⟨_, _, _, by decide, rfl⟩
  have hattributes : ∀ e ∈ attributes.map fun (a : QName × String) =>
      TreeEvent.attributeNode a.1 a.2, AttachesIn .attributes e := by
    intro e he b
    obtain ⟨a, -, rfl⟩ := List.mem_map.mp he
    exact ⟨_, _, _, by decide, rfl⟩
  have hopened := (ready_element h ht name).attachAll (j := .namespaces) hnamespaces
  rw [TreeEvent.opening, List.foldl_append, List.foldl_cons]
  refine Ready.attachAll (j := .attributes) ?_ hattributes
  exact { hopened with empty := fun k hk => hopened.empty k (Nat.lt_of_succ_lt hk) }

theorem tiered_content (h : b.Sound) (ht : Tiered b.nodes) {e : TreeEvent}
    (he : e.isContent = true) : Tiered (b.apply e).nodes := by
  have hadd (type : NodeType) (name : Option QName) (value : String) :
      Tiered (b.add type name value Link.children.enter).nodes :=
    tiered_add h ht .children (fun k hk => by cases k <;> simp [Link.rank] at hk)
      fun hne => absurd rfl hne
  cases e with
  | element | attributeNode | namespaceNode => cases he
  | close => exact ht
  | text | comment | processingInstruction => exact hadd _ _ _

theorem tiered_of_layered {es : List TreeEvent} (h : Layered es) :
    Tiered (es.reverse.foldl TreeBuilder.apply start).nodes := by
  induction h with
  | nil => exact tiered_start
  | @element name declarations attributes es _ ih =>
      rw [List.reverse_append, List.reverse_reverse, List.foldl_append]
      exact (ready_opening (sound_start.foldl es.reverse) ih name declarations attributes).tiered
  | @content e es he _ ih =>
      rw [List.reverse_cons, List.foldl_append]
      exact tiered_content (sound_start.foldl es.reverse) ih he

end TreeBuilder

/-! ## Documents and forests -/

/-- What a parser promises of a document that it delivers. -/
structure Document.Delivered (d : Document) : Prop where
  /-- The nodes are numbered as they begin, each is linked from its parent, and what is below a node
  comes right behind it. -/
  arranged : Arranged d.nodes
  tiered : Tiered d.nodes
  /-- An attribute with the local part `id` identifies its element, whatever its namespace. -/
  idAttribute : d.idAttribute = .anyNamespace

theorem Document.delivered_ofEvents (id : Nat) {events : List TreeEvent}
    (h : Layered events.reverse) :
    Document.Delivered { Document.ofEvents id events with idAttribute := .anyNamespace } where
  arranged := arranged_ofEvents id events
  tiered := by
    have htiered := TreeBuilder.tiered_of_layered h
    rwa [List.reverse_reverse] at htiered
  idAttribute := rfl

namespace Forest

def Delivered (F : Forest) : Prop := ∀ d ∈ F.documents, d.Delivered

def ownNodes (F : Forest) (n : Node) : List Node := F.namespaces n ++ F.attributes n

namespace Delivered

variable {F : Forest} {c m n : Node} (P : F.Delivered)

include P

theorem arranged : ∀ d ∈ F.documents, Arranged d.nodes := fun d hd => (P d hd).arranged

theorem numbered : F.Numbered := numbered_of_arranged P.arranged

theorem tiered (d : Nat) : Tiered (F.nodesAt d) := by
  unfold nodesAt
  cases hd : F.documents[d]? with
  | some document => exact (P document (Array.mem_of_getElem? hd)).tiered
  | none =>
      have hrecord (i : Nat) : recordAt #[] i = .leaf .root none "" none := rfl
      constructor
      · intro i j k _ a ha
        rw [Option.map_none, Option.getD_none, hrecord, Link.list_leaf] at ha
        cases ha
      · intro i j _ _
        rw [Option.map_none, Option.getD_none, hrecord, Link.list_leaf]

theorem lt_of_rank_lt {j k : Link} (hjk : j.rank < k.rank)
    (hm : m ∈ (j.list (F.record n)).map fun i => { n with number := i })
    (hc : c ∈ (k.list (F.record n)).map fun i => { n with number := i }) :
    m.number < c.number := by
  rw [mem_map_number, record_eq] at hm hc
  exact (P.tiered n.document).lt n.number j k hjk m.number hm.1 c.number hc.1

theorem attaches_ownNodes : F.Attaches F.ownNodes where
  mem _ _ := List.mem_append
  ascending n := by
    refine List.pairwise_append.mpr
      ⟨P.numbered.ascending_namespaces n, P.numbered.ascending_attributes n, fun m hm k hk => ?_⟩
    have hlt := P.lt_of_rank_lt (j := .namespaces) (k := .attributes) (by decide) hm hk
    refine before_of_number_lt ?_ hlt
    exact (document_of_mem_links (Or.inl hm)).trans (document_of_mem_links (Or.inr hk)).symm

theorem lt_of_mem_ownNodes (hm : m ∈ F.ownNodes n) (hc : c ∈ F.children n) :
    m.number < c.number := by
  rcases List.mem_append.mp hm with hm | hm
  · exact P.lt_of_rank_lt (j := .namespaces) (k := .children) (by decide) hm hc
  · exact P.lt_of_rank_lt (j := .attributes) (k := .children) (by decide) hm hc

theorem eq_nil_of_type (h : F.type n ≠ .element) : F.namespaces n = [] ∧ F.attributes n = [] := by
  have hempty (j : Link) (hj : j ≠ .children) : j.list (F.record n) = [] := by
    rw [record_eq]
    refine (P.tiered n.document).element n.number j hj ?_
    rwa [← record_eq]
  constructor
  · rw [Forest.namespaces, show (F.record n).namespaces = [] from hempty .namespaces (by decide)]
    rfl
  · rw [Forest.attributes, show (F.record n).attributes = [] from hempty .attributes (by decide)]
    rfl

theorem isTreeNode_first (d : Nat) : F.isTreeNode ⟨d, 0⟩ = true := by
  rw [isTreeNode, Forest.type, record_eq, (arranged_nodesAt P.arranged d).root.2]

theorem numbers_walk {d : Nat} (hd : F.Has ⟨d, 0⟩) :
    (F.walkBy F.ownNodes ⟨d, 0⟩).map (·.number) = List.range (F.size ⟨d, 0⟩) :=
  numbers_walkBy_first P.arranged P.attaches_ownNodes (fun _ _ hm _ => P.lt_of_mem_ownNodes hm) hd

theorem walkBy_first {d : Nat} (hd : F.Has ⟨d, 0⟩) :
    F.walkBy F.ownNodes ⟨d, 0⟩ = (List.range (F.size ⟨d, 0⟩)).map fun i => ⟨d, i⟩ := by
  rw [← P.numbers_walk hd, List.map_map]
  refine (List.map_id _).symm.trans (List.map_congr_left fun m hm => ?_)
  have hbelow := (P.numbered.linked.mem_walkBy P.attaches_ownNodes).mp hm
  have hdoc : m.document = d := P.numbered.linked.document_of_below hbelow
  exact eq_of_number_eq hdoc rfl

end Delivered

end Forest

end XPath
