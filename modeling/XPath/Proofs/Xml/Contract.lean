import Mathlib.Data.List.Find
import XPath.Proofs.Xml.Key

/-!
# The contract of a tree of nodes

Places with packed keys are as good as the nodes that they stand for: the links and the order are
the same (`Place.mirrors_of_ranked`), and the keys, the ways up and the look-up by an id agree with
each other as every search in a tree supposes (`Place.keepsContract_of_ranked`).
-/

namespace XPath

theorem OrderKey.compare_congr {a b c d : OrderKey} (hac : a.document = c.document)
    (hbd : b.document = d.document) (hab : a.document ≠ b.document) :
    a.compare b = c.compare d := by
  have hne : Ord.compare c.document d.document ≠ .eq := by
    rw [Ne, Nat.compare_eq_eq, ← hac, ← hbd]
    exact hab
  rw [compare, compare, hac, hbd]
  cases hcompare : Ord.compare c.document d.document with
  | lt | gt => rfl
  | eq => exact absurd hcompare hne

namespace Xml.Place

open Forest

variable {F : Forest} {rank : Node → UInt32} {m n : Node} {x y : Place}

/-! ## Places and nodes -/

/-- A place has the links of a node: they lead to places that stand for those of the node. -/
structure SharesLinks (F : Forest) (x : Place) (n : Node) : Prop where
  parent? : (x.parent? F).bind (resolve? F) = F.parent? n
  namespaces : (x.namespaces F).map (resolve? F) = (F.namespaces n).map some
  attributes : (x.attributes F).map (resolve? F) = (F.attributes n).map some
  children : (x.children F).map (resolve? F) = (F.children n).map some

/-- Places have the kinds, the links and the order of the nodes that they stand for. -/
structure Mirrors (F : Forest) (rank : Node → UInt32) : Prop where
  /-- A walk through a document comes to its nodes by their numbers. -/
  walk : ∀ d, F.Has ⟨d, 0⟩ → ((ofNode ⟨d, 0⟩).walk F).map (resolve? F) =
    (List.range (F.size ⟨d, 0⟩)).map fun i => some ⟨d, i⟩
  compare : ∀ x y m n, Denotes F x → Denotes F y → x.resolve? F = some m → y.resolve? F = some n →
    (x.orderKey F rank).compare (y.orderKey F rank) = F.compareNodes m n
  type : ∀ x n, Denotes F x → x.resolve? F = some n → x.type F = F.type n
  links : ∀ x n, Denotes F x → x.resolve? F = some n → SharesLinks F x n
  documentRoot : ∀ x n, Denotes F x → x.resolve? F = some n →
    x.documentRoot = ofNode (F.documentRoot n)
  elementById? : ∀ x n value, Denotes F x → x.resolve? F = some n →
    x.elementById? F value = (F.elementById? n value).map ofNode

/-- A place comes before another, and what it stands for before what that one stands for. -/
structure Precedes (F : Forest) (rank : Node → UInt32) (x y : Place) : Prop where
  key : (x.orderKey F rank).compare (y.orderKey F rank) = .lt
  before : ∀ m n, x.resolve? F = some m → y.resolve? F = some n → F.Before m n

theorem links_of_slot (h : x.slot ≠ .node) : x.parent? F = some (ofNode x.node) ∧
    x.namespaces F = [] ∧ x.attributes F = [] ∧ x.children F = [] := by
  obtain ⟨n, slot⟩ := x
  cases slot with
  | node => exact absurd rfl h
  | namespaceNode | attributeNode => exact ⟨rfl, rfl, rfl, rfl⟩

section

variable (P : F.Delivered)

include P

/-- A place stands for its node of the tree, or for a node that hangs on it. -/
theorem resolve?_cases (h : x.resolve? F = some n) : x = ofNode n ∨
    x.slot ≠ .node ∧ F.parent? n = some x.node ∧ F.type n = x.type F ∧ F.isTreeNode n = false := by
  have L := P.numbered.linked
  obtain ⟨e, slot⟩ := x
  cases slot with
  | node => exact Or.inl (congrArg ofNode (Option.some.inj h))
  | namespaceNode i =>
      obtain ⟨hp, htype⟩ := (L.mem_namespaces e n).mp (List.mem_of_getElem? h)
      exact Or.inr ⟨Slot.noConfusion, hp, htype, by rw [isTreeNode, htype]⟩
  | attributeNode i =>
      obtain ⟨hp, htype⟩ := (L.mem_attributes e n).mp (List.mem_of_getElem? h)
      exact Or.inr ⟨Slot.noConfusion, hp, htype, by rw [isTreeNode, htype]⟩

theorem Denotes.has_resolve (hx : Denotes F x) (h : x.resolve? F = some n) :
    F.Has n ∧ n.document = x.node.document := by
  rcases resolve?_cases P h with rfl | ⟨-, hp, -⟩
  · exact ⟨hx.has, rfl⟩
  · exact ⟨has_of_parent hp, (document_parent hp).symm⟩

theorem links_of_not_isTreeNode (h : F.isTreeNode n = false) :
    F.namespaces n = [] ∧ F.attributes n = [] ∧ F.children n = [] := by
  have L := P.numbered.linked
  have hnone {m : Node} (hp : F.parent? m = some n) : False := by
    rw [L.isTreeNode_parent m n hp] at h
    cases h
  refine ⟨?_, ?_, ?_⟩ <;> refine List.eq_nil_iff_forall_not_mem.mpr fun m hm => ?_
  · exact hnone ((L.mem_namespaces n m).mp hm).1
  · exact hnone ((L.mem_attributes n m).mp hm).1
  · exact hnone (L.parent_of_mem_children hm)

theorem sharesLinks_of_resolve (h : x.resolve? F = some n) : SharesLinks F x n := by
  rcases resolve?_cases P h with rfl | ⟨hslot, hp, -, htree⟩
  · refine ⟨?_, map_resolve?_namespaces P n, map_resolve?_attributes P n, ?_⟩
    · have hparent : (ofNode n).parent? F = (F.parent? n).map ofNode := rfl
      rw [hparent]
      cases F.parent? n <;> rfl
    · have hchildren : (ofNode n).children F = (F.children n).map ofNode := rfl
      rw [hchildren, List.map_map]
      rfl
  · obtain ⟨hparent, hnamespaces, hattributes, hchildren⟩ := links_of_slot (F := F) hslot
    obtain ⟨hnamespaces', hattributes', hchildren'⟩ := links_of_not_isTreeNode P htree
    constructor
    · rw [hparent, hp]
      rfl
    · rw [hnamespaces, hnamespaces']
      rfl
    · rw [hattributes, hattributes']
      rfl
    · rw [hchildren, hchildren']
      rfl

theorem idAttribute_eq (h : F.Has n) :
    ((F.document? n).map (·.idAttribute)).getD .unprefixed = .anyNamespace := by
  cases hd : F.document? n with
  | none => simp [Has, size, hd] at h
  | some d => exact (P d (Array.mem_of_getElem? hd)).idAttribute

theorem Denotes.elementById?_resolve (hx : Denotes F x) (h : x.resolve? F = some n)
    (value : String) : x.elementById? F value = (F.elementById? n value).map ofNode := by
  obtain ⟨hn, hd⟩ := hx.has_resolve P h
  rw [hx.elementById?_eq P (Nat.lt_succ_self _), hx.searchById?_eq P _ (Nat.lt_succ_self _),
    Forest.elementById?, documentRoot_eq P hn, hd]
  simp only [idAttribute_eq P hn]

variable (R : Ranked F rank)

include R

/-- A walk from the root comes to the places and to what they stand for in order. -/
theorem pairwise_precedes {d : Nat} (hd : F.Has ⟨d, 0⟩) :
    ((ofNode ⟨d, 0⟩).walk F).Pairwise (Precedes F rank) := by
  have hkeys := ascending_walk_ofNode P R hd (P.isTreeNode_first d)
  have hnodes : (((ofNode ⟨d, 0⟩).walk F).map (resolve? F)).Pairwise fun a b =>
      ∀ m n, a = some m → b = some n → F.Before m n := by
    rw [map_resolve?_walk P, P.walkBy_first hd, List.map_map, List.pairwise_map]
    refine List.pairwise_lt_range.imp fun {i j} hij m n hm hn => ?_
    obtain rfl := Option.some.inj hm
    obtain rfl := Option.some.inj hn
    exact before_of_number_lt rfl hij
  rw [List.pairwise_map] at hnodes
  exact (hkeys.and hnodes).imp fun {a b} hab => ⟨by simpa [OrderKey.before] using hab.1, hab.2⟩

theorem precedes_or_precedes (hx : Denotes F x) (hy : Denotes F y)
    (hd : x.node.document = y.node.document) (hne : x ≠ y) :
    Precedes F rank x y ∨ Precedes F rank y x := by
  have hfirst : F.Has ⟨x.node.document, 0⟩ := Nat.lt_of_le_of_lt (Nat.zero_le _) hx.has
  have hwalk := (pairwise_precedes P R hfirst).imp fun {a b} hab =>
    show Precedes F rank a b ∨ Precedes F rank b a from Or.inl hab
  have hsymm : Std.Symm fun a b => Precedes F rank a b ∨ Precedes F rank b a := ⟨fun _ _ => Or.symm⟩
  exact hwalk.forall ((hx.mem_walk_iff P).mpr ⟨hx, rfl⟩) ((hx.mem_walk_iff P).mpr ⟨hy, hd.symm⟩) hne

theorem compare_resolve (hx : Denotes F x) (hy : Denotes F y) (hm : x.resolve? F = some m)
    (hn : y.resolve? F = some n) :
    (x.orderKey F rank).compare (y.orderKey F rank) = F.compareNodes m n := by
  have hdocument {x : Place} {m : Node} (hx : Denotes F x) (hm : x.resolve? F = some m) :
      (x.orderKey F rank).document = (F.orderKey m).document := by
    have hd := (hx.has_resolve P hm).2
    rw [orderKey, Forest.orderKey, Forest.orderKey, document?_congr hd]
  by_cases hd : x.node.document = y.node.document
  · by_cases hne : x = y
    · subst hne
      obtain rfl := Option.some.inj (hm.symm.trans hn)
      rw [OrderKey.compare_eq_eq.mpr rfl, compareNodes_eq_eq.mpr rfl]
    · rcases precedes_or_precedes P R hx hy hd hne with h | h
      · exact h.key.trans (h.before m n hm hn).symm
      · rw [compareNodes_eq_gt.mpr (h.before n m hn hm), OrderKey.compare_eq_gt]
        exact (OrderKey.compare_eq_lt.mp h.key).imp_right fun h => ⟨h.1.symm, h.2⟩
  · refine OrderKey.compare_congr (hdocument hx hm) (hdocument hy hn) fun heq => hd ?_
    exact document_eq_of_ids R.ids hx.has hy.has heq

end

theorem mirrors_of_ranked (P : F.Delivered) (R : Ranked F rank) : Mirrors F rank where
  walk d hd := by
    rw [map_resolve?_walk P, P.walkBy_first hd, List.map_map]
    rfl
  compare _ _ _ _ hx hy hm hn := compare_resolve P R hx hy hm hn
  type x n _ h := by
    rcases resolve?_cases P h with rfl | ⟨-, -, htype, -⟩
    · rfl
    · exact htype.symm
  links _ _ _ h := sharesLinks_of_resolve P h
  documentRoot x n hx h := by
    obtain ⟨hn, hd⟩ := hx.has_resolve P h
    rw [documentRoot_eq P hn, hd]
    rfl
  elementById? _ _ value hx h := hx.elementById?_resolve P h value

/-! ## The contract -/

/-- On each element of the document the first attribute with the local part `id` has no namespace. -/
def IdsUnprefixed (F : Forest) (d : Nat) : Prop :=
  ∀ e a, e.document = d →
    ((F.attributes e).find? fun a => (F.name? a).any IdAttribute.anyNamespace.accepts) = some a →
    (F.name? a).any IdAttribute.unprefixed.accepts = true

/-- What searches in a tree of nodes rely on. -/
structure KeepsContract (F : Forest) (rank : Node → UInt32) : Prop where
  /-- A walk goes on from each child in the same way, however deep the tree is. -/
  walk_eq : ∀ x, Denotes F x →
    x.walk F = x :: (x.namespaces F ++ x.attributes F) ++ (x.children F).flatMap (walk F)
  /-- A walk from any place goes through ever larger keys. -/
  ascending : ∀ x, Denotes F x → (x.walk F).Pairwise fun a b =>
    (a.orderKey F rank).before (b.orderKey F rank) = true
  /-- The walk from the root comes to all the places of the document. -/
  mem_walk : ∀ x y, Denotes F x →
    (y ∈ x.documentRoot.walk F ↔ Denotes F y ∧ y.node.document = x.node.document)
  equal_iff : ∀ x y, Denotes F x → Denotes F y → (x.equal F rank y = true ↔ x = y)
  parent? : ∀ x y, Denotes F x → y ∈ x.children F ++ x.attributes F ++ x.namespaces F →
    Denotes F y ∧ y.parent? F = some x
  /-- The way up ends at the root of the document. -/
  documentRoot : ∀ x steps, Denotes F x → x.node.number < steps →
    x.climb F steps = x.documentRoot ∧ x.documentRoot.parent? F = none
  /-- The look-up by an id finds what the search of the tree for an attribute `id` in any namespace
  finds, and what the search for one in no namespace finds if no other comes first. -/
  elementById? : ∀ x value steps, Denotes F x → F.size x.node < steps →
    x.elementById? F value = x.searchById? F .anyNamespace steps value ∧
      (IdsUnprefixed F x.node.document →
        x.elementById? F value = x.searchById? F .unprefixed steps value)

theorem find?_of_imp {p q : Node → Bool} {ns : List Node} (hqp : ∀ n, q n = true → p n = true)
    (h : ∀ n, ns.find? p = some n → q n = true) : ns.find? q = ns.find? p := by
  induction ns with
  | nil => rfl
  | cons n ns ih =>
      rw [List.find?_cons] at h
      rw [List.find?_cons, List.find?_cons]
      cases hp : p n with
      | true =>
          rw [h n (by rw [hp])]
      | false =>
          have hq : q n = false := Bool.eq_false_iff.mpr fun hq => by simp [hqp n hq] at hp
          rw [hq]
          exact ih (by simpa [hp] using h)

theorem firstAttributeValue?_unprefixed {d : Nat} (h : IdsUnprefixed F d) (hn : n.document = d) :
    F.firstAttributeValue? n IdAttribute.unprefixed.accepts =
      F.firstAttributeValue? n IdAttribute.anyNamespace.accepts := by
  unfold Forest.firstAttributeValue?
  rw [find?_of_imp (fun a ha => ?_) fun a ha => h n a hn ha]
  cases hname : F.name? a with
  | none => simp [hname] at ha
  | some name =>
      have hexpanded : name.expanded = .unprefixed "id" := by
        simpa [hname, IdAttribute.accepts] using ha
      have hlocal : name.localPart = "id" := congrArg ExpandedName.localPart hexpanded
      simpa [IdAttribute.accepts] using hlocal

section

variable (P : F.Delivered)

include P

theorem Denotes.of_listed (hx : Denotes F x)
    (hy : y ∈ x.children F ++ x.attributes F ++ x.namespaces F) :
    Denotes F y ∧ y.parent? F = some x := by
  have L := P.numbered.linked
  obtain ⟨n, slot⟩ := x
  cases slot with
  | namespaceNode | attributeNode => cases hy
  | node =>
      change y ∈ (ofNode n).children F ++ (ofNode n).attributes F ++ (ofNode n).namespaces F at hy
      rw [attributes_ofNode P, namespaces_ofNode P, List.mem_append, List.mem_append] at hy
      rcases hy with (hy | hy) | hy
      · obtain ⟨c, hc, rfl⟩ := List.mem_map.mp hy
        have hp := L.parent_of_mem_children hc
        refine ⟨⟨has_of_parent hp, L.isTreeNode_of_mem_children hc, rfl⟩, ?_⟩
        exact congrArg (Option.map ofNode) hp
      all_goals
        obtain ⟨i, hi, rfl⟩ := List.mem_map.mp hy
        exact ⟨⟨hx.has, hx.isTreeNode, by simpa [resolve?] using hi⟩, rfl⟩

end

/-- Places in delivered documents keep the contract, with the links and the order of the nodes. -/
theorem keepsContract_of_ranked (P : F.Delivered) (R : Ranked F rank) :
    KeepsContract F rank ∧ Mirrors F rank := by
  refine ⟨?_, mirrors_of_ranked P R⟩
  constructor
  · intro x _
    exact walk_eq P x
  · intro x hx
    exact hx.ascending_walk P R
  · intro x y hx
    exact hx.mem_walk_iff P
  · intro x y hx hy
    rw [equal, beq_iff_eq]
    refine ⟨fun hkey => ?_, fun h => by rw [h]⟩
    have hid := congrArg OrderKey.document hkey
    have hd := document_eq_of_ids R.ids hx.has hy.has hid
    by_contra hne
    have hself (a : OrderKey) : a.compare a ≠ .lt := by
      rw [OrderKey.compare_eq_eq.mpr rfl]
      decide
    rcases precedes_or_precedes P R hx hy hd hne with h | h
    · exact hself _ (hkey ▸ h.key)
    · exact hself _ (hkey ▸ h.key)
  · intro x y hx
    exact hx.of_listed P
  · intro x steps hx hsteps
    exact ⟨hx.climb_eq P hsteps, parent?_documentRoot P x⟩
  · intro x value steps hx hsteps
    refine ⟨hx.elementById?_eq P hsteps value, fun hids => ?_⟩
    rw [hx.elementById?_eq P hsteps, hx.searchById?_eq P _ hsteps, hx.searchById?_eq P _ hsteps]
    refine congrArg (Option.map ofNode) (List.find?_congr fun e he => ?_)
    rw [firstAttributeValue?_unprefixed hids ((mem_subtree_first P hx.has).mp he).2.1]

/-! ## Ranks by counting -/

/-- The number of nodes of the tree that come before a node in its document. -/
def treeRank (F : Forest) (n : Node) : UInt32 :=
  UInt32.ofNat ((List.range n.number).countP fun i => F.isTreeNode ⟨n.document, i⟩)

theorem countP_range_lt {p : Nat → Bool} {i j : Nat} (hij : i < j) (hi : p i = true) :
    (List.range i).countP p < (List.range j).countP p := by
  obtain ⟨k, rfl⟩ := Nat.exists_eq_add_of_lt hij
  rw [Nat.add_assoc, List.range_add, List.countP_append]
  have hpos : 0 < ((List.range (k + 1)).map (i + ·)).countP p := by
    rw [List.countP_pos_iff]
    exact ⟨i, List.mem_map.mpr ⟨0, by simp, rfl⟩, hi⟩
  omega

theorem length_ownNodes_lt (P : F.Delivered) (hn : F.Has n) :
    (F.ownNodes n).length < F.size n := by
  have L := P.numbered.linked
  have hstart : (n :: F.ownNodes n).Sublist (F.walkBy F.ownNodes n) := by
    rw [L.walkBy_eq]
    exact List.sublist_append_left _ _
  have hsub : n :: F.ownNodes n ⊆ (List.range (F.size n)).map fun i => { n with number := i } := by
    intro m hm
    have hbelow := (L.mem_walkBy P.attaches_ownNodes).mp (hstart.subset hm)
    have hd := L.document_of_below hbelow
    have hlt := has_of_below hn hbelow
    rw [Has, size_congr hd] at hlt
    exact mem_map_number.mpr ⟨List.mem_range.mpr hlt, hd⟩
  have hlength := ((hstart.nodup (L.nodup_walkBy P.attaches_ownNodes n)).subperm hsub).length_le
  rwa [List.length_cons, List.length_map, List.length_range] at hlength

/-- In documents with few enough nodes the nodes of the trees are ranked by counting them. -/
theorem ranked_treeRank (P : F.Delivered) (hids : (F.documents.toList.map (·.id)).Nodup)
    (hsize : ∀ n, F.size n ≤ 2 ^ 32) : Ranked F (treeRank F) where
  ids := hids
  rank_lt m n hm hn htree _ hd hlt := by
    have hrank {k : Node} (hk : F.Has k) : (treeRank F k).toNat =
        (List.range k.number).countP fun i => F.isTreeNode ⟨k.document, i⟩ := by
      have hcount : ((List.range k.number).countP fun i => F.isTreeNode ⟨k.document, i⟩) ≤
          (List.range k.number).length := List.countP_le_length
      have hsize := hsize k
      rw [List.length_range] at hcount
      rw [treeRank, UInt32.toNat_ofNat']
      exact Nat.mod_eq_of_lt (Nat.lt_of_lt_of_le (Nat.lt_of_le_of_lt hcount hk) hsize)
    rw [UInt32.lt_iff_toNat_lt, hrank hm, hrank hn, hd]
    refine countP_range_lt hlt ?_
    rwa [← hd]
  length_lt n := by
    by_cases hn : F.Has n
    · have hlength := length_ownNodes_lt P hn
      rw [ownNodes, List.length_append] at hlength
      exact Nat.lt_of_lt_of_le hlength (hsize n)
    · rw [Forest.namespaces, Forest.attributes, record_of_not_has hn]
      exact Nat.two_pow_pos 32

/-! ## One document -/

/-- The tags of `<a xmlns:p='urn:p' p:k='x'><b id='x'/></a>`, where `k` may be any local part. -/
def tags (k : String) : List TreeEvent :=
  TreeEvent.opening ⟨none, none, "a"⟩ [("p", "urn:p")] [(⟨some "p", some "urn:p", k⟩, "x")] ++
    TreeEvent.opening ⟨none, none, "b"⟩ [("p", "urn:p")] [(⟨none, none, "id"⟩, "x")] ++ [.close, .close]

theorem layered_tags (k : String) : Layered (tags k).reverse := by
  rw [tags, List.reverse_append, List.reverse_append]
  refine .content .close rfl (.content .close rfl (.element _ _ _ ?_))
  rw [← List.append_nil (List.reverse _)]
  exact .element _ _ _ .nil

/-- The document that a parser makes of the tags. -/
def tagged (k : String) : Forest :=
  ⟨#[{ Document.ofEvents 1 (tags k) with idAttribute := .anyNamespace }]⟩

theorem delivered_tagged (k : String) : (tagged k).Delivered := by
  intro d hd
  obtain rfl := Array.mem_singleton.mp hd
  exact Document.delivered_ofEvents 1 (layered_tags k)

theorem size_tagged (k : String) : (tagged k).size ⟨0, 0⟩ = 7 := rfl

theorem ranked_tagged (k : String) : Ranked (tagged k) (treeRank (tagged k)) := by
  refine ranked_treeRank (delivered_tagged k) (by simp [tagged]) fun n => ?_
  by_cases hn : n.document = 0
  · rw [size_congr (m := n) (n := ⟨0, 0⟩) hn, size_tagged]
    decide
  · have hnone : (tagged k).document? n = none := by simp [document?, tagged, hn]
    rw [size, hnone]
    exact Nat.zero_le _

theorem idsUnprefixed_tagged : IdsUnprefixed (tagged "k") 0 := by
  intro e a hd ha
  have hall : ∀ i < 7, ∀ a ∈ (tagged "k").attributes ⟨0, i⟩,
      ((tagged "k").name? a).any IdAttribute.anyNamespace.accepts = true →
        ((tagged "k").name? a).any IdAttribute.unprefixed.accepts = true := by decide
  have hmem := List.mem_of_find?_eq_some ha
  have haccepts := List.find?_some ha
  have he : (tagged "k").Has e := by
    by_contra he
    have hnone : (tagged "k").attributes e = [] := by
      rw [Forest.attributes, record_of_not_has he]
      rfl
    rw [hnone] at hmem
    cases hmem
  rw [Has, size_congr (n := ⟨0, 0⟩) hd, size_tagged] at he
  have heq : e = ⟨0, e.number⟩ := eq_of_number_eq hd rfl
  rw [heq] at hmem
  exact hall e.number he a hmem haccepts

theorem keepsContract_namespaced :
    (tagged "k").Delivered ∧ Ranked (tagged "k") (treeRank (tagged "k")) ∧
      KeepsContract (tagged "k") (treeRank (tagged "k")) ∧
      Mirrors (tagged "k") (treeRank (tagged "k")) ∧
      (ofNode ⟨0, 0⟩).searchById? (tagged "k") .unprefixed 8 "x" = some (ofNode ⟨0, 4⟩) := by
  have P := delivered_tagged "k"
  have R := ranked_tagged "k"
  obtain ⟨hkeeps, hmirrors⟩ := keepsContract_of_ranked P R
  refine ⟨P, R, hkeeps, hmirrors, ?_⟩
  have hroot : Denotes (tagged "k") (ofNode ⟨0, 0⟩) := ⟨by decide, by decide, rfl⟩
  have hfound := hkeeps.elementById? _ "x" 8 hroot (by decide)
  rw [← hfound.2 idsUnprefixed_tagged]
  decide

/-- Where an attribute `id` in a namespace comes first, the look-up by an id finds its element; the
search for an attribute in no namespace finds another. -/
theorem not_elementById_eq_search :
    ¬∀ (F : Forest) (rank : Node → UInt32), F.Delivered → Ranked F rank →
      ∀ (x : Place) (value : String) (steps : Nat), Denotes F x → F.size x.node < steps →
        x.elementById? F value = x.searchById? F .unprefixed steps value := by
  intro h
  have hroot : Denotes (tagged "id") (ofNode ⟨0, 0⟩) := ⟨by decide, by decide, rfl⟩
  have heq := h _ _ (delivered_tagged "id") (ranked_tagged "id") _ "x" 8 hroot (by decide)
  revert heq
  decide

end Xml.Place

end XPath
