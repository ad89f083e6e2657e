import XPath.Proofs.Meaning.Type

/-!
# The reading of an expression

`Expr.reading` computes the meaning of an expression, part by part. It is a meaning of the
expression (`Expr.means_reading`) if the expression calls no function of the host and holds sound
values (`Plain`), is built as the reader and simplification build it (`Regular`), and finds nothing
that comes before or after the empty set (`FalseOnEmpty`).
-/

namespace XPath

variable {F : Forest} {Φ : Calls F} {Γ : Typing}

namespace Expr

variable (F)

mutual

def reading : Expr → Meaning
  | literal v => fun _ => v.outcome F
  | reference _ _ (some v) => fun _ => v.outcome F
  | reference name _ none => .binding F name
  | binary op lhs rhs => fun σ => (lhs.reading σ).binary F op (rhs.reading σ)
  | negate e => fun σ => .number (-(e.reading σ).toNumber F)
  | nodeComparison node op v => fun σ => .boolean ((node.reading σ).compare F op (v.outcome F))
  | contextNode => .oneNode none some
  | parentNode => .oneNode none F.parent?
  | root => .oneNode none fun n => some (F.documentRoot n)
  | attributeNamed name _ parent => .oneNode parent (F.attributeNamed? name)
  | path start axis test predicates => .path F start.reading axis test (readings predicates)
  | filter base predicate => .filter base.reading predicate.reading
  | setOperation op lhs rhs => fun σ => .combine F op (lhs.reading σ) (rhs.reading σ)
  | call function args binding => .call F function (readings args) binding
  | extension .. => fun _ => .nodes []
  | sorted selection _ => selection.reading
  | template parts => .template F (readingsOfParts parts)
  | failure _ => fun _ => .nodes []

def readings : List Expr → List Meaning
  | [] => []
  | e :: rest => e.reading :: readings rest

def readingsOfParts : List TemplatePart → List Meaning
  | [] => []
  | .text text :: rest => (fun _ => .string text) :: readingsOfParts rest
  | .expr e :: rest => e.reading :: readingsOfParts rest

end

def readingOfKey : SortKey → KeyMeaning
  | .mk key order dataType caseOrder lang =>
    { key := key.reading F
      order := order.map (·.reading F)
      dataType := dataType.map (·.reading F)
      caseOrder := caseOrder.map (·.reading F)
      lang := lang.map (·.reading F) }

variable {F}

/-! ## Conditions on every part -/

mutual

/-- The condition holds of the expression and of all its parts. -/
def Every (p : Expr → Prop) : Expr → Prop
  | literal v => p (literal v)
  | reference name display constant => p (reference name display constant)
  | contextNode => p contextNode
  | parentNode => p parentNode
  | root => p root
  | attributeNamed name display parent => p (attributeNamed name display parent)
  | failure error => p (failure error)
  | binary op lhs rhs => p (binary op lhs rhs) ∧ lhs.Every p ∧ rhs.Every p
  | negate e => p (negate e) ∧ e.Every p
  | nodeComparison node op v => p (nodeComparison node op v) ∧ node.Every p
  | path start axis test predicates =>
      p (path start axis test predicates) ∧ start.Every p ∧ EveryOfList p predicates
  | filter base predicate => p (filter base predicate) ∧ base.Every p ∧ predicate.Every p
  | setOperation op lhs rhs => p (setOperation op lhs rhs) ∧ lhs.Every p ∧ rhs.Every p
  | call function args binding => p (call function args binding) ∧ EveryOfList p args
  | extension name display function args =>
      p (extension name display function args) ∧ EveryOfList p args
  | sorted selection keys =>
      p (sorted selection keys) ∧ selection.Every p ∧ EveryOfKeys p keys
  | template parts => p (template parts) ∧ EveryOfParts p parts

def EveryOfList (p : Expr → Prop) : List Expr → Prop
  | [] => True
  | e :: rest => e.Every p ∧ EveryOfList p rest

def EveryOfOption (p : Expr → Prop) : Option Expr → Prop
  | none => True
  | some e => e.Every p

def EveryOfKeys (p : Expr → Prop) : List SortKey → Prop
  | [] => True
  | .mk key order dataType caseOrder lang :: rest => key.Every p ∧ EveryOfOption p order ∧
      EveryOfOption p dataType ∧ EveryOfOption p caseOrder ∧ EveryOfOption p lang ∧
      EveryOfKeys p rest

def EveryOfParts (p : Expr → Prop) : List TemplatePart → Prop
  | [] => True
  | .text _ :: rest => EveryOfParts p rest
  | .expr e :: rest => e.Every p ∧ EveryOfParts p rest

end

mutual

theorem Every.imp₂ {p q r : Expr → Prop} (hr : ∀ e, p e → q e → r e) {e : Expr}
    (hp : e.Every p) (hq : e.Every q) : e.Every r := by
  match e with
  | literal v | reference name display constant | contextNode | parentNode | root
  | attributeNamed name display parent | failure error =>
      rw [Every] at hp hq ⊢
      exact hr _ hp hq
  | binary op lhs rhs | filter lhs rhs | setOperation op lhs rhs =>
      rw [Every] at hp hq ⊢
      exact ⟨hr _ hp.1 hq.1, hp.2.1.imp₂ hr hq.2.1, hp.2.2.imp₂ hr hq.2.2⟩
  | negate e | nodeComparison e op v =>
      rw [Every] at hp hq ⊢
      exact ⟨hr _ hp.1 hq.1, hp.2.imp₂ hr hq.2⟩
  | path start axis test predicates =>
      rw [Every] at hp hq ⊢
      exact ⟨hr _ hp.1 hq.1, hp.2.1.imp₂ hr hq.2.1, EveryOfList.imp₂ hr hp.2.2 hq.2.2⟩
  | call function args binding =>
      rw [Every] at hp hq ⊢
      exact ⟨hr _ hp.1 hq.1, EveryOfList.imp₂ hr hp.2 hq.2⟩
  | extension name display function args =>
      rw [Every] at hp hq ⊢
      exact ⟨hr _ hp.1 hq.1, EveryOfList.imp₂ hr hp.2 hq.2⟩
  | sorted selection keys =>
      rw [Every] at hp hq ⊢
      exact ⟨hr _ hp.1 hq.1, hp.2.1.imp₂ hr hq.2.1, EveryOfKeys.imp₂ hr hp.2.2 hq.2.2⟩
  | template parts =>
      rw [Every] at hp hq ⊢
      exact ⟨hr _ hp.1 hq.1, EveryOfParts.imp₂ hr hp.2 hq.2⟩

theorem EveryOfList.imp₂ {p q r : Expr → Prop} (hr : ∀ e, p e → q e → r e) {es : List Expr}
    (hp : EveryOfList p es) (hq : EveryOfList q es) : EveryOfList r es := by
  match es with
  | [] => trivial
  | e :: es =>
      rw [EveryOfList] at hp hq ⊢
      exact ⟨hp.1.imp₂ hr hq.1, EveryOfList.imp₂ hr hp.2 hq.2⟩

theorem EveryOfOption.imp₂ {p q r : Expr → Prop} (hr : ∀ e, p e → q e → r e)
    {e : Option Expr} (hp : EveryOfOption p e) (hq : EveryOfOption q e) : EveryOfOption r e := by
  match e with
  | none => trivial
  | some e =>
      rw [EveryOfOption] at hp hq ⊢
      exact hp.imp₂ hr hq

theorem EveryOfKeys.imp₂ {p q r : Expr → Prop} (hr : ∀ e, p e → q e → r e)
    {ks : List SortKey} (hp : EveryOfKeys p ks) (hq : EveryOfKeys q ks) : EveryOfKeys r ks := by
  match ks with
  | [] => trivial
  | .mk key order dataType caseOrder lang :: ks =>
      rw [EveryOfKeys] at hp hq ⊢
      exact ⟨hp.1.imp₂ hr hq.1, EveryOfOption.imp₂ hr hp.2.1 hq.2.1,
        EveryOfOption.imp₂ hr hp.2.2.1 hq.2.2.1, EveryOfOption.imp₂ hr hp.2.2.2.1 hq.2.2.2.1,
        EveryOfOption.imp₂ hr hp.2.2.2.2.1 hq.2.2.2.2.1,
        EveryOfKeys.imp₂ hr hp.2.2.2.2.2 hq.2.2.2.2.2⟩

theorem EveryOfParts.imp₂ {p q r : Expr → Prop} (hr : ∀ e, p e → q e → r e)
    {ps : List TemplatePart} (hp : EveryOfParts p ps) (hq : EveryOfParts q ps) :
    EveryOfParts r ps := by
  match ps with
  | [] => trivial
  | .text text :: ps =>
      rw [EveryOfParts] at hp hq ⊢
      exact EveryOfParts.imp₂ hr hp hq
  | .expr e :: ps =>
      rw [EveryOfParts] at hp hq ⊢
      exact ⟨hp.1.imp₂ hr hq.1, EveryOfParts.imp₂ hr hp.2 hq.2⟩

end

/-- No function of the host is called, and the values that are held are sound. -/
def Plain (F : Forest) (Γ : Typing) : Expr → Prop
  | literal v => v.Sound F
  | reference _ _ (some v) => v.Sound F
  | reference name _ none => (Γ name).isSome = true
  | extension .. => False
  | _ => True

/-- Steps test for what is on their axis, only one node is compared with a constant, and what was
captured belongs to the forest. -/
def Regular (F : Forest) : Expr → Prop
  | path _ axis test _ => test.Fits axis
  | nodeComparison node _ v =>
      node.isSingleton = true ∧ (v.dataType = .string ∨ v.dataType = .number)
  | attributeNamed _ _ parent => ∀ n, parent = some n → F.Has n
  | call _ _ binding => binding.Sound F
  | _ => True

/-- A comparison by order with a path, a filter or a set operation is false wherever its left side
comes to the empty set. -/
def FalseOnEmpty (F : Forest) (Γ : Typing) : Expr → Prop
  | binary op lhs rhs => Compares F Γ op rhs (lhs.reading F) (rhs.reading F)
  | _ => True

/-- An expression that has a reading: `Plain`, `Regular` and `FalseOnEmpty` in every part. -/
structure Readable (F : Forest) (Γ : Typing) (e : Expr) : Prop where
  plain : e.Plain F Γ
  regular : e.Regular F
  falseOnEmpty : e.FalseOnEmpty F Γ

mutual

theorem means_reading {inner : Bool} (W : F.WellFormed) (e : Expr) (h : e.Every (Readable F Γ)) :
    e.Means F Φ Γ inner (e.reading F) := by
  match e with
  | literal v | reference _ _ (some v) =>
      rw [Every] at h
      rw [Means]
      exact ⟨_, Value.Sound.denotes W h.plain, by rw [reading]⟩
  | reference name display none =>
      rw [Every] at h
      rw [Means]
      exact ⟨h.plain, by rw [reading]⟩
  | binary op lhs rhs =>
      rw [Every] at h
      rw [Means]
      exact ⟨_, _, means_reading W lhs h.2.1, means_reading W rhs h.2.2, h.1.falseOnEmpty,
        by rw [reading]⟩
  | negate e =>
      rw [Every] at h
      rw [Means]
      exact ⟨_, means_reading W e h.2, by rw [reading]⟩
  | nodeComparison node op v =>
      rw [Every] at h
      rw [Means]
      exact ⟨h.1.regular.1, h.1.regular.2, _, means_reading W node h.2, by rw [reading]⟩
  | contextNode | parentNode | root => rw [Means, reading]
  | attributeNamed name display parent =>
      rw [Every] at h
      rw [Means]
      exact ⟨h.regular, by rw [reading]⟩
  | path start axis test predicates =>
      rw [Every] at h
      rw [Means]
      exact ⟨h.1.regular, _, _, means_reading W start h.2.1, means_readings W predicates h.2.2,
        by rw [reading]⟩
  | filter base predicate =>
      rw [Every] at h
      rw [Means]
      exact ⟨_, _, means_reading W base h.2.1, means_reading W predicate h.2.2, by rw [reading]⟩
  | setOperation op lhs rhs =>
      rw [Every] at h
      rw [Means]
      exact ⟨_, _, means_reading W lhs h.2.1, means_reading W rhs h.2.2, by rw [reading]⟩
  | call function args binding =>
      rw [Every] at h
      rw [Means]
      exact ⟨h.1.regular, _, means_readings W args h.2, by rw [reading]⟩
  | extension .. =>
      rw [Every] at h
      exact h.1.plain.elim
  | sorted selection keys =>
      rw [Every] at h
      rw [Means, reading]
      exact ⟨means_reading W selection h.2.1, _, means_readingsOfKeys W keys h.2.2⟩
  | template parts =>
      rw [Every] at h
      rw [Means]
      exact ⟨_, means_readingsOfParts W parts h.2, by rw [reading]⟩
  | failure e => rw [Means, reading]

theorem means_readings {inner : Bool} (W : F.WellFormed) (es : List Expr)
    (h : EveryOfList (Readable F Γ) es) : MeansList F Φ Γ inner es (readings F es) := by
  match es with
  | [] => rw [MeansList, readings]
  | e :: es =>
      rw [EveryOfList] at h
      rw [MeansList]
      exact ⟨_, _, means_reading W e h.1, means_readings W es h.2, by rw [readings]⟩

theorem means_readingOfOption {inner : Bool} (W : F.WellFormed) (e : Option Expr)
    (h : EveryOfOption (Readable F Γ) e) : MeansOption F Φ Γ inner e (e.map (·.reading F)) := by
  match e with
  | none => rw [MeansOption, Option.map_none]
  | some e =>
      rw [EveryOfOption] at h
      rw [MeansOption]
      exact ⟨_, means_reading W e h, rfl⟩

theorem means_readingsOfKeys {inner : Bool} (W : F.WellFormed) (ks : List SortKey)
    (h : EveryOfKeys (Readable F Γ) ks) : MeansKeys F Φ Γ inner ks (ks.map (readingOfKey F)) := by
  match ks with
  | [] => rw [MeansKeys, List.map_nil]
  | .mk key order dataType caseOrder lang :: ks =>
      rw [EveryOfKeys] at h
      obtain ⟨hkey, horder, htype, hcase, hlang, hks⟩ := h
      rw [MeansKeys]
      refine ⟨_, _, ?_, means_readingsOfKeys W ks hks, List.map_cons⟩
      rw [MeansKey]
      exact ⟨means_reading W key hkey, means_readingOfOption W order horder,
        means_readingOfOption W dataType htype, means_readingOfOption W caseOrder hcase,
        means_readingOfOption W lang hlang⟩

theorem means_readingsOfParts {inner : Bool} (W : F.WellFormed) (ps : List TemplatePart)
    (h : EveryOfParts (Readable F Γ) ps) : MeansParts F Φ Γ inner ps (readingsOfParts F ps) := by
  match ps with
  | [] => rw [MeansParts, readingsOfParts]
  | .text text :: ps =>
      rw [EveryOfParts] at h
      rw [MeansParts]
      exact ⟨_, _, by rw [MeansPart], means_readingsOfParts W ps h, by rw [readingsOfParts]⟩
  | .expr e :: ps =>
      rw [EveryOfParts] at h
      rw [MeansParts]
      refine ⟨_, _, ?_, means_readingsOfParts W ps h.2, by rw [readingsOfParts]⟩
      rw [MeansPart]
      exact means_reading W e h.1

end

end Expr

end XPath
