import Mathlib.Data.List.Forall2
import XPath.Error

/-!
# Results of computations that can fail

What a computation in steps needs to come to a result, and two relations between computations: `x`
refines `y` if `y` comes to every result that `x` comes to, whatever else `y` does; the two agree if
they do not come to different results. `Returns` says what holds of a result, and `Ends` says that and
what holds of an error.
-/

namespace XPath

variable {α β γ : Type} {x y : Except Error α} {f g : α → Except Error β} {a : α} {b : β}

@[simp] theorem bind_eq_ok : (x >>= f) = .ok b ↔ ∃ a, x = .ok a ∧ f a = .ok b := by
  cases x with
  | error e =>
      constructor
      · intro h
        cases h
      · rintro ⟨a, h, -⟩
        cases h
  | ok a =>
      constructor
      · exact fun h => ⟨a, rfl, h⟩
      · rintro ⟨a', h, h'⟩
        cases h
        exact h'

@[simp] theorem map_eq_ok {h : α → β} : x.map h = .ok b ↔ ∃ a, x = .ok a ∧ h a = b := by
  cases x <;> simp [Except.map]

@[simp] theorem functor_map_eq_ok {h : α → β} : (h <$> x) = .ok b ↔ ∃ a, x = .ok a ∧ h a = b :=
  map_eq_ok

@[simp] theorem pure_eq_ok {a' : α} : (pure a : Except Error α) = .ok a' ↔ a = a' := by
  simp [pure, Except.pure]

@[simp] theorem throw_ne_ok {e : Error} : ¬(throw e : Except Error α) = .ok a := by
  simp [throw, throwThe, MonadExceptOf.throw]

@[simp] theorem error_bind {e : Error} : ((.error e : Except Error α) >>= f) = .error e := rfl

@[simp] theorem ok_bind : ((.ok a : Except Error α) >>= f) = f a := rfl

theorem bind_congr_of_ok {y : Except Error α} (hx : x = y) (hf : ∀ a, x = .ok a → f a = g a) :
    x >>= f = y >>= g := by
  subst hx
  cases x with
  | error e => rfl
  | ok a => exact hf a rfl

theorem toOption_eq_some : x.toOption = some a ↔ x = .ok a := by
  cases x <;> simp [Except.toOption]

/-! ## Results without their errors -/

@[simp] theorem toOption_pure : (pure a : Except Error α).toOption = some a := rfl

@[simp] theorem toOption_ok : (.ok a : Except Error α).toOption = some a := rfl

@[simp] theorem toOption_error (e : Error) : (.error e : Except Error α).toOption = none := rfl

@[simp] theorem toOption_bind :
    (x >>= f).toOption = x.toOption.bind fun a => (f a).toOption := by
  cases x <;> rfl

@[simp] theorem toOption_map (h : α → β) : (x.map h).toOption = x.toOption.map h := by
  cases x <;> rfl

@[simp] theorem toOption_functor_map (h : α → β) : (h <$> x).toOption = x.toOption.map h :=
  toOption_map h

@[simp] theorem toOption_mapM (f : α → Except Error β) (xs : List α) :
    (xs.mapM f).toOption = xs.mapM fun x => (f x).toOption := by
  induction xs with
  | nil => rfl
  | cons x xs ih =>
      simp only [List.mapM_cons, toOption_bind, toOption_pure, ih]
      rfl

/-! ## One computation that does what another does -/

def Refines (x y : Except Error α) : Prop := ∀ a, x = .ok a → y = .ok a

namespace Refines

theorem refl (x : Except Error α) : Refines x x := fun _ h => h

theorem error (e : Error) (y : Except Error α) : Refines (.error e) y := by
  intro a h
  cases h

theorem bind {x' : Except Error α} (hx : Refines x x') (hf : ∀ a, Refines (f a) (g a)) :
    Refines (x >>= f) (x' >>= g) := by
  intro b h
  obtain ⟨a, ha, hb⟩ := bind_eq_ok.mp h
  exact bind_eq_ok.mpr ⟨a, hx a ha, hf a b hb⟩

theorem map {x' : Except Error α} (hx : Refines x x') (h : α → β) :
    Refines (x.map h) (x'.map h) := by
  intro b hb
  obtain ⟨a, ha, hab⟩ := map_eq_ok.mp hb
  exact map_eq_ok.mpr ⟨a, hx a ha, hab⟩

theorem ite {x' z z' : Except Error α} (p : Prop) [Decidable p] (hx : Refines x x')
    (hz : Refines z z') : Refines (if p then x else z) (if p then x' else z') := by
  split
  · exact hx
  · exact hz

end Refines

/-! ## Computations that agree -/

/-- The two computations do not come to different results. -/
def Agree (x y : Except Error α) : Prop := ∀ a b, x = .ok a → y = .ok b → a = b

theorem Agree.of_eq (hx : ∀ b, x = .ok b → b = a) (hy : ∀ b, y = .ok b → b = a) : Agree x y :=
  fun b b' hb hb' => (hx b hb).trans (hy b' hb').symm

/-! ## What holds of a result -/

/-- If `x` comes to a result, then `P` holds of it. -/
def Returns (P : α → Prop) (x : Except Error α) : Prop := ∀ a, x = .ok a → P a

namespace Returns

variable {P : α → Prop} {Q : β → Prop}

theorem pure (h : P a) : Returns P (Pure.pure a) := by
  rintro _ ⟨rfl⟩
  exact h

theorem error (e : Error) : Returns P (.error e) := by
  rintro _ ⟨⟩

theorem bind (hx : Returns P x) (hf : ∀ a, P a → Returns Q (f a)) : Returns Q (x >>= f) := by
  intro b hb
  obtain ⟨a, ha, hb⟩ := bind_eq_ok.mp hb
  exact hf a (hx a ha) b hb

theorem after (hf : ∀ a, Returns Q (f a)) : Returns Q (x >>= f) := by
  intro b hb
  obtain ⟨a, -, hb⟩ := bind_eq_ok.mp hb
  exact hf a b hb

theorem map {h : α → β} (hh : ∀ a, Q (h a)) : Returns Q (x.map h) := by
  intro b hb
  obtain ⟨a, -, rfl⟩ := map_eq_ok.mp hb
  exact hh a

end Returns

/-! ## What holds of a result and of an error -/

/-- `x` comes to a result of which `P` holds, or fails with an error of which `Q` holds. -/
def Ends (Q : Error → Prop) (P : α → Prop) : Except Error α → Prop
  | .ok a => P a
  | .error e => Q e

namespace Ends

variable {Q : Error → Prop} {P P' : α → Prop} {R : β → Prop}

theorem of_ok (h : Ends Q P x) (hx : x = .ok a) : P a := by
  subst hx
  exact h

theorem of_error {e : Error} (h : Ends Q P x) (hx : x = .error e) : Q e := by
  subst hx
  exact h

theorem pure (h : P a) : Ends Q P (Pure.pure a) := h

theorem mono (hx : Ends Q P x) (h : ∀ a, x = .ok a → P a → P' a) : Ends Q P' x := by
  cases x with
  | error e => exact hx
  | ok a => exact h a rfl hx

theorem bind (hx : Ends Q P x) (hf : ∀ a, x = .ok a → P a → Ends Q R (f a)) : Ends Q R (x >>= f) := by
  cases x with
  | error e => exact hx
  | ok a => exact hf a rfl hx

theorem map {g : α → β} (hx : Ends Q P x) (hg : ∀ a, P a → R (g a)) : Ends Q R (x.map g) := by
  cases x with
  | error e => exact hx
  | ok a => exact hg a hx

theorem mapM {as : List α} (h : ∀ a ∈ as, Ends Q R (f a)) :
    Ends Q (fun bs : List β => ∀ b ∈ bs, R b) (as.mapM f) := by
  induction as with
  | nil =>
      rw [List.mapM_nil]
      exact pure (by simp)
  | cons a as ih =>
      rw [List.mapM_cons]
      refine (h a List.mem_cons_self).bind fun b _ hb => ?_
      refine (ih fun a ha => h a (List.mem_cons_of_mem _ ha)).bind fun bs _ hbs => ?_
      exact pure (by simpa using ⟨hb, hbs⟩)

end Ends

theorem mapM_eq_ok {as : List α} {bs : List β} :
    as.mapM f = .ok bs ↔ List.Forall₂ (fun a b => f a = .ok b) as bs := by
  induction as generalizing bs with
  | nil =>
      rw [List.mapM_nil, pure_eq_ok]
      cases bs <;> simp
  | cons a as ih =>
      simp only [List.mapM_cons, bind_eq_ok, pure_eq_ok]
      constructor
      · rintro ⟨b, hb, bs', hbs, rfl⟩
        exact .cons hb (ih.mp hbs)
      · intro h
        cases h with
        | cons hb hbs => exact ⟨_, hb, _, ih.mpr hbs, rfl⟩

theorem eq_map_of_mapM {as : List α} {bs : List β} {g : α → β} (h : as.mapM f = .ok bs)
    (hg : ∀ a ∈ as, ∀ b, f a = .ok b → b = g a) : bs = as.map g := by
  have hall := mapM_eq_ok.mp h
  clear h
  induction hall with
  | nil => rfl
  | cons hab _ ih =>
      rw [List.map_cons, hg _ List.mem_cons_self _ hab,
        ih fun a ha => hg a (List.mem_cons_of_mem _ ha)]

theorem mapM_congr {as : List α} (h : ∀ a ∈ as, f a = g a) : as.mapM f = as.mapM g := by
  induction as with
  | nil => rfl
  | cons a as ih =>
      rw [List.mapM_cons, List.mapM_cons, h a List.mem_cons_self,
        ih fun b hb => h b (List.mem_cons_of_mem _ hb)]

/-- Every result of a list of computations is the result of one of them. -/
theorem exists_of_mapM_eq_ok {as : List α} {bs : List β} (h : as.mapM f = .ok bs) (hb : b ∈ bs) :
    ∃ a, f a = .ok b := by
  have hall := mapM_eq_ok.mp h
  clear h
  induction hall with
  | nil => simp at hb
  | cons hab _ ih =>
      rcases List.mem_cons.mp hb with rfl | hb
      · exact ⟨_, hab⟩
      · exact ih hb

end XPath
