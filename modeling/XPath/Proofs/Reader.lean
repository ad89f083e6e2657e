import XPath.Cursor
import XPath.Proofs.Result

/-!
# Runs of readers

What a reader makes at a cursor and where it leaves it (`Reader.Takes`). A reader follows another
one if it makes all that the other one makes (`Reader.Follows`); no reader of the grammar leaves
the tokens that it was given, so the same relation says where the cursor ends up.
-/

namespace XPath

variable {α β : Type}

namespace Cursor

/-- The cursor `d` stands on or behind the cursor `c`. -/
def Behind (d c : Cursor) : Prop := d.current :: d.rest <:+ c.current :: c.rest

def Ends (c : Cursor) : Prop := ∃ t ∈ c.current :: c.rest, t.kind = .eof

variable {b c d : Cursor}

theorem Behind.refl (c : Cursor) : c.Behind c := List.suffix_rfl

theorem Behind.trans (hd : d.Behind c) (hc : c.Behind b) : d.Behind b := List.IsSuffix.trans hd hc

theorem Behind.ends (hd : d.Behind c) (h : d.Ends) : c.Ends := by
  obtain ⟨t, ht, hkind⟩ := h
  exact ⟨t, hd.subset ht, hkind⟩

theorem Behind.length_le (hd : d.Behind c) : d.rest.length ≤ c.rest.length := by
  have hle := List.IsSuffix.length_le hd
  simpa using hle

theorem behind_step (h : c.step = .ok d) : d.Behind c := by
  unfold step at h
  split at h
  · rename_i hrest
    cases h
    exact ⟨[c.current], by simp [hrest]⟩
  · cases h
  · cases h
    exact .refl _

/-- A step over a token that does not end the text leaves one token less. -/
theorem length_step (h : c.step = .ok d) (hends : d.Ends) (hkind : c.current.kind ≠ .eof) :
    d.rest.length < c.rest.length := by
  unfold step at h
  split at h
  · rename_i hrest
    cases h
    simp [hrest]
  · cases h
  · rename_i hrest _
    cases h
    obtain ⟨t, ht, heof⟩ := hends
    rw [hrest, List.mem_singleton] at ht
    exact absurd (ht ▸ heof) hkind

end Cursor

namespace Reader

variable {r r' : Reader α} {f g : α → Reader β} {a : α} {b : β} {c d : Cursor} {k : TokenKind}

/-- At `c` the reader makes `a` and leaves the cursor at `d`. -/
def Takes (r : Reader α) (c : Cursor) (a : α) (d : Cursor) : Prop := StateT.run r c = .ok (a, d)

theorem takes_bind : Takes (r >>= f) c b d ↔ ∃ a m, Takes r c a m ∧ Takes (f a) m b d := by
  unfold Takes
  rw [StateT.run_bind, bind_eq_ok]
  exact Prod.exists

theorem takes_pure {a' : α} : Takes (pure a) c a' d ↔ a' = a ∧ d = c := by
  unfold Takes
  rw [StateT.run_pure, pure_eq_ok, Prod.mk.injEq]
  exact and_congr eq_comm eq_comm

theorem not_takes_throw (e : Error) : ¬Takes (throw e : Reader α) c a d := by
  rintro ⟨⟩

theorem not_takes_fault (e : SyntaxFault) : ¬Takes (fault e : Reader α) c a d := by
  rintro ⟨⟩

theorem not_takes_faultHere (e : Token → SyntaxFault) : ¬Takes (faultHere e : Reader α) c a d := by
  rintro ⟨⟩

theorem takes_lift {x : Except Error α} : Takes (StateT.lift x) c a d ↔ x = .ok a ∧ d = c := by
  unfold Takes
  cases x with
  | error e => simp [StateT.lift, StateT.run]
  | ok a' => simp [StateT.lift, StateT.run, eq_comm]

theorem takes_kind : Takes kind c k d ↔ k = c.current.kind ∧ d = c := by
  constructor
  · rintro ⟨⟩
    exact ⟨rfl, rfl⟩
  · rintro ⟨rfl, rfl⟩
    rfl

theorem takes_sees {seen : Bool} :
    Takes (sees k) c seen d ↔ seen = (c.current.kind == k) ∧ d = c := by
  constructor
  · rintro ⟨⟩
    exact ⟨rfl, rfl⟩
  · rintro ⟨rfl, rfl⟩
    rfl

theorem takes_remaining {length : Nat} :
    Takes remaining c length d ↔ length = c.rest.length ∧ d = c := by
  constructor
  · rintro ⟨⟩
    exact ⟨rfl, rfl⟩
  · rintro ⟨rfl, rfl⟩
    rfl

theorem takes_advance {t : Token} : Takes advance c t d ↔ t = c.current ∧ c.step = .ok d := by
  have hrun : StateT.run advance c = c.step.map fun m => (c.current, m) := by
    change (c.step >>= fun m => pure (m, c)) >>= _ = _
    cases c.step <;> rfl
  rw [Takes, hrun, map_eq_ok]
  simp [eq_comm, and_comm]

theorem takes_expect {t : Token} :
    Takes (expect k) c t d ↔ c.current.kind = k ∧ t = c.current ∧ c.step = .ok d := by
  unfold expect
  simp only [takes_bind, takes_sees]
  constructor
  · rintro ⟨seen, m, ⟨rfl, rfl⟩, h⟩
    split at h
    · rename_i hkind
      exact ⟨eq_of_beq hkind, takes_advance.mp h⟩
    · exact absurd h (not_takes_faultHere _)
  · rintro ⟨hkind, h⟩
    refine ⟨true, c, ⟨by simp [hkind], rfl⟩, ?_⟩
    simpa using takes_advance.mpr h

theorem takes_at {f : TokenKind → Reader α} (hkind : c.current.kind = k)
    (h : Takes (f k) c a d) : Takes (kind >>= f) c a d := by
  subst hkind
  exact takes_bind.mpr ⟨_, c, takes_kind.mpr ⟨rfl, rfl⟩, h⟩

theorem takes_over {f : Token → Reader α} {m : Cursor} (hstep : c.step = .ok m)
    (h : Takes (f c.current) m a d) : Takes (advance >>= f) c a d :=
  takes_bind.mpr ⟨_, m, takes_advance.mpr ⟨rfl, hstep⟩, h⟩

/-! ## Whole texts -/

variable {source : String} {t : Token} {ts : List Token}

theorem start_of_tokens (h : Lexer.tokens source = (t :: ts, none)) :
    Cursor.start source = .ok ⟨source, t, ts, none⟩ := by
  rw [Cursor.start, h]

/-- A reader makes a result of a text if it takes all its tokens. -/
theorem run_eq_ok : r.run source = .ok a ↔
    ∃ c d, Cursor.start source = .ok c ∧ Takes r c a d ∧ d.current.kind = .eof := by
  unfold run Takes
  constructor
  · intro h
    obtain ⟨c, hstart, h⟩ := bind_eq_ok.mp h
    obtain ⟨⟨a', d⟩, hr, h⟩ := bind_eq_ok.mp h
    dsimp only at h
    split at h
    · rename_i hd
      cases h
      exact ⟨c, d, hstart, hr, hd⟩
    · cases h
  · rintro ⟨c, d, hstart, hr, hd⟩
    rw [hstart, ok_bind, hr, ok_bind]
    dsimp only
    rw [if_pos hd]
    rfl

/-! ## Readers that follow others -/

/-- What `r` makes, `r'` makes too, and the cursor is not moved back. -/
def Follows (r r' : Reader α) : Prop :=
  ∀ c a d, Takes r c a d → Takes r' c a d ∧ d.Behind c

namespace Follows

variable {f' : α → Reader β}

theorem behind (h : Follows r r') (hr : Takes r c a d) : d.Behind c := (h c a d hr).2

theorem takes (h : Follows r r') (hr : Takes r c a d) : Takes r' c a d := (h c a d hr).1

theorem bind (hr : Follows r r') (hf : ∀ a, Follows (f a) (f' a)) :
    Follows (r >>= f) (r' >>= f') := by
  intro c b d h
  obtain ⟨a, m, ha, hb⟩ := takes_bind.mp h
  exact ⟨takes_bind.mpr ⟨a, m, hr.takes ha, (hf a).takes hb⟩,
    ((hf a).behind hb).trans (hr.behind ha)⟩

theorem of_still (h : ∀ {c a d}, Takes r c a d → d = c) : Follows r r := by
  intro c a d hr
  obtain rfl := h hr
  exact ⟨hr, .refl _⟩

theorem pure (a : α) : Follows (Pure.pure a) (Pure.pure a) := of_still fun h => (takes_pure.mp h).2

theorem lift (x : Except Error α) : Follows (StateT.lift x) (StateT.lift x) :=
  of_still fun h => (takes_lift.mp h).2

theorem kind : Follows kind kind := of_still fun h => (takes_kind.mp h).2

theorem sees (k : TokenKind) : Follows (sees k) (sees k) := of_still fun h => (takes_sees.mp h).2

theorem remaining : Follows remaining remaining := of_still fun h => (takes_remaining.mp h).2

theorem throw (e : Error) (r' : Reader α) : Follows (MonadExcept.throw e) r' :=
  fun _ _ _ h => absurd h (not_takes_throw e)

theorem fault (e : SyntaxFault) (r' : Reader α) : Follows (Reader.fault e) r' :=
  fun _ _ _ h => absurd h (not_takes_fault e)

theorem faultHere (e : Token → SyntaxFault) (r' : Reader α) : Follows (Reader.faultHere e) r' :=
  fun _ _ _ h => absurd h (not_takes_faultHere e)

theorem advance : Follows advance advance := fun _ _ _ h =>
  ⟨h, Cursor.behind_step (takes_advance.mp h).2⟩

theorem expect (k : TokenKind) : Follows (expect k) (expect k) := fun _ _ _ h =>
  ⟨h, Cursor.behind_step (takes_expect.mp h).2.2⟩

end Follows

end Reader

end XPath
