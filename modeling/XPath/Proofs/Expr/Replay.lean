import XPath.Proofs.Expr.Levels
import XPath.Proofs.Lexer.Words

/-!
# Words that are read again elsewhere

A reader of the grammar takes some words and looks at no more than the kind of the word behind
them. So it makes the same of these words elsewhere, in front of a word of the same kind or of one
that ends every operand of its level (`Expr.Replays`).
-/

namespace XPath

open Reader

variable {α β : Type}

namespace Cursor

variable {c d : Cursor} {ls ls' : List Lexeme}

/-- The text ends behind the last token of the cursor. -/
def Whole (c : Cursor) : Prop := ((c.current :: c.rest).getLast (List.cons_ne_nil _ _)).kind = .eof

theorem Passes.whole (h : c.Passes ls d) (hc : c.Whole) : d.Whole := by
  induction ls generalizing c with
  | nil =>
      obtain rfl := h
      exact hc
  | cons l ls ih =>
      obtain ⟨-, t, ts, hrest, h⟩ := h
      refine ih h ?_
      unfold Whole at hc ⊢
      simpa only [hrest, List.getLast_cons_cons] using hc

theorem Passes.length_le (h : c.Passes ls d) : d.rest.length ≤ c.rest.length := by
  have hlength := h.length
  omega

theorem Passes.unique (h : c.Passes ls d) (h' : c.Passes ls' d) : ls = ls' := by
  have hlength : ls.length = ls'.length := by
    have h := h.length
    have h' := h'.length
    omega
  induction ls generalizing c ls' with
  | nil => exact (List.length_eq_zero_iff.mp hlength.symm).symm
  | cons l ls ih =>
      cases ls' with
      | nil => cases hlength
      | cons l' ls' =>
          obtain ⟨rfl, t, ts, hrest, h⟩ := h
          obtain ⟨rfl, t', ts', hrest', h'⟩ := h'
          rw [hrest] at hrest'
          cases hrest'
          rw [ih h h' (Nat.succ.inj hlength)]

/-- A step over a token that does not end the text passes the word of this token. -/
theorem passes_of_step (hc : c.Whole) (hkind : c.current.kind ≠ .eof) (h : c.step = .ok d) :
    c.Passes [c.current.lexeme] d := by
  unfold step at h
  split at h
  · rename_i hrest
    cases h
    exact ⟨rfl, _, _, hrest, rfl⟩
  · cases h
  · rename_i hrest _
    rw [Whole] at hc
    simp only [hrest, List.getLast_singleton] at hc
    exact absurd hc hkind

end Cursor

namespace Expr

/-- An operand of level `n` ends in front of the word: it continues no such operand and begins no
step of a path. -/
def Halts (n : Nat) (k : TokenKind) : Prop :=
  startsStep k = false ∧ ∀ j, continues k = some j → j < n

variable {n : Nat} {k k' : TokenKind}

theorem EndsAt.halts (h : EndsAt n k) : Halts n k := by
  obtain ⟨m, hm, hlt⟩ := h
  refine ⟨?_, fun j hj => ?_⟩
  · cases k <;> first | rfl | cases hm
  · rw [hm] at hj
    cases hj
    exact hlt

theorem Halts.ne (h : Halts n k) {j : Nat} (hk : continues k' = some j) (hle : n ≤ j) :
    k ≠ k' := by
  rintro rfl
  have hlt := h.2 j hk
  omega

/-- What an operand can end with: a word behind which no operand must follow, or a slash that is a
path by itself. -/
def Closes (k : TokenKind) : Prop := k.expectsOperand = false ∨ k = .slash

instance (k : TokenKind) : Decidable (Closes k) := inferInstanceAs (Decidable (_ ∨ _))

variable {l i j room : Nat} {r r' : Reader α} {f f' : α → Reader β} {c : Cursor} {a : α}

/-- The words that `r` takes at `c` are taken by `r'` wherever they stand in front of a word of the
same kind as at `c`, or of one that ends an operand of level `n`, with fewer than `room` words to
come. They are at least `i` words, and the last one closes an operand. -/
def Replays (n i room : Nat) (r r' : Reader α) (c : Cursor) : Prop :=
  c.Whole → ∀ a d, Takes r c a d → ∃ ls, i ≤ ls.length ∧
    (∀ k, Lexer.lastKind ls = some k → Closes k) ∧ c.Passes ls d ∧
    ∀ c' d', c'.rest.length < room → c'.Passes ls d' →
      (d'.current.kind = d.current.kind ∨ Halts n d'.current.kind) → Takes r' c' a d'

namespace Replays

/-! ## Rules -/

theorem of_not_takes (h : ∀ a d, ¬Takes r c a d) : Replays n i room r r' c :=
  fun _ a d hr => absurd hr (h a d)

theorem fault (e : SyntaxFault) : Replays n i room (Reader.fault e) r' c :=
  of_not_takes fun _ _ => not_takes_fault e

theorem faultHere (e : Token → SyntaxFault) : Replays n i room (Reader.faultHere e) r' c :=
  of_not_takes fun _ _ => not_takes_faultHere e

theorem lift (x : Except Error α) : Replays n 0 room (StateT.lift x) (StateT.lift x) c := by
  rintro - a d h
  obtain ⟨hx, rfl⟩ := takes_lift.mp h
  refine ⟨[], Nat.le_refl _, nofun, rfl, fun c' d' _ hpasses _ => ?_⟩
  obtain rfl := hpasses
  exact takes_lift.mpr ⟨hx, rfl⟩

theorem pure (a : α) : Replays n 0 room (Pure.pure a) (Pure.pure a) c := lift (.ok a)

theorem mono (h : Replays n i room r r' c) (hj : j ≤ i) : Replays n j room r r' c := by
  intro hc a d hr
  obtain ⟨ls, hi, hclose, hpasses, hreplay⟩ := h hc a d hr
  exact ⟨ls, hj.trans hi, hclose, hpasses, hreplay⟩

theorem weaken (h : Replays n i room r r' c) : Replays n 0 room r r' c := h.mono (Nat.zero_le _)

theorem narrow {room' : Nat} (h : Replays n i room r r' c) (hroom : room' ≤ room) :
    Replays n i room' r r' c := by
  intro hc a d hr
  obtain ⟨ls, hi, hclose, hpasses, hreplay⟩ := h hc a d hr
  exact ⟨ls, hi, hclose, hpasses, fun c' d' hlt => hreplay c' d' (lt_of_lt_of_le hlt hroom)⟩

/-- Nothing is asked of the other reader if there is no room. -/
theorem of_succ {g : Nat → Reader α} (h : ∀ k, Replays n i (k + 1) r (g (k + 1)) c) :
    ∀ room, Replays n i room r (g room) c
  | 0 => by
      intro hc a d hr
      obtain ⟨ls, hleast, hclose, hpasses, -⟩ := h 0 hc a d hr
      exact ⟨ls, hleast, hclose, hpasses, fun _ _ hroom => absurd hroom (Nat.not_lt_zero _)⟩
  | k + 1 => h k

theorem bind_of_stop (hr : Replays l i room r r' c)
    (hf : ∀ a m, m.rest.length ≤ c.rest.length → Replays n j room (f a) (f' a) m)
    (hstop : 0 < j ∨ l = n) : Replays n (i + j) room (r >>= f) (r' >>= f') c := by
  intro hc b d h
  obtain ⟨a, m, ha, hb⟩ := takes_bind.mp h
  obtain ⟨ls, hi, hclose, hpasses, hreplay⟩ := hr hc a m ha
  obtain ⟨ls', hj, hclose', hpasses', hreplay'⟩ :=
    hf a m hpasses.length_le (hpasses.whole hc) b d hb
  refine ⟨ls ++ ls', ?_, Lexer.lastKind_append hclose hclose',
    Cursor.passes_append.mpr ⟨m, hpasses, hpasses'⟩, fun c' d' hroom hc' hd' => ?_⟩
  · rw [List.length_append]
    omega
  · obtain ⟨m', hm, hm'⟩ := Cursor.passes_append.mp hc'
    have hroom' : m'.rest.length < room := lt_of_le_of_lt hm.length_le hroom
    -- The first reader stops in front of a word of the second one, or where that one stops at once.
    have hkind : m'.current.kind = m.current.kind ∨ Halts l m'.current.kind := by
      obtain _ | ⟨w, ls'⟩ := ls'
      · obtain rfl := hpasses'
        obtain rfl := hm'
        obtain hj' | rfl := hstop
        · exact absurd hj (Nat.not_le_of_lt hj')
        · exact hd'
      · rw [(Cursor.passes_cons hpasses').1, (Cursor.passes_cons hm').1]
        exact .inl rfl
    exact takes_bind.mpr ⟨a, m', hreplay c' m' hroom hm hkind, hreplay' m' d' hroom' hm' hd'⟩

theorem bind (hr : Replays n i room r r' c)
    (hf : ∀ a m, m.rest.length ≤ c.rest.length → Replays n 0 room (f a) (f' a) m) :
    Replays n i room (r >>= f) (r' >>= f') c := bind_of_stop hr hf (.inr rfl)

/-- A reader in front of one that moves on meets the same word everywhere. -/
theorem bindMoving (hr : Replays l i room r r' c)
    (hf : ∀ a m, m.rest.length ≤ c.rest.length → Replays n 1 room (f a) (f' a) m) :
    Replays n 1 room (r >>= f) (r' >>= f') c :=
  (bind_of_stop hr hf (.inl Nat.one_pos)).mono (Nat.le_add_left 1 i)

/-- A loop may be given as many steps as there are words to come. -/
theorem remaining {g g' : Nat → Reader α}
    (h : ∀ k, Replays n i (k + 1) (g c.rest.length) (g' k) c) :
    Replays n i room (Reader.remaining >>= g) (Reader.remaining >>= g') c := by
  intro hc a d hr
  obtain ⟨_, _, hm, hr⟩ := takes_bind.mp hr
  obtain ⟨rfl, rfl⟩ := takes_remaining.mp hm
  obtain ⟨ls, hi, hclose, hpasses, -⟩ := h 0 hc a d hr
  refine ⟨ls, hi, hclose, hpasses, fun c' d' _ hc' hd' => ?_⟩
  obtain ⟨ls', -, -, hpasses', hreplay⟩ := h c'.rest.length hc a d hr
  obtain rfl := hpasses.unique hpasses'
  exact takes_bind.mpr ⟨_, c', takes_remaining.mpr ⟨rfl, rfl⟩,
    hreplay c' d' (Nat.lt_succ_self _) hc' hd'⟩

theorem advance_of_close {f f' : Token → Reader β} (hkind : c.current.kind ≠ .eof)
    (hclose : 0 < i ∨ Closes c.current.kind)
    (hf : ∀ t m, t.value = c.current.value → m.rest.length < c.rest.length →
      Replays n i (room - 1) (f c.current) (f' t) m) :
    Replays n (i + 1) room (Reader.advance >>= f) (Reader.advance >>= f') c := by
  intro hc b d h
  obtain ⟨t, m, ht, hb⟩ := takes_bind.mp h
  obtain ⟨rfl, hstep⟩ := takes_advance.mp ht
  have hpasses := Cursor.passes_of_step hc hkind hstep
  have hlt : m.rest.length < c.rest.length := by
    have hlength := hpasses.length
    rw [List.length_singleton] at hlength
    omega
  obtain ⟨ls, hi, hcloses, hpasses', -⟩ := hf c.current m rfl hlt (hpasses.whole hc) b d hb
  refine ⟨c.current.lexeme :: ls, Nat.succ_le_succ hi, ?_, ?_, fun c' d' hroom hc' hd' => ?_⟩
  · cases ls with
    | nil =>
        obtain hi' | hclose := hclose
        · exact absurd hi (Nat.not_le_of_lt hi')
        · rintro k ⟨⟩
          exact hclose
    | cons l ls => exact hcloses
  · exact Cursor.passes_append.mpr ⟨m, hpasses, hpasses'⟩
  · obtain ⟨hkind', hvalue, m', hstep', hlength, hm'⟩ := Cursor.passes_cons hc'
    obtain ⟨ls', -, -, hpasses'', hreplay⟩ := hf c'.current m hvalue hlt (hpasses.whole hc) b d hb
    obtain rfl := hpasses'.unique hpasses''
    exact takes_over hstep' (hreplay m' d' (by omega) hm' hd')

section

variable {g g' : Token → Reader β} {h h' : TokenKind → Reader β} {b b' : Bool → Reader β} {x : β}

/-- A step over a word in front of more that must be there. -/
theorem advance (hkind : c.current.kind ≠ .eof)
    (hg : ∀ t m, t.value = c.current.value → m.rest.length < c.rest.length →
      Replays n 1 (room - 1) (g c.current) (g' t) m) :
    Replays n 1 room (Reader.advance >>= g) (Reader.advance >>= g') c :=
  (advance_of_close hkind (.inl Nat.one_pos) hg).mono (Nat.le_succ 1)

theorem advance_last (hkind : c.current.kind = k) (hclose : k ≠ .eof ∧ Closes k)
    (hg : ∀ t m, t.value = c.current.value → m.rest.length < c.rest.length →
      Replays n 0 (room - 1) (g c.current) (g' t) m) :
    Replays n 1 room (Reader.advance >>= g) (Reader.advance >>= g') c := by
  subst hkind
  exact advance_of_close hclose.1 (.inr hclose.2) hg

theorem kind (hh : ∀ k, c.current.kind = k → Replays n 1 room (h k) (h' k) c) :
    Replays n 1 room (Reader.kind >>= h) (Reader.kind >>= h') c := by
  intro hc a d hr
  obtain ⟨_, m, hk, hr⟩ := takes_bind.mp hr
  obtain ⟨rfl, hm⟩ := takes_kind.mp hk
  rw [hm] at hr
  obtain ⟨ls, hi, hclose, hpasses, hreplay⟩ := hh _ rfl hc a d hr
  refine ⟨ls, hi, hclose, hpasses, fun c' d' hroom hc' hd' => ?_⟩
  have hkind : c'.current.kind = c.current.kind := by
    obtain _ | ⟨l, ls⟩ := ls
    · cases hi
    · rw [(Cursor.passes_cons hpasses).1, (Cursor.passes_cons hc').1]
  exact takes_at hkind (hreplay c' d' hroom hc' hd')

theorem kind_rest (hh : h c.current.kind = Pure.pure x)
    (hh' : ∀ k, k = c.current.kind ∨ Halts n k → h' k = Pure.pure x) :
    Replays n 0 room (Reader.kind >>= h) (Reader.kind >>= h') c := by
  intro hc a d hr
  obtain ⟨_, _, hk, hr⟩ := takes_bind.mp hr
  obtain ⟨rfl, rfl⟩ := takes_kind.mp hk
  rw [hh] at hr
  obtain ⟨rfl, rfl⟩ := takes_pure.mp hr
  refine ⟨[], Nat.le_refl _, nofun, rfl, fun c' d' _ hc' hd' => ?_⟩
  obtain rfl := hc'
  refine takes_at rfl ?_
  rw [hh' _ hd']
  exact takes_pure.mpr ⟨rfl, rfl⟩

theorem sees_bind (k : TokenKind) : (Reader.sees k >>= b) = (Reader.kind >>= fun j => b (j == k)) :=
  rfl

theorem sees (hb : c.current.kind = k → Replays n 1 room (b true) (b' true) c)
    (hb' : c.current.kind ≠ k → Replays n 1 room (b false) (b' false) c) :
    Replays n 1 room (Reader.sees k >>= b) (Reader.sees k >>= b') c := by
  rw [sees_bind, sees_bind]
  refine kind fun j hj => ?_
  by_cases hjk : j = k
  · rw [beq_iff_eq.mpr hjk]
    exact hb (hj.trans hjk)
  · rw [beq_eq_false_iff_ne.mpr hjk]
    exact hb' (hj ▸ hjk)

/-- A reader that goes on while it sees a word that continues it, or comes to rest. -/
theorem sees_rest {y : Nat} (hy : continues k = some y) (hle : n ≤ y)
    (hb : c.current.kind = k → Replays n 1 room (b true) (b' true) c)
    (hx : b false = Pure.pure x) (hx' : b' false = Pure.pure x) :
    Replays n 0 room (Reader.sees k >>= b) (Reader.sees k >>= b') c := by
  by_cases hk : c.current.kind = k
  · exact (sees hb fun hne => absurd hk hne).weaken
  · rw [sees_bind, sees_bind]
    refine kind_rest (x := x) ?_ fun j hj => ?_
    · rw [beq_eq_false_iff_ne.mpr hk, hx]
    · have hjk : j ≠ k := by
        rintro rfl
        obtain hj | hj := hj
        · exact hk hj.symm
        · exact hj.ne hy hle rfl
      rw [beq_eq_false_iff_ne.mpr hjk, hx']

/-- A step over the word that must be there, which closes an operand. -/
theorem expect (hclose : k ≠ .eof ∧ Closes k)
    (hg : ∀ t m, t.value = c.current.value → m.rest.length < c.rest.length →
      Replays n 0 room (g c.current) (g' t) m) :
    Replays n 1 room (Reader.expect k >>= g) (Reader.expect k >>= g') c := by
  have hbind (g : Token → Reader β) : (Reader.expect k >>= g) = (Reader.sees k >>= fun seen =>
      (if seen = true then Reader.advance else Reader.faultHere (.expected k)) >>= g) := rfl
  rw [hbind, hbind]
  refine sees (fun hk => advance_last hk hclose fun t m ht hm =>
    (hg t m ht hm).narrow (Nat.sub_le room 1)) fun _ => of_not_takes ?_
  intro a d h
  obtain ⟨t, m, ht, -⟩ := takes_bind.mp h
  exact not_takes_faultHere _ ht

end

end Replays

end Expr

end XPath
