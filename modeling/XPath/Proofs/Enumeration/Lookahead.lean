import XPath.Lookahead

/-!
# Questions about the length change no reading

A reader asks for the next node and for the length of the list in any order. The nodes still to come
are those of the reservoir and then those of the base (`Lookahead.Serves`), which every call keeps.
So the next node is the next one of the list whatever was asked before, and the length is that of
the whole list. The first question leaves no node in the base, and no later question reads it
(`Lookahead.run_transparent`).
-/

namespace XPath.Lookahead

inductive Call
  | next
  | lastPosition
  deriving DecidableEq, Repr

/-- A call with its answer. Of a question for the length, the count of readings it took from the
base is kept too. -/
inductive Event
  | next (answer : Reading)
  | lastPosition (answer : Except Error Nat) (taken : Nat)

def call (s : Lookahead) : Call → Event × Lookahead
  | .next => (.next s.next.1, s.next.2)
  | .lastPosition =>
    (.lastPosition s.lastPosition.1 (s.base.length - s.lastPosition.2.base.length),
      s.lastPosition.2)

def run : List Call → Lookahead → List Event
  | [], _ => []
  | c :: calls, s => (s.call c).1 :: run calls (s.call c).2

/-- What the calls for the next node came back with. -/
def readings : List Event → List Reading
  | [] => []
  | .next r :: events => r :: readings events
  | .lastPosition _ _ :: events => readings events

def lengths : List Event → List (Except Error Nat × Nat)
  | [] => []
  | .next _ :: events => lengths events
  | .lastPosition n taken :: events => (n, taken) :: lengths events

/-- The readings of a list of nodes whose end is met `ends` times. -/
def passing (nodes : List Node) (ends : Nat) : List Reading :=
  nodes.map (fun n => some (.ok n)) ++ List.replicate ends none

/-- Of the list `nodes`, those in `given` were handed out, and those in `ahead` are in the base. -/
structure Serves (nodes given ahead : List Node) (ends : Nat) (s : Lookahead) : Prop where
  delivered : s.delivered = given.length
  base : s.base = passing ahead ends
  nodes_eq : nodes = given ++ (s.reservoir ++ ahead)
  unasked : s.length = none → s.reservoir = []
  asked : ∀ n, s.length = some n → n = nodes.length ∧ ahead = []

variable {nodes given ahead : List Node} {ends : Nat} {s : Lookahead} {e : Enumeration}

theorem drain_passing (nodes : List Node) (ends : Nat) :
    drain (passing nodes ends) = (.ok nodes, passing [] (ends - 1)) := by
  induction nodes with
  | nil => cases ends <;> rfl
  | cons n nodes ih =>
    have hcons : passing (n :: nodes) ends = some (.ok n) :: passing nodes ends := rfl
    rw [hcons, drain, ih]
    rfl

theorem serves_start (hitems : e.items = nodes.map .ok) (hbeyond : ∀ r ∈ e.beyond, r = none) :
    Serves nodes [] nodes (e.beyond.length + 1) (start e) where
  delivered := rfl
  base := by
    have hends : e.beyond.map (·.map .error) =
        List.replicate e.beyond.length (none : Reading) := by
      refine List.eq_replicate_iff.mpr ⟨by simp, ?_⟩
      simp only [List.mem_map]
      rintro _ ⟨r, hr, rfl⟩
      rw [hbeyond r hr]
      rfl
    simp only [start, Enumeration.readings, hitems, hends, passing, List.map_map,
      List.replicate_succ]
    rfl
  nodes_eq := rfl
  unasked := fun _ => rfl
  asked := by simp [start]

/-- A call for the next node gets the next one of the list, or the end behind all of them. -/
theorem Serves.next (h : Serves nodes given ahead ends s) :
    (∃ n ahead, s.next.1 = some (.ok n) ∧ Serves nodes (given ++ [n]) ahead ends s.next.2) ∨
      s.next.1 = none ∧ given = nodes ∧ Serves nodes given [] (ends - 1) s.next.2 := by
  obtain ⟨base, reservoir, delivered, length⟩ := s
  obtain ⟨rfl, rfl, rfl, hunasked, hasked⟩ := h
  cases reservoir with
  | cons n reservoir =>
    have hlength : length ≠ none := fun hnone => nomatch hunasked hnone
    exact .inl ⟨n, ahead, rfl, by simp [Lookahead.next], rfl, by simp [Lookahead.next],
      fun hnone => absurd hnone hlength, hasked⟩
  | nil =>
    cases ahead with
    | cons n ahead =>
      have hlength : ∀ m, length ≠ some m := fun m hsome => nomatch (hasked m hsome).2
      exact .inl ⟨n, ahead, rfl, by simp [Lookahead.next, passing], rfl, by
        simp [Lookahead.next, passing], fun _ => rfl, fun m hsome => absurd hsome (hlength m)⟩
    | nil =>
      refine .inr ?_
      cases ends with
      | zero => exact ⟨rfl, by simp, rfl, rfl, rfl, fun _ => rfl, hasked⟩
      | succ ends => exact ⟨rfl, by simp, rfl, rfl, rfl, fun _ => rfl, hasked⟩

/-- The length is that of the whole list, and is known from then on. -/
theorem Serves.lastPosition (h : Serves nodes given ahead ends s) :
    s.lastPosition.1 = .ok nodes.length ∧ s.lastPosition.2.length = some nodes.length ∧
      ∃ ends, Serves nodes given [] ends s.lastPosition.2 := by
  cases hlength : s.length with
  | some n =>
    obtain ⟨rfl, rfl⟩ := h.asked n hlength
    have hlast : s.lastPosition = (.ok nodes.length, s) := by
      rw [Lookahead.lastPosition]
      simp only [hlength]
    rw [hlast]
    exact ⟨rfl, hlength, ends, h⟩
  | none =>
    have hreservoir := h.unasked hlength
    have hcount : s.delivered + s.reservoir.length + ahead.length = nodes.length := by
      rw [h.delivered, h.nodes_eq]
      simp only [List.length_append]
      omega
    have hlast : s.lastPosition = (.ok nodes.length, { s with
        base := passing [] (ends - 1)
        reservoir := s.reservoir ++ ahead
        length := some nodes.length }) := by
      rw [Lookahead.lastPosition]
      simp only [hlength, h.base, drain_passing, hcount]
    rw [hlast]
    refine ⟨rfl, rfl, ends - 1, h.delivered, rfl, ?_, nofun, ?_⟩
    · simpa using h.nodes_eq
    · rintro n ⟨⟩
      exact ⟨rfl, rfl⟩

theorem next_length (s : Lookahead) : s.next.2.length = s.length := by
  rw [Lookahead.next]
  split <;> rfl

theorem lastPosition_of_known {n : Nat} (h : s.length = some n) : s.lastPosition.2 = s := by
  rw [Lookahead.lastPosition]
  simp only [h]

theorem Serves.readings_run (h : Serves nodes given ahead ends s) (calls : List Call) :
    ∃ more past, readings (run calls s) = passing more past ∧ given ++ more <+: nodes ∧
      (0 < past → given ++ more = nodes) := by
  induction calls generalizing given ahead ends s with
  | nil => exact ⟨[], 0, rfl, by simp [h.nodes_eq], fun hpast => absurd hpast (by simp)⟩
  | cons c calls ih =>
    cases c with
    | lastPosition =>
      obtain ⟨-, -, ends, hserves⟩ := h.lastPosition
      exact ih hserves
    | next =>
      obtain ⟨n, ahead, hread, hserves⟩ | ⟨hread, rfl, hserves⟩ := h.next
      · obtain ⟨more, past, hmore, hpre, hend⟩ := ih hserves
        refine ⟨n :: more, past, ?_, by simpa using hpre, by simpa using hend⟩
        simp only [run, call, readings, hread, hmore]
        rfl
      · -- Behind the end no node is left to be handed out.
        obtain ⟨more, past, hmore, hpre, -⟩ := ih hserves
        have hnil : more = [] := by
          have hlength := hpre.length_le
          exact List.length_eq_zero_iff.mp (by rw [List.length_append] at hlength; omega)
        subst hnil
        refine ⟨[], past + 1, ?_, hpre, fun _ => List.append_nil _⟩
        simp only [run, call, readings, hread, hmore]
        rfl

theorem Serves.lengths_run (h : Serves nodes given ahead ends s) (calls : List Call) :
    ∀ answer ∈ lengths (run calls s), answer.1 = .ok nodes.length := by
  induction calls generalizing given ahead ends s with
  | nil => simp [run, lengths]
  | cons c calls ih =>
    cases c with
    | next =>
      obtain ⟨n, ahead, -, hserves⟩ | ⟨-, -, hserves⟩ := h.next
      · exact ih hserves
      · exact ih hserves
    | lastPosition =>
      obtain ⟨hanswer, -, ends, hserves⟩ := h.lastPosition
      simp only [run, call, lengths, List.mem_cons, forall_eq_or_imp]
      exact ⟨hanswer, ih hserves⟩

def drains (events : List Event) : List (Except Error Nat × Nat) :=
  (lengths events).filter fun answer => 0 < answer.2

theorem drains_of_known {n : Nat} (hlength : s.length = some n) (calls : List Call) :
    drains (run calls s) = [] := by
  induction calls generalizing s with
  | nil => rfl
  | cons c calls ih =>
    cases c with
    | next => exact ih ((next_length s).trans hlength)
    | lastPosition =>
      have hstate := lastPosition_of_known hlength
      have hrest := ih hlength
      simp only [drains] at hrest ⊢
      simp [run, call, lengths, hstate, hrest]

theorem Serves.drains_run (h : Serves nodes given ahead ends s) (calls : List Call) :
    (drains (run calls s)).length ≤ 1 := by
  induction calls generalizing given ahead ends s with
  | nil => simp [run, drains, lengths]
  | cons c calls ih =>
    cases c with
    | next =>
      obtain ⟨n, ahead, -, hserves⟩ | ⟨-, -, hserves⟩ := h.next
      · exact ih hserves
      · exact ih hserves
    | lastPosition =>
      obtain ⟨-, hknown, -⟩ := h.lastPosition
      have hrest := drains_of_known hknown calls
      simp only [drains] at hrest ⊢
      simp only [run, call, lengths, List.filter_cons, hrest]
      split <;> simp

/-- Over a list of nodes without errors, whatever the order of the calls: those for the next node
hand out a first part of the list, and all of it before they report the end; each question for the
length is answered with the length of the whole list; and at most one of them reads the base. -/
theorem run_transparent (hitems : e.items = nodes.map .ok) (hbeyond : ∀ r ∈ e.beyond, r = none)
    (calls : List Call) :
    (∃ given past, readings (run calls (start e)) =
        given.map (fun n => some (.ok n)) ++ List.replicate past none ∧
      given <+: nodes ∧ (0 < past → given = nodes)) ∧
      (∀ answer ∈ lengths (run calls (start e)), answer.1 = .ok nodes.length) ∧
      ((lengths (run calls (start e))).filter fun answer => 0 < answer.2).length ≤ 1 := by
  have hserves := serves_start hitems hbeyond
  exact ⟨hserves.readings_run calls, hserves.lengths_run calls, hserves.drains_run calls⟩

def threeNodes : Enumeration :=
  { Enumeration.ofNodes [⟨0, 1⟩, ⟨0, 6⟩, ⟨0, 8⟩] true false with beyond := [none] }

/-- The length is asked for before the end, at once again, and behind the end. -/
def interleaved : List Call :=
  [.next, .lastPosition, .lastPosition, .next, .next, .next, .lastPosition, .next]

theorem run_transparent_interleaved :
    readings (run interleaved (start threeNodes)) =
        [some (.ok ⟨0, 1⟩), some (.ok ⟨0, 6⟩), some (.ok ⟨0, 8⟩), none, none] ∧
      (∀ answer ∈ lengths (run interleaved (start threeNodes)), answer.1 = .ok 3) ∧
      ((lengths (run interleaved (start threeNodes))).filter
        fun answer => 0 < answer.2).length ≤ 1 := by
  have hbeyond : ∀ r ∈ threeNodes.beyond, r = none := by simp [threeNodes]
  obtain ⟨-, hlengths, hdrains⟩ := run_transparent rfl hbeyond interleaved
  exact ⟨rfl, hlengths, hdrains⟩

end XPath.Lookahead
