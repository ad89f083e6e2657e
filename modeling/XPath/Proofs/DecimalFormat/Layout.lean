import XPath.DecimalFormat
import XPath.Proofs.Number.Numeral

/-!
# Laying out a number

The digits of a rounded magnitude are cut and padded as a picture wants them, which leaves the value
of the number as it is (`DecimalFormat.lays_layout`). Counted from the right, a separator stands
behind every group of digits (`DecimalFormat.eq_separator_iff`); without the separators the digits
are what they were (`DecimalFormat.filter_group`).
-/

namespace XPath

open Number

/-! ## Counts of digits -/

/-- The counts of a picture that was read. -/
structure Picture.Consistent (p : Picture) : Prop where
  minFraction_le : p.minFraction ≤ p.maxFraction
  grouping_pos : ∀ g, p.grouping = some g → 0 < g

/-- The digits are those that the picture wants: no fewer and no more than it says, and beyond the
fewest no zero in front or at the end. Where nothing at all would be left a zero stands. -/
structure Picture.Lays (p : Picture) (integer fraction : List Char) : Prop where
  digits : ∀ c ∈ integer ++ fraction, c.isDigit = true
  minInteger_le : p.minInteger ≤ integer.length
  minFraction_le : p.minFraction ≤ fraction.length
  le_maxFraction : fraction.length ≤ p.maxFraction
  leading : integer.head? = some '0' →
    integer.length = p.minInteger ∨ integer = ['0'] ∧ fraction = []
  trailing : fraction.getLast? = some '0' → fraction.length = p.minFraction
  nonempty : integer ++ fraction ≠ []

namespace DecimalFormat

variable {f : DecimalFormat} {p : Picture} {part ds whole fraction : List Char} {least size : Nat}

theorem consistent_of_readPart (h : f.readPart part = .ok p) : p.Consistent := by
  unfold readPart at h
  dsimp only at h
  split at h
  · cases h
  · split at h
    · cases h
    · split at h
      · cases h
      · cases h
        refine ⟨?_, fun g hg => ?_⟩
        · refine List.countP_mono_left fun c _ hc => ?_
          rw [hc]
          rfl
        · unfold groupingOf at hg
          dsimp only at hg
          split at hg
          · rename_i htail
            cases hg
            rw [Bool.and_eq_true, Bool.not_eq_true', List.isEmpty_eq_false_iff] at htail
            exact List.length_pos_iff.mpr htail.2
          · cases hg

/-! ## The two parts of a numeral -/

theorem eq_replicate_zero (h : ∀ c ∈ ds, (c == '0') = true) : ds = List.replicate ds.length '0' :=
  List.eq_replicate_iff.mpr ⟨rfl, fun c hc => beq_iff_eq.mp (h c hc)⟩

theorem trimFraction_eq (least : Nat) (ds : List Char) :
    trimFraction least ds = ds.take least ++ (ds.drop least).rdropWhile (· == '0') := rfl

theorem exists_trimFraction (least : Nat) (ds : List Char) :
    ∃ n, ds = trimFraction least ds ++ List.replicate n '0' := by
  have hzeros : ∀ c ∈ (ds.drop least).rtakeWhile (· == '0'), (c == '0') = true :=
    fun c hc => List.mem_rtakeWhile_imp (p := (· == '0')) hc
  refine ⟨((ds.drop least).rtakeWhile (· == '0')).length, ?_⟩
  rw [← eq_replicate_zero hzeros, trimFraction_eq, List.append_assoc,
    List.rdropWhile_append_rtakeWhile, List.take_append_drop]

theorem le_length_trimFraction (h : least ≤ ds.length) :
    least ≤ (trimFraction least ds).length := by
  rw [trimFraction_eq, List.length_append, List.length_take]
  omega

/-- Of the zeros at the end only those are left that must be shown. -/
theorem length_trimFraction (h : least ≤ ds.length)
    (hlast : (trimFraction least ds).getLast? = some '0') :
    (trimFraction least ds).length = least := by
  rw [trimFraction_eq] at hlast ⊢
  by_cases hnil : (ds.drop least).rdropWhile (· == '0') = []
  · rw [hnil, List.append_nil, List.length_take]
    omega
  · rw [List.getLast?_append_of_ne_nil _ hnil, List.getLast?_eq_some_getLast hnil] at hlast
    have hne := List.rdropWhile_last_not _ _ hnil
    rw [Option.some.inj hlast] at hne
    exact absurd rfl hne

/-- The digits of an integer without needless zeros, with at least so many digits. -/
def padInteger (least : Nat) (ds : List Char) : List Char :=
  List.replicate (least - (ds.dropWhile (· == '0')).length) '0' ++ ds.dropWhile (· == '0')

theorem exists_padInteger (least : Nat) (ds : List Char) : ∃ j k significant,
    padInteger least ds = List.replicate j '0' ++ significant ∧
      ds = List.replicate k '0' ++ significant := by
  have hzeros : ∀ c ∈ ds.takeWhile (· == '0'), (c == '0') = true :=
    fun c hc => List.mem_takeWhile_imp (p := (· == '0')) hc
  refine ⟨_, (ds.takeWhile (· == '0')).length, _, rfl, ?_⟩
  rw [← eq_replicate_zero hzeros, List.takeWhile_append_dropWhile]

theorem isDigit_of_mem_padInteger (hds : ∀ c ∈ ds, c.isDigit = true) :
    ∀ c ∈ padInteger least ds, c.isDigit = true := by
  obtain ⟨j, k, significant, hpad, hk⟩ := exists_padInteger least ds
  rw [hpad]
  intro c hc
  obtain hzero | hc := List.mem_append.mp hc
  · rw [List.eq_of_mem_replicate hzero]
    rfl
  · exact hds c (hk ▸ List.mem_append_right _ hc)

theorem le_length_padInteger (least : Nat) (ds : List Char) :
    least ≤ (padInteger least ds).length := by
  rw [padInteger, List.length_append, List.length_replicate]
  omega

/-- Zeros stand in front of an integer only as far as they must be shown. -/
theorem length_padInteger (hhead : (padInteger least ds).head? = some '0') :
    (padInteger least ds).length = least := by
  unfold padInteger at hhead ⊢
  cases hpadding : least - (ds.dropWhile (· == '0')).length with
  | zero =>
      have hnot := List.head?_dropWhile_not (· == '0') ds
      rw [hpadding, List.replicate_zero, List.nil_append] at hhead
      rw [hhead] at hnot
      cases hnot
  | succ k =>
      rw [List.length_append, List.length_replicate]
      omega

theorem layout_pointed (hwhole : ∀ c ∈ whole, c.isDigit = true) (fraction : List Char) :
    layout p (pointed whole fraction) =
      if (padInteger p.minInteger whole).isEmpty &&
        (trimFraction p.minFraction fraction).isEmpty then (['0'], [])
      else (padInteger p.minInteger whole, trimFraction p.minFraction fraction) := by
  have hw : (pointed whole fraction).takeWhile (· != '.') = whole := wholeOf_pointed hwhole fraction
  have hf : ((pointed whole fraction).dropWhile (· != '.')).drop 1 = fraction :=
    fractionOf_pointed hwhole fraction
  unfold layout
  rw [hw, hf]
  rfl

/-- What a picture makes of the digits of a numeral. The zeros that are added and dropped do not
change the value. -/
theorem lays_layout (hp : p.Consistent) (hdigits : ∀ c ∈ whole ++ fraction, c.isDigit = true)
    (hlength : fraction.length = p.maxFraction) :
    p.Lays (layout p (pointed whole fraction)).1 (layout p (pointed whole fraction)).2 ∧
      numeralValue (pointed (layout p (pointed whole fraction)).1
        (layout p (pointed whole fraction)).2) = numeralValue (pointed whole fraction) := by
  obtain ⟨hwhole, hfraction⟩ := List.forall_mem_append.mp hdigits
  obtain ⟨n, hn⟩ := exists_trimFraction p.minFraction fraction
  obtain ⟨j, k, significant, hpad, hk⟩ := exists_padInteger p.minInteger whole
  have hinteger := le_length_padInteger p.minInteger whole
  have hpadded : ∀ c ∈ padInteger p.minInteger whole, c.isDigit = true :=
    isDigit_of_mem_padInteger hwhole
  have hleading : (padInteger p.minInteger whole).head? = some '0' →
      (padInteger p.minInteger whole).length = p.minInteger := length_padInteger
  have hleast : p.minFraction ≤ fraction.length := hlength ▸ hp.minFraction_le
  have hle := le_length_trimFraction hleast
  have htrailing := length_trimFraction hleast
  rw [layout_pointed hwhole]
  generalize padInteger p.minInteger whole = integer at *
  generalize trimFraction p.minFraction fraction = shown at *
  have hshown : ∀ c ∈ shown, c.isDigit = true := fun c hc =>
    hfraction c (hn ▸ List.mem_append_left _ hc)
  have hcount : shown.length ≤ p.maxFraction := by
    rw [← hlength, hn, List.length_append]
    omega
  have hvalue : numeralValue (pointed integer shown) = numeralValue (pointed whole fraction) := by
    rw [numeralValue_pointed hpadded, numeralValue_pointed hwhole, hn, hk, hpad]
    exact (natOfDigits_div_of_zeros k j n significant shown).symm
  split
  · rename_i hempty
    obtain ⟨hi, hs⟩ := Bool.and_eq_true_iff.mp hempty
    obtain rfl := List.isEmpty_iff.mp hi
    obtain rfl := List.isEmpty_iff.mp hs
    refine ⟨⟨by simp, ?_, hle, Nat.zero_le _, fun _ => .inr ⟨rfl, rfl⟩, nofun, nofun⟩, hvalue⟩
    exact hinteger.trans (Nat.zero_le _)
  · rename_i hempty
    refine ⟨⟨List.forall_mem_append.mpr ⟨hpadded, hshown⟩, hinteger, hle, hcount,
      fun hhead => .inl (hleading hhead), htrailing, ?_⟩, hvalue⟩
    rw [ne_eq, List.append_eq_nil_iff, ← List.isEmpty_iff, ← List.isEmpty_iff, ← Bool.and_eq_true]
    exact hempty

/-! ## Groups -/

variable (f)

theorem head?_group (size : Nat) (ds : List Char) : (f.group size ds).head? = ds.head? := by
  unfold group
  split
  · rfl
  · rfl
  · split <;> rfl

variable {f}

theorem filter_group (h : f.groupingSeparator ∉ ds) (size : Nat) :
    (f.group size ds).filter (· != f.groupingSeparator) = ds := by
  have hkeep : ∀ {c cs}, f.groupingSeparator ∉ c :: cs →
      (c != f.groupingSeparator) = true ∧ f.groupingSeparator ∉ cs := fun h =>
    ⟨bne_iff_ne.mpr (Ne.symm (List.ne_of_not_mem_cons h)), List.not_mem_of_not_mem_cons h⟩
  fun_induction group f size ds with
  | case1 => rfl
  | case2 c => rw [List.filter_cons, if_pos (hkeep h).1, List.filter_nil]
  | case3 c cs _ _ ih =>
      rw [List.filter_cons, if_pos (hkeep h).1, List.filter_cons, if_neg (by simp), ih (hkeep h).2]
  | case4 c cs _ _ ih => rw [List.filter_cons, if_pos (hkeep h).1, ih (hkeep h).2]

theorem length_group (size : Nat) (c : Char) (cs : List Char) :
    (f.group size (c :: cs)).length = cs.length + 1 + cs.length / size := by
  induction cs generalizing c with
  | nil => simp [group]
  | cons d ds ih =>
      by_cases hdvd : size ∣ ds.length + 1
      · have hzero : ((d :: ds).length % size == 0) = true :=
          beq_iff_eq.mpr (Nat.mod_eq_zero_of_dvd hdvd)
        rw [group, if_pos hzero, List.length_cons, List.length_cons, ih, List.length_cons,
          Nat.succ_div, if_pos hdvd]
        · omega
        · nofun
      · have hzero : ¬((d :: ds).length % size == 0) = true :=
          fun h => hdvd (Nat.dvd_of_mod_eq_zero (beq_iff_eq.mp h))
        rw [group, if_neg hzero, List.length_cons, ih, List.length_cons, Nat.succ_div, if_neg hdvd]
        · omega
        · nofun

/-- The place behind `q` groups with their separators and the `r` digits that follow them. -/
theorem add_div_mod_of_eq {m q r : Nat} (hm : m = r + size * q) (hpos : 0 < r) (hle : r ≤ size) :
    (m + (m - 1) / size) % (size + 1) = r := by
  have hdiv : (m - 1) / size = q := by
    refine Nat.div_eq_of_lt_le ?_ ?_
    · rw [Nat.mul_comm]
      omega
    · rw [Nat.succ_mul, Nat.mul_comm]
      omega
  have hall : m + q = r + (size + 1) * q := by
    rw [Nat.add_mul]
    omega
  rw [hdiv, hall, Nat.add_mul_mod_self_left, Nat.mod_eq_of_lt (by omega)]

/-- The place behind `m` digits with their separators: behind whole groups it is that of the next
separator. -/
theorem add_div_mod (hsize : 0 < size) {m : Nat} (hm : 0 < m) :
    (m + (m - 1) / size) % (size + 1) = if m % size = 0 then size else m % size := by
  have hlt := Nat.mod_lt m hsize
  split
  · rename_i hzero
    obtain ⟨k, hk⟩ := Nat.dvd_of_mod_eq_zero hzero
    cases k with
    | zero => omega
    | succ q =>
        refine add_div_mod_of_eq (q := q) ?_ hsize le_rfl
        rw [hk, Nat.mul_succ, Nat.add_comm]
  · rename_i hne
    exact add_div_mod_of_eq (Nat.mod_add_div m size).symm (Nat.pos_of_ne_zero hne) hlt.le

/-- Where the next character stands in front of digits with their separators. -/
theorem length_group_mod (f : DecimalFormat) (hsize : 0 < size) (hds : ds ≠ []) :
    (f.group size ds).length % (size + 1) =
      if ds.length % size = 0 then size else ds.length % size := by
  obtain ⟨c, cs, rfl⟩ := List.exists_cons_of_ne_nil hds
  rw [length_group]
  exact add_div_mod hsize (Nat.succ_pos _)

theorem getElem?_concat_cases {cs : List Char} {d c : Char} {j : Nat}
    (h : (cs ++ [d])[j]? = some c) : cs[j]? = some c ∨ j = cs.length ∧ c = d := by
  rw [List.getElem?_append] at h
  split at h
  · exact .inl h
  · refine .inr ?_
    obtain ⟨hj, hc⟩ := List.getElem?_eq_some_iff.mp h
    rw [List.length_singleton] at hj
    exact ⟨by omega, by simpa using hc.symm⟩

/-- Counted from the right, the separator stands behind every group of `size` digits. -/
theorem eq_separator_iff (hsize : 0 < size) (h : f.groupingSeparator ∉ ds) {j : Nat} {c : Char}
    (hc : (f.group size ds).reverse[j]? = some c) :
    c = f.groupingSeparator ↔ j % (size + 1) = size := by
  have hdigit {d : Char} {cs : List Char} (h : f.groupingSeparator ∉ d :: cs) :
      ¬d = f.groupingSeparator := Ne.symm (List.ne_of_not_mem_cons h)
  fun_induction group f size ds with
  | case1 => simp at hc
  | case2 d =>
      obtain rfl : j = 0 := by
        by_contra hj
        rw [List.reverse_singleton, List.getElem?_eq_none (by simp; omega)] at hc
        cases hc
      obtain rfl : d = c := by simpa using hc
      simp [hdigit h]
      omega
  | case3 d cs hcs hzero ih =>
      have hplace := f.length_group_mod hsize hcs
      rw [if_pos (beq_iff_eq.mp hzero)] at hplace
      rw [List.reverse_cons, List.reverse_cons] at hc
      obtain hc | ⟨rfl, rfl⟩ := getElem?_concat_cases hc
      · obtain hc | ⟨rfl, rfl⟩ := getElem?_concat_cases hc
        · exact ih (List.not_mem_of_not_mem_cons h) hc
        · simpa using hplace
      · have hnext := Nat.succ_mod_succ_eq_zero_iff.mpr hplace
        simp only [List.length_append, List.length_reverse, List.length_singleton, hnext]
        simp only [hdigit h, false_iff]
        omega
  | case4 d cs hcs hzero ih =>
      have hplace := f.length_group_mod hsize hcs
      have hinside : cs.length % size ≠ 0 := fun h => hzero (beq_iff_eq.mpr h)
      rw [if_neg hinside] at hplace
      rw [List.reverse_cons] at hc
      obtain hc | ⟨rfl, rfl⟩ := getElem?_concat_cases hc
      · exact ih (List.not_mem_of_not_mem_cons h) hc
      · have hlt := Nat.mod_lt cs.length hsize
        simp only [List.length_reverse, hplace, hdigit h, false_iff]
        omega

end DecimalFormat

end XPath
