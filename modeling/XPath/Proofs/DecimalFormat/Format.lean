import XPath.Proofs.DecimalFormat.Layout
import XPath.Proofs.Number.Negation

/-!
# Formatting a number

What a decimal format shows of a number between the literal texts of a picture
(`DecimalFormat.Shows`): digits of the format, as many as the picture wants, in groups, whose value
is that of the rounded magnitude. A finite number is shown so by every picture that can be read, and
its negation with a minus sign in front (`DecimalFormat.format_shows`).
-/

namespace XPath

open Number

namespace DecimalFormat

variable (f : DecimalFormat) {p : Picture} {ds integer fraction : List Char} {c : Char} {k : Nat}

def digitOf (k : Nat) : Char := Char.ofNat (f.zeroDigit.toNat + k)

/-- The symbols of the format can be told apart in a picture, and its ten digits in a number. -/
structure Distinct : Prop where
  symbols : [f.digit, f.zeroDigit, f.decimalSeparator, f.groupingSeparator,
    f.patternSeparator].Nodup
  valid : ∀ k < 10, (f.zeroDigit.toNat + k).isValidChar
  ne_decimalSeparator : ∀ k < 10, f.digitOf k ≠ f.decimalSeparator
  ne_groupingSeparator : ∀ k < 10, f.digitOf k ≠ f.groupingSeparator

def decodeChar (c : Char) : Char :=
  if c == f.decimalSeparator then '.'
  else Char.ofNat ('0'.toNat + (c.toNat - f.zeroDigit.toNat))

/-- The plain numeral that a formatted number stands for: separators of groups are dropped. -/
def decode (cs : List Char) : List Char :=
  (cs.filter (· != f.groupingSeparator)).map f.decodeChar

/-- The number of an integer part, which may be grouped, and a fraction. -/
def number (integer fraction : List Char) : List Char :=
  if fraction.isEmpty then integer else integer ++ f.decimalSeparator :: fraction

/-- The integer part and the fraction show the numeral as the picture wants it. -/
structure Shows (p : Picture) (numeral integer fraction : List Char) : Prop where
  localised : ∀ c ∈ integer ++ fraction, c ≠ f.groupingSeparator → ∃ k < 10, c = f.digitOf k
  lays : p.Lays (f.decode integer) (f.decode fraction)
  /-- Counted from the right, separators stand behind full groups and nowhere else. -/
  grouped : ∀ (j : Nat) (c : Char), integer.reverse[j]? = some c →
    (c = f.groupingSeparator ↔ ∃ g, p.grouping = some g ∧ j % (g + 1) = g)
  head_ne : integer.head? ≠ some f.groupingSeparator
  plain : f.groupingSeparator ∉ fraction
  value : numeralValue (f.decode (f.number integer fraction)) = numeralValue numeral

/-! ## Digits of the format -/

variable {f}

theorem exists_digit (hc : c.isDigit = true) : ∃ k < 10, c = Char.ofNat ('0'.toNat + k) ∧
    c.toNat - '0'.toNat = k := by
  rw [Char.isDigit, Bool.and_eq_true, decide_eq_true_iff, decide_eq_true_iff] at hc
  obtain ⟨hlow, hhigh⟩ := hc
  have hlow : 48 ≤ c.toNat := hlow
  have hhigh : c.toNat ≤ 57 := hhigh
  have hzero : '0'.toNat = 48 := rfl
  refine ⟨c.toNat - 48, by omega, ?_, by omega⟩
  rw [hzero, Nat.add_sub_cancel' hlow, Char.ofNat_toNat]

namespace Distinct

variable (h : f.Distinct)

include h

theorem localDigit_eq (hc : c.isDigit = true) : ∃ k < 10, f.localDigit c = f.digitOf k ∧
    c = Char.ofNat ('0'.toNat + k) := by
  obtain ⟨k, hk, hchar, hvalue⟩ := exists_digit hc
  refine ⟨k, hk, ?_, hchar⟩
  unfold localDigit
  rw [if_pos hc]
  dsimp only
  rw [hvalue, if_pos (h.valid k hk)]
  rfl

theorem decodeChar_localDigit (hc : c.isDigit = true) : f.decodeChar (f.localDigit c) = c := by
  obtain ⟨k, hk, hlocal, hchar⟩ := h.localDigit_eq hc
  have hvalid : (f.digitOf k).toNat = f.zeroDigit.toNat + k := by
    rw [digitOf, Char.toNat_ofNat, if_pos (h.valid k hk)]
  have hne : ¬(f.digitOf k == f.decimalSeparator) = true :=
    fun heq => h.ne_decimalSeparator k hk (beq_iff_eq.mp heq)
  rw [hlocal, decodeChar, if_neg hne, hvalid, Nat.add_sub_cancel_left, ← hchar]

theorem not_mem_local (hds : ∀ c ∈ ds, c.isDigit = true) :
    f.groupingSeparator ∉ ds.map f.localDigit := by
  rintro hmem
  obtain ⟨c, hc, heq⟩ := List.mem_map.mp hmem
  obtain ⟨k, hk, hlocal, -⟩ := h.localDigit_eq (hds c hc)
  exact h.ne_groupingSeparator k hk (hlocal.symm.trans heq)

theorem decode_of_filter {cs : List Char} (hds : ∀ c ∈ ds, c.isDigit = true)
    (hcs : cs.filter (· != f.groupingSeparator) = ds.map f.localDigit) : f.decode cs = ds := by
  have hback : ∀ c ∈ ds, (f.decodeChar ∘ f.localDigit) c = c :=
    fun c hc => h.decodeChar_localDigit (hds c hc)
  rw [decode, hcs, List.map_map, List.map_congr_left hback, List.map_id']

end Distinct

theorem filter_of_not_mem (h : f.groupingSeparator ∉ ds) :
    ds.filter (· != f.groupingSeparator) = ds :=
  List.filter_eq_self.mpr fun _ hc => bne_iff_ne.mpr fun heq => h (heq ▸ hc)

theorem decode_append (f : DecimalFormat) (cs ds : List Char) :
    f.decode (cs ++ ds) = f.decode cs ++ f.decode ds := by
  rw [decode, List.filter_append, List.map_append]
  rfl

/-- The number of two parts stands for the numeral of what they stand for. -/
theorem Distinct.decode_number (h : f.Distinct) (integer fraction : List Char)
    (hplain : f.groupingSeparator ∉ fraction) :
    f.decode (f.number integer fraction) = pointed (f.decode integer) (f.decode fraction) := by
  have hpoint : f.decode (f.decimalSeparator :: fraction) = '.' :: f.decode fraction := by
    have hne : (f.decimalSeparator != f.groupingSeparator) = true := by
      have hsymbols := h.symbols
      simp only [List.nodup_cons, List.mem_cons, not_or] at hsymbols
      exact bne_iff_ne.mpr hsymbols.2.2.1.1
    rw [decode, List.filter_cons, if_pos hne, List.map_cons, decodeChar,
      if_pos (beq_self_eq_true f.decimalSeparator)]
    rfl
  have hempty : (f.decode fraction).isEmpty = fraction.isEmpty := by
    rw [decode, filter_of_not_mem hplain, List.isEmpty_map]
  unfold number pointed
  rw [hempty]
  split
  · rfl
  · rw [decode_append, hpoint]

/-! ## The number of a picture -/

def grouped (f : DecimalFormat) (p : Picture) (digits : List Char) : List Char :=
  match p.grouping with
  | some size => f.group size digits
  | none => digits

theorem filter_grouped (hds : f.groupingSeparator ∉ ds) :
    (f.grouped p ds).filter (· != f.groupingSeparator) = ds := by
  unfold grouped
  split
  · exact filter_group hds _
  · exact filter_of_not_mem hds

theorem head?_grouped (f : DecimalFormat) (p : Picture) (ds : List Char) :
    (f.grouped p ds).head? = ds.head? := by
  unfold grouped
  split
  · exact f.head?_group _ ds
  · rfl

theorem eq_separator_iff_grouped (hp : p.Consistent) (hds : f.groupingSeparator ∉ ds) (j : Nat)
    (c : Char) (hc : (f.grouped p ds).reverse[j]? = some c) :
    c = f.groupingSeparator ↔ ∃ g, p.grouping = some g ∧ j % (g + 1) = g := by
  unfold grouped at hc
  split at hc
  · rename_i size hsize
    rw [eq_separator_iff (hp.grouping_pos size hsize) hds hc]
    simp [hsize]
  · rename_i hnone
    have hmem : c ∈ ds := List.mem_reverse.mp (List.mem_of_getElem? hc)
    refine iff_of_false (fun heq => hds (heq ▸ hmem)) ?_
    rintro ⟨g, hg, -⟩
    rw [hnone] at hg
    cases hg

theorem body_eq (f : DecimalFormat) (p : Picture) (rounded : List Char) : f.body p rounded =
    f.number (f.grouped p ((layout p rounded).1.map f.localDigit))
      ((layout p rounded).2.map f.localDigit) := by
  unfold body number
  rw [List.isEmpty_map]
  rfl

/-- Between the literal texts the number shows the rounded magnitude. -/
theorem Distinct.exists_shows (h : f.Distinct) (hp : p.Consistent) (d : Number.Dyadic) :
    ∃ integer fraction, f.body p (fixed d p.maxFraction) = f.number integer fraction ∧
      f.Shows p (fixed d p.maxFraction) integer fraction := by
  obtain ⟨whole, places, hfixed, hdigits, hlength, -⟩ := exists_fixed d p.maxFraction
  obtain ⟨hlays, hvalue⟩ := lays_layout hp hdigits hlength
  rw [body_eq]
  rw [← hfixed] at hlays hvalue
  generalize layout p (fixed d p.maxFraction) = laid at hlays hvalue ⊢
  obtain ⟨integer, fraction⟩ := laid
  obtain ⟨hinteger, hfraction⟩ := List.forall_mem_append.mp hlays.digits
  have hints := h.not_mem_local hinteger
  have hfracs := h.not_mem_local hfraction
  have hfilter := filter_grouped (p := p) hints
  have hdecode : f.decode (f.grouped p (integer.map f.localDigit)) = integer :=
    h.decode_of_filter hinteger hfilter
  have hdecode' : f.decode (fraction.map f.localDigit) = fraction :=
    h.decode_of_filter hfraction (filter_of_not_mem hfracs)
  refine ⟨_, _, rfl, ?_, ?_, eq_separator_iff_grouped hp hints, ?_, hfracs, ?_⟩
  · intro c hc hne
    obtain ⟨c', hc', rfl⟩ : ∃ c' ∈ integer ++ fraction, f.localDigit c' = c := by
      rw [← List.mem_map, List.map_append]
      obtain hc | hc := List.mem_append.mp hc
      · refine List.mem_append_left _ ?_
        rw [← hfilter]
        exact List.mem_filter.mpr ⟨hc, bne_iff_ne.mpr hne⟩
      · exact List.mem_append_right _ hc
    obtain ⟨k, hk, hlocal, -⟩ := h.localDigit_eq (hlays.digits c' hc')
    exact ⟨k, hk, hlocal⟩
  · rw [hdecode, hdecode']
    exact hlays
  · rw [head?_grouped]
    exact fun hhead => hints (List.mem_of_head? hhead)
  · rw [h.decode_number _ _ hfracs, hdecode, hdecode']
    exact hvalue

/-! ## The whole text -/

def magnitude (f : DecimalFormat) (p : Picture) (value : Float) : List Char :=
  match Number.Dyadic.ofFloat? (value.abs * p.multiplier) with
  | none => f.infinity.toList
  | some d => f.body p (fixed d p.maxFraction)

variable {parts : List (List Char)} {value : Float} {out : List Char}

theorem formatParts_eq (hvalue : value.isNaN = false) (hlength : parts.length ≤ 2) :
    f.formatParts value parts = (f.readPart (parts.head?.getD [])).bind fun p =>
      (f.surroundings p (decide (value < 0)) parts[1]?).map fun s =>
        s.1 ++ f.magnitude p value ++ s.2 := by
  have hbetween (p : Picture) (before after : List Char) :
      (match Number.Dyadic.ofFloat? (value.abs * p.multiplier) with
        | none => pure (before ++ f.infinity.toList ++ after)
        | some d => pure (before ++ f.body p (fixed d p.maxFraction) ++ after) :
          Except PictureFault (List Char)) = .ok (before ++ f.magnitude p value ++ after) := by
    unfold magnitude
    cases Number.Dyadic.ofFloat? (value.abs * p.multiplier) <;> rfl
  unfold formatParts
  dsimp only
  rw [if_neg (by omega), hvalue]
  refine congrArg (Except.bind (f.readPart (parts.head?.getD []))) (funext fun p => ?_)
  rw [if_neg nofun]
  cases f.surroundings p (decide (value < 0)) parts[1]? with
  | error e => rfl
  | ok s => exact hbetween p s.1 s.2

/-- A picture has at most two parts, and each that is used must be read. -/
theorem formatParts_eq_ok (hvalue : value.isNaN = false) : f.formatParts value parts = .ok out ↔
    parts.length ≤ 2 ∧ ∃ p before after, f.readPart (parts.head?.getD []) = .ok p ∧
      f.surroundings p (decide (value < 0)) parts[1]? = .ok (before, after) ∧
      before ++ f.magnitude p value ++ after = out := by
  by_cases hlength : parts.length ≤ 2
  · rw [formatParts_eq hvalue hlength]
    cases f.readPart (parts.head?.getD []) with
    | error e => simp [Except.bind]
    | ok p =>
        cases hs : f.surroundings p (decide (value < 0)) parts[1]? with
        | error e => simp [Except.bind, Except.map, hs]
        | ok s =>
            obtain ⟨before, after⟩ := s
            simp [Except.bind, Except.map, hs, hlength]
  · unfold formatParts
    rw [if_pos (by omega)]
    exact iff_of_false nofun fun h => hlength h.1

theorem format_eq_ok {picture text : String} : f.format value picture = .ok text ↔
    f.formatParts value (f.partsOf picture.toList) = .ok text.toList := by
  unfold format
  split
  · rename_i out hout
    rw [hout, Except.ok.injEq, Except.ok.injEq, ← String.toList_inj, String.toList_ofList]
  · rename_i fault hout
    rw [hout]
    exact iff_of_false nofun nofun

/-- What a picture that can be read shows of a finite number is the rounded magnitude, in the digits
of the format and as the picture wants it, between the literal texts. Where the picture has no part
for negative numbers, the negation of a positive number is shown with a minus sign in front. -/
theorem format_shows {picture text : String} (h : f.Distinct) (hvalue : value.isNaN = false)
    (htext : f.format value picture = .ok text) :
    ∃ p, f.readPart ((f.partsOf picture.toList).head?.getD []) = .ok p ∧
      (∀ d, Number.Dyadic.ofFloat? (value.abs * p.multiplier) = some d →
        ∃ before after integer fraction,
          f.surroundings p (decide (value < 0)) (f.partsOf picture.toList)[1]? =
            .ok (before, after) ∧
          text.toList = before ++ f.number integer fraction ++ after ∧
          f.Shows p (fixed d p.maxFraction) integer fraction) ∧
      (0 < value → (f.partsOf picture.toList)[1]? = none →
        f.format (-value) picture = .ok (String.ofList (f.minusSign :: text.toList))) := by
  obtain ⟨hlength, p, before, after, hp, hsurroundings, hout⟩ :=
    (formatParts_eq_ok hvalue).mp (format_eq_ok.mp htext)
  refine ⟨p, hp, fun d hd => ?_, fun hpos hnone => ?_⟩
  · obtain ⟨integer, fraction, hbody, hshows⟩ := h.exists_shows (consistent_of_readPart hp) d
    have hmagnitude : f.magnitude p value = f.number integer fraction := by
      rw [magnitude, hd]
      exact hbody
    rw [hmagnitude] at hout
    exact ⟨before, after, integer, fraction, hsurroundings, hout.symm, hshows⟩
  · obtain ⟨hnan, hnegative, hpositive, habs⟩ := neg_of_pos hpos
    rw [hpositive] at hsurroundings
    cases hsurroundings
    refine format_eq_ok.mpr ((formatParts_eq_ok hnan).mpr
      ⟨hlength, p, f.minusSign :: p.before, p.after, hp, ?_, ?_⟩)
    · rw [hnegative, hnone]
      rfl
    · rw [String.toList_ofList, ← hout, magnitude, habs]
      rfl

/-- A format with digits of its own, and with the separators the other way round. -/
def eastern : DecimalFormat :=
  { zeroDigit := '\u0660', decimalSeparator := ',', groupingSeparator := '.' }

theorem distinct_eastern : eastern.Distinct where
  symbols := by decide
  valid := by decide
  ne_decimalSeparator := by decide
  ne_groupingSeparator := by decide

/-- The first part of `(#.##0,0#)`, in the digits of the format. -/
def easternPart : Picture :=
  { before := ['('], after := [')'], minInteger := 1, minFraction := 1, maxFraction := 2,
    grouping := some 3, multiplier := 1 }

theorem format_shows_eastern :
    eastern.format 1234567.125 "(#.##\u0660,\u0660#)" =
        .ok "(\u0661.\u0662\u0663\u0664.\u0665\u0666\u0667,\u0661\u0662)" ∧
      eastern.format (-1234567.125) "(#.##\u0660,\u0660#)" =
        .ok "-(\u0661.\u0662\u0663\u0664.\u0665\u0666\u0667,\u0661\u0662)" ∧
      ∃ integer fraction, eastern.Shows easternPart "1234567.12".toList integer fraction := by
  have htext : eastern.format 1234567.125 "(#.##\u0660,\u0660#)" =
      .ok "(\u0661.\u0662\u0663\u0664.\u0665\u0666\u0667,\u0661\u0662)" :=
    format_eq_ok.mpr (by decide +kernel)
  obtain ⟨p, hp, hshows, hnegation⟩ := format_shows distinct_eastern (by decide +kernel) htext
  have hread : eastern.readPart
      ((eastern.partsOf "(#.##\u0660,\u0660#)".toList).head?.getD []) = .ok easternPart := by rfl
  obtain rfl := Except.ok.inj (hread.symm.trans hp)
  have hd : Number.Dyadic.ofFloat? ((1234567.125 : Float).abs * easternPart.multiplier) =
      some ⟨false, 5302425426591744, -32⟩ := by decide +kernel
  obtain ⟨before, after, integer, fraction, -, -, hshows⟩ := hshows _ hd
  have hfixed : fixed ⟨false, 5302425426591744, -32⟩ easternPart.maxFraction =
      "1234567.12".toList := by decide +kernel
  rw [hfixed] at hshows
  exact ⟨htext, hnegation (by decide +kernel) (by decide +kernel), integer, fraction, hshows⟩

end DecimalFormat

end XPath
