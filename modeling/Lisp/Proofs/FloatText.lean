import Lisp.Proofs.Rounding
import Lisp.Proofs.RoundTrip
import Lisp.Proofs.Wrapping
import Mathlib.Data.List.TakeWhile

/-!
# Reading back printed floats

The text of a finite double is a sign perhaps, digits, a point and more digits. Such a text is one
word, it is no integer for its point, and as a decimal it is what was printed: a number to which the
double is nearest, for the printer has tried that. So it reads as the same double. The text of an
infinity has no digits and reads as a symbol, though large numerals read as infinities.
-/

namespace Lisp

namespace Double

/-! ## The decimal that is printed -/

theorem nearest_of_decimalAt? {x : Double} {places digits : Nat}
    (h : x.decimalAt? places = some digits) :
    nearest digits (Nat.pow 10 places) = x.magnitude := by
  unfold decimalAt? at h
  dsimp only at h
  split at h
  · rename_i hbelow
    split at h
    · rename_i habove
      cases h
      exact habove.1
    · cases h
      exact hbelow
  · split at h
    · rename_i habove
      cases h
      exact habove
    · cases h

/-- With as many decimal places as binary ones a double is written exactly. -/
theorem nearest_units {x : Double} (hx : x.isNaN = false) :
    nearest (x.units * Nat.pow 5 unitExponent) (Nat.pow 10 unitExponent) = x.magnitude := by
  have hm : x.magnitude ≤ infinityMagnitude := Nat.le_of_not_lt (of_decide_eq_false hx)
  have hten : 10 ^ unitExponent = 5 ^ unitExponent * 2 ^ unitExponent := by
    rw [← Nat.mul_pow]
  rw [Nat.pow_eq, Nat.pow_eq]
  refine nearest_of_exact (Nat.pow_pos (by decide)) hm ?_
  rw [hten, Nat.mul_assoc, units_eq]

theorem shortest_spec {x : Double} (hx : x.isNaN = false) {digits places : Nat}
    (h : x.shortest = (digits, places)) :
    1 ≤ places ∧ places ≤ unitExponent ∧ nearest digits (Nat.pow 10 places) = x.magnitude := by
  rw [shortest] at h
  cases hfound : (List.range unitExponent).findSome? fun i =>
      (x.decimalAt? (i + 1)).map fun digits => (digits, i + 1) with
  | none =>
    rw [hfound, Option.getD_none] at h
    obtain ⟨rfl, rfl⟩ := Prod.mk.inj h
    exact ⟨by decide, Nat.le_refl _, nearest_units hx⟩
  | some found =>
    rw [hfound, Option.getD_some] at h
    subst h
    obtain ⟨i, hi, hmap⟩ := List.exists_of_findSome?_eq_some hfound
    obtain ⟨_, hdigits, heq⟩ := Option.map_eq_some_iff.mp hmap
    cases heq
    exact ⟨Nat.le_add_left 1 i, List.mem_range.mp hi, nearest_of_decimalAt? hdigits⟩

end Double

/-! ## Digits around a point -/

namespace Decimal

theorem value_replicate_append (k : Nat) (ds : List Char) :
    value (List.replicate k '0' ++ ds) = value ds := by
  rw [value_eq, value_eq]
  induction k with
  | zero => rfl
  | succ k ih =>
    rw [List.replicate_succ, List.cons_append, Nat.ofDigitChars_cons]
    exact ih

/-- A text of digits with a point after the first ones. -/
structure Pointed (whole fraction : List Char) : Prop where
  nonempty : whole ≠ []
  digits : ∀ c ∈ whole ++ fraction, c.isDigit = true

theorem exists_pointed (digits places : Nat) :
    ∃ whole fraction, Double.positional digits places = whole ++ '.' :: fraction ∧
      Pointed whole fraction ∧ fraction.length = places ∧ value (whole ++ fraction) = digits := by
  have hvalue : value (Nat.toDigits 10 digits) = digits := by
    rw [value_eq, Nat.ofDigitChars_ten_toDigits]
  have hlength : (Nat.toDigits 10 digits).length ≠ 0 := by
    simp [Nat.toDigits_ne_nil]
  unfold Double.positional
  dsimp only
  generalize hpadded : List.replicate (places + 1 - (Nat.toDigits 10 digits).length) '0' ++
    Nat.toDigits 10 digits = padded
  have hplaces : places + 1 ≤ padded.length := by
    rw [← hpadded, List.length_append, List.length_replicate]
    omega
  refine ⟨_, _, rfl, ⟨?_, ?_⟩, ?_, ?_⟩
  · rw [← List.length_pos_iff, List.length_take]
    omega
  · rw [List.take_append_drop, ← hpadded]
    intro c hc
    rcases List.mem_append.mp hc with hzero | hdigit
    · rw [List.eq_of_mem_replicate hzero]
      rfl
    · exact isDigit_of_mem_toDigits hdigit
  · rw [List.length_drop]
    omega
  · rw [List.take_append_drop, ← hpadded, value_replicate_append, hvalue]

section

variable {whole fraction cs : List Char} {negative : Bool}

theorem Pointed.ofChars?_eq (h : Pointed whole fraction)
    (hsign : splitSign cs = (negative, whole ++ '.' :: fraction)) :
    ofChars? cs = some ⟨negative, value (whole ++ fraction), -fraction.length⟩ := by
  have hwhole : ∀ c ∈ whole, c.isDigit = true :=
    fun c hc => h.digits c (List.mem_append_left _ hc)
  have hfraction : ∀ c ∈ fraction, c.isDigit = true :=
    fun c hc => h.digits c (List.mem_append_right _ hc)
  have hpoint : ¬ ('.'.isDigit = true) := by decide
  have htake : (whole ++ '.' :: fraction).takeWhile Char.isDigit = whole := by
    rw [List.takeWhile_append_of_pos hwhole, List.takeWhile_cons_of_neg hpoint, List.append_nil]
  have hdrop : (whole ++ '.' :: fraction).dropWhile Char.isDigit = '.' :: fraction := by
    rw [List.dropWhile_append_of_pos hwhole, List.dropWhile_cons_of_neg hpoint]
  have hsplit : splitFraction ('.' :: fraction) = (fraction, []) := by
    rw [splitFraction, List.takeWhile_eq_self_iff.mpr hfraction,
      List.dropWhile_eq_nil_iff.mpr hfraction]
  unfold ofChars?
  simp only [hsign, htake, hdrop, hsplit]
  simp [h.nonempty, exponentPart?]

theorem integer?_of_point
    (hsign : splitSign cs = (negative, whole ++ '.' :: fraction)) : integer? cs = none := by
  have hall : (whole ++ '.' :: fraction).all Char.isDigit = false :=
    List.all_eq_false.mpr ⟨'.', by simp, by decide⟩
  simp [integer?, hsign, natural?, hall]

end

/-- An exponent that the printer uses is read as it stands. -/
theorem toDouble_of_places (negative : Bool) (digits : Nat) {places : Nat} (hpos : 1 ≤ places)
    (hle : places ≤ Double.unitExponent) :
    toDouble ⟨negative, digits, -places⟩ =
      Double.ofMagnitude negative (Double.nearest digits (Nat.pow 10 places)) := by
  obtain ⟨k, rfl⟩ := Nat.exists_eq_add_of_le' hpos
  have hle' : k + 1 ≤ 1074 := hle
  have hclamp : clampExponent digits (-((k + 1 : Nat) : Int)) = Int.negSucc k := by
    unfold clampExponent
    omega
  unfold toDouble
  simp only [hclamp]

theorem isNaN_toDouble (d : Decimal) : d.toDouble.isNaN = false := by
  unfold toDouble
  split <;> exact Double.isNaN_ofMagnitude_nearest _ _ _

/-! ## Signs -/

def signed (negative : Bool) (body : List Char) : List Char :=
  if negative then '-' :: body else body

section

variable {c : Char} (negative : Bool) (hc : c.isDigit = true) (cs : List Char)

include hc

theorem splitSign_signed : splitSign (signed negative (c :: cs)) = (negative, c :: cs) := by
  cases negative with
  | false => exact splitSign_of_isDigit hc cs
  | true => rfl

theorem looksNumeric_signed : Text.looksNumeric (signed negative (c :: cs)) = true := by
  cases negative <;> simp [signed, Text.looksNumeric, hc]

theorem isWord_signed {cs : List Char} (hcs : ∀ d ∈ cs, isDelimiter d = false) :
    IsWord (signed negative (c :: cs)) := by
  cases negative with
  | false => exact ⟨beginsWord_of_isDigit hc, hcs⟩
  | true =>
    refine ⟨by decide, fun d hd => ?_⟩
    rcases List.mem_cons.mp hd with rfl | hd
    · exact isDelimiter_eq_false_of_isDigit hc
    · exact hcs d hd

end

namespace Pointed

variable {whole fraction : List Char} (h : Pointed whole fraction) (negative : Bool)

include h

theorem exists_cons : ∃ c cs, whole = c :: cs ∧ c.isDigit = true := by
  cases whole with
  | nil => exact absurd rfl h.nonempty
  | cons c cs => exact ⟨c, cs, rfl, h.digits c List.mem_cons_self⟩

theorem isWord : IsWord (signed negative (whole ++ '.' :: fraction)) := by
  obtain ⟨c, cs, rfl, hc⟩ := h.exists_cons
  refine isWord_signed negative hc fun d hd => ?_
  rcases List.mem_append.mp hd with hd | hd
  · exact isDelimiter_eq_false_of_isDigit (h.digits d (by simp [hd]))
  · rcases List.mem_cons.mp hd with rfl | hd
    · decide
    · exact isDelimiter_eq_false_of_isDigit (h.digits d (by simp [hd]))

theorem ofWord_eq :
    Value.ofWord (signed negative (whole ++ '.' :: fraction)) =
      .float (toDouble ⟨negative, value (whole ++ fraction), -fraction.length⟩) := by
  obtain ⟨c, cs, rfl, hc⟩ := h.exists_cons
  have hsign := splitSign_signed negative hc (cs ++ '.' :: fraction)
  have hnumeric := looksNumeric_signed negative hc (cs ++ '.' :: fraction)
  rw [← List.cons_append] at hsign hnumeric
  unfold Value.ofWord
  simp only [integer?_of_point hsign, Option.bind_none, hnumeric, if_true, h.ofChars?_eq hsign]

end Pointed

end Decimal

/-! ## Texts of doubles -/

/-- The text is one word, and it stands for the value. -/
def IsWordFor (text : String) (v : Value) : Prop :=
  tokens text = [.word text] ∧ Value.ofWord text.toList = v

theorem IsWord.isWordFor {cs : List Char} {v : Value} (hword : IsWord cs)
    (h : Value.ofWord cs = v) : IsWordFor (String.ofList cs) v :=
  ⟨hword.spells.tokenize_eq, by rw [String.toList_ofList, h]⟩

namespace Double

variable {x : Double}

theorem isWordFor_text (hnan : x.isNaN = false) (hfinite : x.isInfinite = false) :
    IsWordFor x.text (.float x) := by
  rcases hshortest : x.shortest with ⟨digits, places⟩
  obtain ⟨hpos, hle, hnearest⟩ := shortest_spec hnan hshortest
  obtain ⟨whole, fraction, htext, hpointed, hlength, hvalue⟩ :=
    Decimal.exists_pointed digits places
  have hsigned : x.text =
      String.ofList (Decimal.signed x.isNegative (whole ++ '.' :: fraction)) := by
    simp only [text, hnan, hfinite, Bool.false_eq_true, if_false, hshortest, htext,
      Decimal.signed]
  rw [hsigned]
  refine (hpointed.isWord x.isNegative).isWordFor ?_
  rw [hpointed.ofWord_eq, hlength, hvalue, Decimal.toDouble_of_places _ _ hpos hle, hnearest,
    ofMagnitude_magnitude]

/-- The text of an infinity is the name of a symbol. -/
theorem isWordFor_text_infinite (hnan : x.isNaN = false) (hinfinite : x.isInfinite = true) :
    x.text = (if x.isNegative then "-inf" else "inf") ∧ IsWordFor x.text (.sym x.text) := by
  have htext : x.text = if x.isNegative then "-inf" else "inf" := by
    simp only [text, hnan, hinfinite, Bool.false_eq_true, if_false, if_true]
    cases x.isNegative <;> rfl
  refine ⟨htext, ?_⟩
  rw [htext]
  cases x.isNegative with
  | false => exact ⟨by decide, by decide +kernel⟩
  | true => exact ⟨by decide, by decide +kernel⟩

end Double

theorem Value.isNaN_of_ofWord {word : List Char} {x : Double} (h : ofWord word = .float x) :
    x.isNaN = false := by
  unfold ofWord at h
  split at h
  · cases h
  · split at h
    · cases h
      exact Decimal.isNaN_toDouble _
    · split at h <;> cases h

/-- A float that is read is a number or an infinity. The text of a number is one word that reads as
the same float, bit for bit, whatever the style. The text of an infinity is one word as well, but it
reads as a symbol. -/
theorem read_floats_print_readably (word : List Char) (x : Double)
    (h : Value.ofWord word = .float x) :
    x.isNaN = false ∧
    (x.isInfinite = false → ∀ cells style,
      IsWordFor ((Value.float x).text cells style) (.float x)) ∧
    (x.isInfinite = true → ∀ cells style,
      (Value.float x).text cells style = (if x.isNegative then "-inf" else "inf") ∧
      IsWordFor ((Value.float x).text cells style) (.sym ((Value.float x).text cells style))) := by
  have hnan := Value.isNaN_of_ofWord h
  exact ⟨hnan, fun hfinite _ _ => Double.isWordFor_text hnan hfinite,
    fun hinfinite _ _ => Double.isWordFor_text_infinite hnan hinfinite⟩

/-- The least positive float, whose text has 324 places, and a numeral too large for a number. -/
theorem read_floats_print_readably_extremes :
    (Value.ofWord "5e-324".toList = .float ⟨1⟩ ∧
      IsWordFor ((Value.float ⟨1⟩).text #[] .readable) (.float ⟨1⟩)) ∧
    (Value.ofWord "-1e400".toList = .float .negInfinity ∧
      (Value.float .negInfinity).text #[] .readable = "-inf") := by
  have hleast : Value.ofWord "5e-324".toList = .float ⟨1⟩ := by decide +kernel
  have hlarge : Value.ofWord "-1e400".toList = .float .negInfinity := by decide +kernel
  obtain ⟨-, hfinite, -⟩ := read_floats_print_readably _ _ hleast
  obtain ⟨-, -, hinfinite⟩ := read_floats_print_readably _ _ hlarge
  exact ⟨⟨hleast, hfinite (by decide) #[] .readable⟩,
    hlarge, (hinfinite (by decide) #[] .readable).1⟩

/-- The text of a float that has been read, and what that text reads as. -/
theorem infinity_reads_back_as_symbol :
    Value.ofWord "1e400".toList = .float .infinity ∧
      Value.ofWord ((Value.float .infinity).text #[] .readable).toList = .sym "inf" :=
  ⟨by decide +kernel, by decide +kernel⟩

end Lisp
