import HftEngine.Foundation.Print
import Mathlib.Data.Nat.Digits.Lemmas
import Mathlib.Tactic.IntervalCases

/-! Reading back what a stream printed. A decimal is digits around a point with an optional
exponent; the printed form of every number is one, and the conversion functions return its
value. -/
namespace HftEngine.Text

/-- The characters that printed numbers are made of. -/
def numberChars : List Char :=
  ['0','1','2','3','4','5','6','7','8','9','+','-','.','e']

theorem isSpace_of_mem : ∀ c ∈ numberChars, isSpace c = false := by
  simp [numberChars, isSpace]

theorem toLower_ne_x_of_mem : ∀ c ∈ numberChars, c.toLower ≠ 'x' := by
  have hall : numberChars.all (fun c => c.toLower != 'x') = true := by decide
  intro c hc
  simpa using List.all_eq_true.mp hall c hc

theorem digitChar_mem {d : ℕ} (h : d < 10) : Nat.digitChar d ∈ numberChars := by
  interval_cases d <;> decide

theorem chars_mem {digits : List ℕ} (h : ∀ d ∈ digits, d < 10) :
    ∀ c ∈ chars digits, c ∈ numberChars := by
  intro c hc
  obtain ⟨d,hd,rfl⟩ := List.mem_map.mp hc
  exact digitChar_mem (h d hd)

theorem digitValue_digitChar {d : ℕ} (h : d < 10) : digitValue 10 (Nat.digitChar d) = some d := by
  interval_cases d <;> rfl

/-- A text at which a run of digits stops. -/
def Stops (rest : List Char) : Prop := ∀ c ∈ rest.head?, digitValue 10 c = none

theorem readDigits_chars {digits : List ℕ} (h : ∀ d ∈ digits, d < 10) {rest : List Char}
    (hrest : Stops rest) : readDigits 10 (chars digits ++ rest) = (digits,rest) := by
  induction digits with
  | nil =>
    cases rest with
    | nil => rfl
    | cons c cs => simp [chars, readDigits, hrest c (by simp)]
  | cons d digits ih =>
    have htail := ih (fun d hd => h d (List.mem_cons_of_mem _ hd))
    rw [chars] at htail
    simp only [chars, List.map_cons, List.cons_append, readDigits,
      digitValue_digitChar (h d List.mem_cons_self), htail]

/-- Digits carry no sign. -/
theorem readSign_chars {digits : List ℕ} (hne : digits ≠ []) (h : ∀ d ∈ digits, d < 10)
    (rest : List Char) : readSign (chars digits ++ rest) = (false,chars digits ++ rest) := by
  cases digits with
  | nil => contradiction
  | cons d digits =>
    have hd : d < 10 := h d List.mem_cons_self
    simp only [chars, List.map_cons, List.cons_append]
    interval_cases d <;> rfl

theorem dropWhile_isSpace {text : List Char} (h : ∀ c ∈ text, c ∈ numberChars) :
    text.dropWhile isSpace = text := by
  cases text with
  | nil => rfl
  | cons c cs =>
    rw [List.dropWhile_cons_of_neg]
    simp [isSpace_of_mem c (h c List.mem_cons_self)]

theorem digitsValue_append_zeros (digits : List ℕ) (k : ℕ) :
    digitsValue 10 (digits ++ List.replicate k 0) = digitsValue 10 digits * 10 ^ k := by
  rw [digitsValue, List.reverse_append, List.reverse_replicate, Nat.ofDigits_append,
    Nat.ofDigits_replicate_zero, List.length_replicate, zero_add, mul_comm, digitsValue]

theorem digitsValue_zeros_append (digits : List ℕ) (k : ℕ) :
    digitsValue 10 (List.replicate k 0 ++ digits) = digitsValue 10 digits := by
  rw [digitsValue, List.reverse_append, List.reverse_replicate,
    Nat.ofDigits_append_replicate_zero, digitsValue]

section Integers

/-- The digits that a natural number is printed with. -/
theorem printNat_eq (n : ℕ) : ∃ digits, printNat n = chars digits ∧ digits ≠ [] ∧
    (∀ d ∈ digits, d < 10) ∧ digitsValue 10 digits = n := by
  unfold printNat
  split_ifs with hzero
  · exact ⟨[0],rfl,by simp,by simp,by simp [digitsValue, hzero]⟩
  · refine ⟨(Nat.digits 10 n).reverse,rfl,?_,?_,?_⟩
    · exact mt List.reverse_eq_nil_iff.mp (Nat.digits_ne_nil_iff_ne_zero.mpr hzero)
    · intro d hd
      exact Nat.digits_lt_base (by norm_num) (List.mem_reverse.mp hd)
    · rw [digitsValue, List.reverse_reverse, Nat.ofDigits_digits]

theorem exponentDigits_eq (n : ℕ) : ∃ digits, exponentDigits n = chars digits ∧ digits ≠ [] ∧
    (∀ d ∈ digits, d < 10) ∧ digitsValue 10 digits = n := by
  obtain ⟨digits,hprint,hne,hlt,hvalue⟩ := printNat_eq n
  unfold exponentDigits
  split_ifs
  · refine ⟨0 :: digits,by rw [hprint]; rfl,by simp,?_,?_⟩
    · intro d hd
      rcases List.mem_cons.mp hd with rfl | hd
      · norm_num
      · exact hlt d hd
    · rw [← hvalue]
      exact digitsValue_zeros_append digits 1
  · exact ⟨digits,hprint,hne,hlt,hvalue⟩

theorem printInt_mem (z : ℤ) : ∀ c ∈ printInt z, c ∈ numberChars := by
  obtain ⟨digits,hprint,-,hlt,-⟩ := printNat_eq z.natAbs
  unfold printInt
  rw [hprint]
  split_ifs
  · intro c hc
    rcases List.mem_cons.mp hc with rfl | hc
    · decide
    · exact chars_mem hlt c hc
  · exact chars_mem hlt

theorem readInteger_printInt (z : ℤ) : readInteger (printInt z) = some z := by
  obtain ⟨digits,hprint,hne,hlt,hvalue⟩ := printNat_eq z.natAbs
  have hstop : Stops [] := by simp [Stops]
  have hread := readDigits_chars hlt hstop
  have hsign := readSign_chars hne hlt []
  rw [List.append_nil] at hread hsign
  simp only [readInteger, dropWhile_isSpace (printInt_mem z)]
  by_cases hneg : z < 0
  · have htext : printInt z = '-' :: chars digits := by rw [printInt, if_pos hneg, hprint]
    simp only [htext, readSign, hread, if_neg hne, hvalue, if_true, Option.some.injEq]
    omega
  · have htext : printInt z = chars digits := by rw [printInt, if_neg hneg, hprint]
    simp only [htext, hsign, hread, if_neg hne, hvalue, Bool.false_eq_true, if_false,
      Option.some.injEq]
    omega

theorem stoll_printInt {z : ℤ} (hlow : -2 ^ 63 ≤ z) (hhigh : z < 2 ^ 63) :
    stoll (printInt z) = .ok z := by
  simp only [stoll, toInteger, readInteger_printInt]
  exact if_pos ⟨hlow,hhigh⟩

end Integers

/-- Digits in front of a point and behind it, and an exponent. -/
structure Decimal where
  whole : List ℕ
  fraction : List ℕ
  exponent : Option ℤ
  whole_ne : whole ≠ []
  digits_lt : ∀ d ∈ whole ++ fraction, d < 10

namespace Decimal
variable (d : Decimal)

def tail : List Char :=
  match d.exponent with
  | none => []
  | some x => 'e' :: (if x < 0 then '-' else '+') :: exponentDigits x.natAbs

def text : List Char := chars d.whole ++ (Text.fraction d.fraction ++ d.tail)

def value : ℚ :=
  digitsValue 10 (d.whole ++ d.fraction) / 10 ^ d.fraction.length * 10 ^ d.exponent.getD 0

theorem whole_lt : ∀ n ∈ d.whole, n < 10 := fun n hn => d.digits_lt n (by simp [hn])

theorem fraction_lt : ∀ n ∈ d.fraction, n < 10 := fun n hn => d.digits_lt n (by simp [hn])

theorem tail_mem : ∀ c ∈ d.tail, c ∈ numberChars := by
  unfold tail
  cases d.exponent with
  | none => simp
  | some x =>
    obtain ⟨digits,hprint,-,hlt,-⟩ := exponentDigits_eq x.natAbs
    dsimp only
    rw [hprint]
    intro c hc
    rcases List.mem_cons.mp hc with rfl | hc
    · decide
    rcases List.mem_cons.mp hc with rfl | hc
    · split_ifs <;> decide
    · exact chars_mem hlt c hc

theorem text_mem : ∀ c ∈ d.text, c ∈ numberChars := by
  intro c hc
  rcases List.mem_append.mp hc with hc | hc
  · exact chars_mem d.whole_lt c hc
  rcases List.mem_append.mp hc with hc | hc
  · unfold Text.fraction at hc
    split_ifs at hc with hnil
    · exact absurd hc List.not_mem_nil
    · rcases List.mem_cons.mp hc with rfl | hc
      · decide
      · exact chars_mem d.fraction_lt c hc
  · exact d.tail_mem c hc

theorem stops_tail : Stops d.tail := by
  unfold tail
  cases d.exponent with
  | none => simp [Stops]
  | some x =>
    intro c hc
    simp only [List.head?_cons, Option.mem_def, Option.some.injEq] at hc
    subst c
    rfl

theorem readExponent_tail : readExponent 'e' d.tail = d.exponent.getD 0 := by
  unfold tail
  cases d.exponent with
  | none => rfl
  | some x =>
    obtain ⟨digits,hprint,-,hlt,hvalue⟩ := exponentDigits_eq x.natAbs
    have hstop : Stops [] := by simp [Stops]
    have hread := readDigits_chars hlt hstop
    rw [List.append_nil] at hread
    dsimp only
    rw [hprint, Option.getD_some]
    have hmark : ('e' : Char).toLower = 'e' := by decide
    split_ifs with hneg
    · simp only [readExponent, readSign, hread, hvalue, if_pos hmark, if_true]
      omega
    · simp only [readExponent, readSign, hread, hvalue, if_pos hmark, Bool.false_eq_true, if_false]
      omega

theorem stops_fraction : Stops (Text.fraction d.fraction ++ d.tail) := by
  unfold Text.fraction
  split_ifs
  · exact d.stops_tail
  · intro c hc
    simp only [List.cons_append, List.head?_cons, Option.mem_def, Option.some.injEq] at hc
    subst c
    rfl

theorem readUnsigned_text : readUnsigned 10 'e' 10 d.text = some d.value := by
  have hne : d.whole ++ d.fraction ≠ [] := by simp [d.whole_ne]
  have hread := readDigits_chars d.whole_lt d.stops_fraction
  by_cases hnil : d.fraction = []
  · have hpoint : ∀ cs, d.tail ≠ '.' :: cs := by
      unfold tail
      cases d.exponent <;> simp
    have hfraction : Text.fraction d.fraction ++ d.tail = d.tail := by simp [Text.fraction, hnil]
    rw [hfraction] at hread
    rw [hnil] at hne
    simp only [readUnsigned, text, hfraction, hread, if_neg hne, d.readExponent_tail]
    simp only [value, hnil, Nat.cast_ofNat]
  · have hfraction : Text.fraction d.fraction ++ d.tail =
        '.' :: (chars d.fraction ++ d.tail) := by simp [Text.fraction, hnil]
    rw [hfraction] at hread
    simp only [readUnsigned, text, hfraction, hread, readDigits_chars d.fraction_lt d.stops_tail,
      if_neg hne, d.readExponent_tail, value, Nat.cast_ofNat]

theorem readMagnitude_text : readMagnitude d.text = some d.value := by
  rw [← d.readUnsigned_text]
  unfold readMagnitude
  split
  · rename_i x cs htext
    have hx : x ∈ d.text := by simp [htext]
    rw [if_neg (toLower_ne_x_of_mem x (d.text_mem x hx)), htext]
  · rfl

theorem readSign_text : readSign d.text = (false,d.text) :=
  readSign_chars d.whole_ne d.whole_lt _

end Decimal

section Layout
variable {digits : List ℕ}

/-- In fixed notation the point stands behind the digit that counts ones, and zeros fill the
gap if there is one. -/
theorem layout_whole (hne : digits ≠ []) (hlt : ∀ d ∈ digits, d < 10) {p : ℕ} {x : ℤ}
    (hfixed : -4 ≤ x ∧ x < p) (hx : 0 ≤ x) : ∃ d : Decimal, layout p digits x = d.text ∧
      d.value = digitsValue 10 digits * 10 ^ (x + 1 - digits.length) := by
  have hsplit : digits.take (x.toNat + 1) ++ List.replicate (x.toNat + 1 - digits.length) 0 ++
      digits.drop (x.toNat + 1) = digits ++ List.replicate (x.toNat + 1 - digits.length) 0 := by
    by_cases hlen : digits.length ≤ x.toNat + 1
    · rw [List.take_of_length_le hlen, List.drop_eq_nil_of_le hlen, List.append_nil]
    · rw [show x.toNat + 1 - digits.length = 0 by omega, List.replicate_zero, List.append_nil,
        List.append_nil, List.take_append_drop]
  refine ⟨⟨digits.take (x.toNat + 1) ++ List.replicate (x.toNat + 1 - digits.length) 0,
    digits.drop (x.toNat + 1),none,by simp [hne],?_⟩,?_,?_⟩
  · rw [hsplit]
    intro d hd
    rcases List.mem_append.mp hd with hd | hd
    · exact hlt d hd
    · rw [List.eq_of_mem_replicate hd]
      norm_num
  · simp [layout, hfixed, hx, Decimal.text, Decimal.tail]
  · simp only [Decimal.value, hsplit, digitsValue_append_zeros, List.length_drop,
      Option.getD_none, zpow_zero, mul_one]
    push_cast
    rw [mul_div_assoc, ← zpow_natCast, ← zpow_natCast, ← zpow_sub₀ (by norm_num)]
    congr 2
    omega

/-- A number below one in fixed notation starts with a zero. -/
theorem layout_small (hlt : ∀ d ∈ digits, d < 10) {p : ℕ} {x : ℤ}
    (hfixed : -4 ≤ x ∧ x < p) (hx : ¬0 ≤ x) : ∃ d : Decimal, layout p digits x = d.text ∧
      d.value = digitsValue 10 digits * 10 ^ (x + 1 - digits.length) := by
  have hzeros := digitsValue_zeros_append digits ((-x - 1).toNat + 1)
  rw [List.replicate_succ, List.cons_append] at hzeros
  refine ⟨⟨[0],List.replicate (-x - 1).toNat 0 ++ digits,none,by simp,?_⟩,?_,?_⟩
  · intro d hd
    simp only [List.cons_append, List.nil_append, List.mem_cons, List.mem_append,
      List.mem_replicate] at hd
    rcases hd with rfl | ⟨-,rfl⟩ | hd
    · norm_num
    · norm_num
    · exact hlt d hd
  · simp [layout, hfixed, hx, Decimal.text, Decimal.tail, chars]
  · simp only [Decimal.value, List.cons_append, List.nil_append, hzeros, List.length_append,
      List.length_replicate, Option.getD_none, zpow_zero, mul_one]
    rw [div_eq_mul_inv, ← zpow_natCast, ← zpow_neg]
    congr 2
    omega

theorem layout_exponent (hne : digits ≠ []) (hlt : ∀ d ∈ digits, d < 10) {p : ℕ} {x : ℤ}
    (hfixed : ¬(-4 ≤ x ∧ x < p)) : ∃ d : Decimal, layout p digits x = d.text ∧
      d.value = digitsValue 10 digits * 10 ^ (x + 1 - digits.length) := by
  have hpos : 0 < digits.length := List.length_pos_iff.mpr hne
  refine ⟨⟨digits.take 1,digits.drop 1,some x,by simp [hne],?_⟩,?_,?_⟩
  · rwa [List.take_append_drop]
  · simp [layout, if_neg hfixed, Decimal.text, Decimal.tail]
  · simp only [Decimal.value, List.take_append_drop, List.length_drop, Option.getD_some]
    rw [div_mul_eq_mul_div, mul_div_assoc, ← zpow_natCast, ← zpow_sub₀ (by norm_num)]
    congr 2
    omega

/-- Whatever notation is chosen, the text has the value of the digits, the first of which
counts tens to the power `x`. -/
theorem layout_eq (p : ℕ) (hne : digits ≠ []) (hlt : ∀ d ∈ digits, d < 10) (x : ℤ) :
    ∃ d : Decimal, layout p digits x = d.text ∧
      d.value = digitsValue 10 digits * 10 ^ (x + 1 - digits.length) := by
  by_cases hfixed : -4 ≤ x ∧ x < p
  · by_cases hx : 0 ≤ x
    · exact layout_whole hne hlt hfixed hx
    · exact layout_small hlt hfixed hx
  · exact layout_exponent hne hlt hfixed

end Layout

/-- The significand without its trailing zeros. -/
theorem significant_spec {p n : ℕ} (hp : 0 < p) (hlow : 10 ^ (p - 1) ≤ n) (hhigh : n < 10 ^ p) :
    significant n ≠ [] ∧ (∀ d ∈ significant n, d < 10) ∧ ∃ zeros,
      (significant n).length + zeros = p ∧ digitsValue 10 (significant n) * 10 ^ zeros = n := by
  have hpos : 0 < n := lt_of_lt_of_le (Nat.pow_pos (by omega)) hlow
  obtain ⟨zeros,hzeros⟩ : ∃ zeros, (Nat.digits 10 n).takeWhile (· == 0) =
      List.replicate zeros 0 := by
    refine ⟨_,List.eq_replicate_iff.mpr ⟨rfl,?_⟩⟩
    intro d hd
    simpa using List.mem_takeWhile_imp hd
  have hsplit : List.replicate zeros 0 ++ (Nat.digits 10 n).dropWhile (· == 0) =
      Nat.digits 10 n := by
    rw [← hzeros, List.takeWhile_append_dropWhile]
  have hlength : (Nat.digits 10 n).length = p := by
    have hle : (Nat.digits 10 n).length ≤ p := (Nat.digits_length_le_iff (by norm_num) n).mpr hhigh
    have hge : p - 1 < (Nat.digits 10 n).length :=
      (Nat.lt_digits_length_iff (by norm_num) n).mpr hlow
    omega
  have hvalue : digitsValue 10 (significant n) * 10 ^ zeros = n := by
    have hn := congrArg (Nat.ofDigits 10) hsplit
    rw [Nat.ofDigits_append, Nat.ofDigits_replicate_zero, List.length_replicate, zero_add,
      Nat.ofDigits_digits] at hn
    rw [digitsValue, significant, List.reverse_reverse, mul_comm]
    exact hn
  refine ⟨?_,?_,zeros,?_,hvalue⟩
  · intro hnil
    rw [hnil] at hvalue
    simp [digitsValue] at hvalue
    omega
  · intro d hd
    apply Nat.digits_lt_base (by norm_num)
    rw [← hsplit]
    exact List.mem_append_right _ (List.mem_reverse.mp hd)
  · have hlen := congrArg List.length hsplit
    rw [List.length_append, List.length_replicate, hlength] at hlen
    rw [significant, List.length_reverse]
    omega

/-- A positive number is printed as a decimal of its rounded value. -/
theorem printPositive_eq {p : ℕ} {m : ℚ} (hp : 0 < p) (hm : 0 < m) :
    ∃ d : Decimal, printPositive p m = d.text ∧ d.value = scientificValue p m := by
  obtain ⟨hlow,hhigh⟩ := scientific_bounds hp hm
  obtain ⟨hne,hlt,zeros,hlength,hvalue⟩ := significant_spec hp hlow hhigh
  obtain ⟨d,htext,hd⟩ := layout_eq p hne hlt (scientific p m).2
  refine ⟨d,htext,?_⟩
  have hcast : (digitsValue 10 (significant (scientific p m).1) : ℚ) * 10 ^ zeros =
      (scientific p m).1 := by exact_mod_cast hvalue
  rw [hd, scientificValue, ← hcast, mul_assoc, ← zpow_natCast, ← zpow_add₀ (by norm_num)]
  congr 2
  omega

/-- The bound of the doubles lies between two neighbours of six digits, above their lower
half. -/
theorem double_range : (179769 : ℕ) * 10 ^ (303 : ℤ) < (2 ^ 1024 - 2 ^ 970 : ℚ) ∧
    (2 ^ 1024 - 2 ^ 970 : ℚ) ≤ ((179769 : ℕ) + 1/2) * 10 ^ (303 : ℤ) := by
  have hlow : 179769 * 10 ^ 303 + 2 ^ 970 < 2 ^ 1024 := by decide +kernel
  have hhigh : 2 * 2 ^ 1024 ≤ 359539 * 10 ^ 303 + 2 * 2 ^ 970 := by decide +kernel
  have hlowQ : (179769 : ℚ) * 10 ^ 303 + 2 ^ 970 < 2 ^ 1024 := by exact_mod_cast hlow
  have hhighQ : (2 : ℚ) * 2 ^ 1024 ≤ 359539 * 10 ^ 303 + 2 * 2 ^ 970 := by exact_mod_cast hhigh
  rw [show (303 : ℤ) = (303 : ℕ) from rfl, zpow_natCast]
  push_cast
  generalize (2 : ℚ) ^ 1024 = a at *
  generalize (2 : ℚ) ^ 970 = b at *
  generalize (10 : ℚ) ^ 303 = t at *
  constructor <;> linarith

/-- Six digits of a finite double are still in the range of doubles. -/
theorem scientificValue_lt {m : ℚ} (hm : 0 < m) (h : m < 2 ^ 1024 - 2 ^ 970) :
    scientificValue defaultPrecision m < 2 ^ 1024 - 2 ^ 970 :=
  (scientificValue_le (by decide) hm (by decide) (by decide)
    (h.trans_le double_range.2)).trans_lt double_range.1

theorem printDouble_mem (q : ℚ) : ∀ c ∈ printDouble q, c ∈ numberChars := by
  have hp : 0 < defaultPrecision := by decide
  unfold printDouble
  split_ifs with hzero hneg
  · simp [numberChars]
  · obtain ⟨d,htext,-⟩ := printPositive_eq hp (show 0 < -q by linarith)
    rw [htext]
    intro c hc
    rcases List.mem_cons.mp hc with rfl | hc
    · decide
    · exact d.text_mem c hc
  · obtain ⟨d,htext,-⟩ := printPositive_eq hp (lt_of_le_of_ne (not_lt.mp hneg) (Ne.symm hzero))
    rw [htext]
    exact d.text_mem

/-- A finite double is read back as its six significant digits. -/
theorem stod_printDouble {q : ℚ} (h : |q| < 2 ^ 1024 - 2 ^ 970) :
    stod (printDouble q) = .ok (rounded q) := by
  have hp : 0 < defaultPrecision := by decide
  change stodExact (printDouble q) = _
  unfold stodExact
  rw [dropWhile_isSpace (printDouble_mem q)]
  unfold printDouble rounded
  split_ifs with hzero hneg
  · let zero : Decimal := ⟨[0],[],none,by simp,by simp⟩
    have hvalue : zero.value = 0 := by simp [Decimal.value, zero, digitsValue]
    rw [hzero, abs_zero] at h
    rw [show ['0'] = zero.text from rfl]
    simp only [zero.readSign_text, zero.readMagnitude_text, hvalue, if_neg (not_le.mpr h),
      Bool.false_eq_true, if_false]
  · have hpos : 0 < -q := by linarith
    obtain ⟨d,htext,hvalue⟩ := printPositive_eq hp hpos
    rw [abs_of_neg hneg] at h
    have hlt := scientificValue_lt hpos h
    rw [htext]
    simp only [readSign, d.readMagnitude_text, hvalue, if_neg (not_le.mpr hlt), if_true]
  · have hpos : 0 < q := lt_of_le_of_ne (not_lt.mp hneg) (Ne.symm hzero)
    obtain ⟨d,htext,hvalue⟩ := printPositive_eq hp hpos
    rw [abs_of_pos hpos] at h
    have hlt := scientificValue_lt hpos h
    rw [htext]
    simp only [d.readSign_text, d.readMagnitude_text, hvalue, if_neg (not_le.mpr hlt),
      Bool.false_eq_true, if_false]

end HftEngine.Text
