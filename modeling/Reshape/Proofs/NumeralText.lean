import Reshape.Number.Numeral
import Reshape.Proofs.Sorting

/-!
# Numerals as they are written

The text of a number is a numeral of JSON texts. `Number.numeral` says which one, part by part, and
`Numeral.ofChars?_chars` reads the parts back from the characters. That the whole part begins with
no superfluous zero rests on the shortest decimals: only zero has the digit `0` alone, and its point
stands right behind it (`Decimal.exponent_of_digits_eq_zero`).
-/

namespace Reshape

/-! ## Written numerals are read back -/

/-- The sign as it is written. -/
def Sign.chars : Sign → List Char
  | .absent => []
  | .plus => ['+']
  | .minus => ['-']

theorem Sign.split_chars_append (sign : Sign) {c : Char} (digit : c.isDigit = true)
    (rest : List Char) : split (sign.chars ++ c :: rest) = (sign, c :: rest) := by
  cases sign with
  | absent =>
    change split (c :: rest) = _
    unfold split
    split
    · next same => cases same; exact absurd digit (by decide)
    · next same => cases same; exact absurd digit (by decide)
    · rfl
  | plus => rfl
  | minus => rfl

namespace Numeral

/-- The digits behind the point as they are written. -/
def fractionChars : Option (List Char) → List Char
  | none => []
  | some digits => '.' :: digits

/-- The power of ten as it is written. -/
def exponentChars : Option (Sign × List Char) → List Char
  | none => []
  | some (sign, digits) => 'e' :: (sign.chars ++ digits)

/-- The numeral as it is written. -/
def chars (n : Numeral) : List Char :=
  n.sign.chars ++ (n.whole ++ (fractionChars n.fraction ++ exponentChars n.exponent))

/-- The parts of a numeral hold digits only, and a power has some. -/
structure Digital (n : Numeral) : Prop where
  whole : ∀ c ∈ n.whole, c.isDigit = true
  fraction : ∀ digits ∈ n.fraction, ∀ c ∈ digits, c.isDigit = true
  exponent : ∀ power ∈ n.exponent, power.2 ≠ [] ∧ ∀ c ∈ power.2, c.isDigit = true

theorem takeWhile_digits {digits rest : List Char} (digital : ∀ c ∈ digits, c.isDigit = true)
    (stop : rest.takeWhile Char.isDigit = []) :
    (digits ++ rest).takeWhile Char.isDigit = digits := by
  rw [List.takeWhile_append_of_pos digital, stop, List.append_nil]

theorem dropWhile_digits {digits rest : List Char} (digital : ∀ c ∈ digits, c.isDigit = true)
    (stop : rest.takeWhile Char.isDigit = []) :
    (digits ++ rest).dropWhile Char.isDigit = rest := by
  have parts := List.takeWhile_append_dropWhile (p := Char.isDigit) (l := rest)
  rw [stop, List.nil_append] at parts
  rw [List.dropWhile_append_of_pos digital, parts]

theorem splitFraction_chars {fraction : Option (List Char)}
    (digital : ∀ digits ∈ fraction, ∀ c ∈ digits, c.isDigit = true)
    (exponent : Option (Sign × List Char)) :
    splitFraction (fractionChars fraction ++ exponentChars exponent) =
      (fraction, exponentChars exponent) := by
  have stop : (exponentChars exponent).takeWhile Char.isDigit = [] := by cases exponent <;> rfl
  cases fraction with
  | none => cases exponent <;> rfl
  | some digits =>
    change (some ((digits ++ _).takeWhile Char.isDigit), (digits ++ _).dropWhile Char.isDigit) = _
    rw [takeWhile_digits (digital digits rfl) stop, dropWhile_digits (digital digits rfl) stop]

theorem splitExponent?_chars {exponent : Option (Sign × List Char)}
    (digital : ∀ power ∈ exponent, power.2 ≠ [] ∧ ∀ c ∈ power.2, c.isDigit = true) :
    splitExponent? (exponentChars exponent) = some exponent := by
  rcases exponent with _ | ⟨sign, _ | ⟨c, rest⟩⟩
  · rfl
  · exact absurd rfl (digital _ rfl).1
  · have all : (c :: rest).all Char.isDigit = true := List.all_eq_true.mpr (digital _ rfl).2
    have first : c.isDigit = true := (digital _ rfl).2 c List.mem_cons_self
    unfold exponentChars splitExponent?
    dsimp only
    rw [Sign.split_chars_append sign first]
    dsimp only
    rw [all]
    rfl

/-- A numeral with digits in front is read back from its characters. -/
theorem ofChars?_chars {n : Numeral} (digital : n.Digital) (full : n.whole ≠ []) :
    ofChars? n.chars = some n := by
  obtain ⟨sign, whole, fraction, exponent⟩ := n
  obtain ⟨c, rest, rfl⟩ := List.exists_cons_of_ne_nil full
  have first : c.isDigit = true := digital.whole c List.mem_cons_self
  have stop : (fractionChars fraction ++ exponentChars exponent).takeWhile Char.isDigit = [] := by
    cases fraction <;> cases exponent <;> rfl
  have taken := takeWhile_digits digital.whole stop
  have dropped := dropWhile_digits digital.whole stop
  unfold ofChars? chars
  rw [List.cons_append, Sign.split_chars_append sign first, ← List.cons_append]
  dsimp only
  rw [taken, dropped, splitFraction_chars digital.fraction, splitExponent?_chars digital.exponent]
  rfl

end Numeral

/-! ## Digits of a number -/

/-- Only zero begins with a zero. -/
theorem head?_toDigits_ne {n : Nat} (positive : 0 < n) :
    (Nat.toDigits 10 n).head? ≠ some '0' := by
  induction n using Nat.strongRecOn with
  | ind n ih =>
    by_cases single : n < 10
    · have digits : ∀ n < 10, 0 < n → [Nat.digitChar n].head? ≠ some '0' := by decide
      rw [Nat.toDigits_of_lt_base single]
      exact digits n single positive
    · have shorter : 0 < n / 10 := Nat.div_pos (by omega) (by decide)
      rw [Nat.toDigits_of_base_le (by decide) (by omega),
        List.head?_append_of_ne_nil _ Nat.toDigits_ne_nil]
      exact ih (n / 10) (by omega) shorter

namespace Decimal

/-- A decimal that reads back as a positive double is not zero. -/
theorem digits_ne_zero_of_readsBack {rank : Nat} {d : Decimal} (positive : 0 < rank)
    (back : readsBack rank d = true) : d.digits ≠ 0 := by
  intro zero
  have units : 0 < Double.unitsOfRank rank :=
    Nat.zero_lt_of_lt (Double.unitsOfRank_strictMono positive)
  have lowered : 0 < lower d.exponent := Nat.pow_pos (by decide)
  have least : 0 < (Double.unitsOfRank (rank - 1) + Double.unitsOfRank rank) * lower d.exponent :=
    Nat.mul_pos (Nat.add_pos_right _ units) lowered
  unfold readsBack at back
  rw [zero, Nat.mul_zero, Nat.zero_mul] at back
  dsimp only at back
  split at back
  · rw [Bool.and_eq_true, decide_eq_true_eq] at back
    omega
  · rw [Bool.and_eq_true, decide_eq_true_eq] at back
    omega

theorem readsBack_of_onGrid? {tie : Tie} {rank : Nat} {exponent : Int} {d : Decimal}
    (found : onGrid? tie rank exponent = some d) : readsBack rank d = true := by
  unfold onGrid? at found
  dsimp only at found
  split at found
  · next below above =>
    rw [← Option.some.inj found]
    split
    · exact below
    · exact above
  · next below _ => exact Option.some.inj found ▸ below
  · next _ above => exact Option.some.inj found ▸ above
  · cases found

/-- The shortest decimal of a rank has the digits `0` only with the point right behind them. -/
theorem exponent_of_digits_eq_zero {tie : Tie} {rank : Nat}
    (zero : (shortest tie rank).digits = 0) : (shortest tie rank).exponent = 0 := by
  unfold shortest at *
  split
  · rfl
  · next positive =>
    rw [if_neg positive] at zero
    cases found : (gridExponents rank).findSome? (onGrid? tie rank) with
    | none => rfl
    | some d =>
      rw [found] at zero
      obtain ⟨exponent, _, onGrid⟩ := List.exists_of_findSome?_eq_some found
      exact absurd zero
        (digits_ne_zero_of_readsBack (Nat.pos_of_ne_zero positive) (readsBack_of_onGrid? onGrid))

end Decimal

/-! ## Numerals of numbers -/

/-- Digits in front of which no zero stands, unless they are a single zero before the point. -/
structure Leading (digits : List Char) (point : Int) : Prop where
  digital : ∀ c ∈ digits, c.isDigit = true
  nonempty : digits ≠ []
  leading : digits = ['0'] ∧ point = 1 ∨ digits.head? ≠ some '0'

namespace Numeral

/-- The parts of `positionalText`. -/
def positional (sign : Sign) (digits : List Char) (point : Int) : Numeral :=
  if point ≤ 0 then
    ⟨sign, ['0'], some (List.replicate (-point).toNat '0' ++ digits), none⟩
  else if digits.length ≤ point.toNat then
    ⟨sign, digits ++ List.replicate (point.toNat - digits.length) '0', some ['0'], none⟩
  else ⟨sign, digits.take point.toNat, some (digits.drop point.toNat), none⟩

/-- The parts of `exponentText`. -/
def scientific (sign : Sign) (digits : List Char) (point : Int) : Numeral :=
  ⟨sign, digits.take 1, if digits.length ≤ 1 then none else some (digits.drop 1),
    some (if point - 1 < 0 then .minus else .plus, Nat.toDigits 10 (point - 1).natAbs)⟩

variable (sign : Sign) {digits : List Char} {point : Int}

theorem chars_positional (digits : List Char) (point : Int) :
    (positional sign digits point).chars = sign.chars ++ positionalText true digits point := by
  unfold positional positionalText
  split
  · simp [chars, fractionChars, exponentChars]
  · split
    · simp [chars, fractionChars, exponentChars]
    · simp [chars, fractionChars, exponentChars]

theorem chars_scientific (digits : List Char) (point : Int) :
    (scientific sign digits point).chars = sign.chars ++ exponentText digits point := by
  unfold scientific exponentText
  dsimp only
  split
  · split <;> simp [chars, fractionChars, exponentChars, Sign.chars]
  · split <;> simp [chars, fractionChars, exponentChars, Sign.chars]

theorem digital_positional (shape : Leading digits point) :
    (positional sign digits point).Digital := by
  have zeros : ∀ n, ∀ c ∈ List.replicate n '0', c.isDigit = true := by
    intro n c member
    rw [(List.mem_replicate.mp member).2]
    rfl
  have zero : ∀ c ∈ ['0'], c.isDigit = true := zeros 1
  unfold positional
  split
  · refine ⟨zero, fun fraction same => ?_, nofun⟩
    cases same
    exact List.forall_mem_append.mpr ⟨zeros _, shape.digital⟩
  · split
    · refine ⟨List.forall_mem_append.mpr ⟨shape.digital, zeros _⟩, fun fraction same => ?_, nofun⟩
      cases same
      exact zero
    · refine ⟨fun c member => shape.digital c (List.mem_of_mem_take member),
        fun fraction same => ?_, nofun⟩
      cases same
      exact fun c member => shape.digital c (List.mem_of_mem_drop member)

theorem digital_scientific (shape : Leading digits point) :
    (scientific sign digits point).Digital := by
  refine ⟨fun c member => shape.digital c (List.mem_of_mem_take member), fun fraction same => ?_,
    fun power same => ?_⟩
  · unfold scientific at same
    dsimp only at same
    split at same
    · cases same
    · cases same
      exact fun c member => shape.digital c (List.mem_of_mem_drop member)
  · cases same
    exact ⟨Nat.toDigits_ne_nil, fun c => Nat.isDigit_of_mem_toDigits (by decide) (by decide)⟩

theorem isJson_positional {sign : Sign} (unsigned : sign ≠ .plus) (shape : Leading digits point) :
    (positional sign digits point).IsJson := by
  have nonempty := shape.nonempty
  unfold positional
  split
  · refine ⟨unsigned, Or.inl rfl, fun same => ?_⟩
    exact nonempty (List.append_eq_nil_iff.mp (Option.some.inj same)).2
  · next before =>
    split
    · refine ⟨unsigned, ?_, by simp⟩
      rcases shape.leading with ⟨rfl, rfl⟩ | leading
      · exact Or.inl rfl
      · refine Or.inr ⟨List.append_ne_nil_of_left_ne_nil nonempty _, ?_⟩
        rw [List.head?_append_of_ne_nil _ nonempty]
        exact leading
    · next inside =>
      have front : digits.take point.toNat ≠ [] := by
        rw [Ne, List.take_eq_nil_iff, not_or]
        exact ⟨by omega, nonempty⟩
      refine ⟨unsigned, ?_, fun same => ?_⟩
      · rcases shape.leading with ⟨rfl, rfl⟩ | leading
        · exact absurd (Nat.le_refl 1) inside
        · refine Or.inr ⟨front, ?_⟩
          rw [List.head?_take, if_neg (by omega)]
          exact leading
      · have none_left := List.drop_eq_nil_iff.mp (Option.some.inj same)
        omega

theorem isJson_scientific {sign : Sign} (unsigned : sign ≠ .plus) (shape : Leading digits point) :
    (scientific sign digits point).IsJson := by
  obtain ⟨c, rest, rfl⟩ := List.exists_cons_of_ne_nil shape.nonempty
  refine ⟨unsigned, ?_, fun same => ?_⟩
  · change [c] = ['0'] ∨ [c] ≠ [] ∧ some c ≠ some '0'
    by_cases zero : c = '0'
    · exact Or.inl (congrArg (fun c => [c]) zero)
    · exact Or.inr ⟨List.cons_ne_nil _ _, fun same => zero (Option.some.inj same)⟩
  · unfold scientific at same
    dsimp only at same
    split at same
    · cases same
    · next several =>
      have none_left := List.drop_eq_nil_iff.mp (Option.some.inj same)
      exact several none_left

end Numeral

theorem leading_shortest (tie : Tie) (rank : Nat) :
    let decimal := Decimal.shortest tie rank
    let digits := Nat.toDigits 10 decimal.digits
    Leading digits (digits.length + decimal.exponent) := by
  intro decimal digits
  refine ⟨fun c => Nat.isDigit_of_mem_toDigits (by decide) (by decide), Nat.toDigits_ne_nil, ?_⟩
  by_cases zero : decimal.digits = 0
  · have digits_eq : digits = ['0'] := by
      unfold digits
      rw [zero, Nat.toDigits_zero]
    refine Or.inl ⟨digits_eq, ?_⟩
    rw [digits_eq, Decimal.exponent_of_digits_eq_zero zero]
    rfl
  · exact Or.inr (head?_toDigits_ne (Nat.pos_of_ne_zero zero))

/-- The sign of a number whose text has a minus sign or none. -/
def Sign.ofNegative (negative : Bool) : Sign := if negative then .minus else .absent

theorem Sign.ofNegative_ne_plus (negative : Bool) : ofNegative negative ≠ .plus := by
  cases negative <;> decide

theorem Sign.chars_ofNegative (negative : Bool) :
    (ofNegative negative).chars = if negative then ['-'] else [] := by
  cases negative <;> rfl

/-- The numeral that the text of a double is. -/
def Double.numeral (x : Double) : Numeral :=
  let decimal := Decimal.shortest jsonLayout.tie x.rank
  let digits := Nat.toDigits 10 decimal.digits
  let point := digits.length + decimal.exponent
  if jsonLayout.positional point then .positional (.ofNegative x.negative) digits point
  else .scientific (.ofNegative x.negative) digits point

/-- The numeral that the text of a number is. -/
def Number.numeral : Number → Numeral
  | .integer value => ⟨.ofNegative (value < 0), Nat.toDigits 10 value.natAbs, none, none⟩
  | .double x => x.numeral

namespace Number

theorem chars_numeral (value : Number) : value.numeral.chars = value.text.toList := by
  cases value with
  | integer value =>
    simp [numeral, text, integerText, Numeral.chars, Numeral.fractionChars,
      Numeral.exponentChars, Sign.chars_ofNegative]
  | double x =>
    rw [text, Double.text, String.toList_ofList, numeral, Double.numeral]
    split
    · rw [Numeral.chars_positional, Sign.chars_ofNegative]
      rfl
    · rw [Numeral.chars_scientific, Sign.chars_ofNegative]

theorem digital_numeral (value : Number) : value.numeral.Digital := by
  cases value with
  | integer value =>
    exact ⟨fun c => Nat.isDigit_of_mem_toDigits (by decide) (by decide), nofun, nofun⟩
  | double x =>
    have shape := leading_shortest jsonLayout.tie x.rank
    unfold numeral Double.numeral
    dsimp only
    split
    · exact Numeral.digital_positional _ shape
    · exact Numeral.digital_scientific _ shape

theorem isJson_numeral (value : Number) : value.numeral.IsJson := by
  cases value with
  | integer value =>
    refine ⟨Sign.ofNegative_ne_plus _, ?_, nofun⟩
    by_cases zero : value.natAbs = 0
    · exact Or.inl (by rw [numeral, zero, Nat.toDigits_zero])
    · exact Or.inr ⟨Nat.toDigits_ne_nil, head?_toDigits_ne (Nat.pos_of_ne_zero zero)⟩
  | double x =>
    have shape := leading_shortest jsonLayout.tie x.rank
    unfold numeral Double.numeral
    dsimp only
    split
    · exact Numeral.isJson_positional (Sign.ofNegative_ne_plus _) shape
    · exact Numeral.isJson_scientific (Sign.ofNegative_ne_plus _) shape

end Number

end Reshape
