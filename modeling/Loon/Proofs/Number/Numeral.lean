import Loon.Proofs.Number.Nearest
import Mathlib.Data.List.TakeWhile
import Mathlib.Tactic.FieldSimp

namespace Loon.Numeral

open Double (Rounds overflow)

@[simp] theorem digitsValue_concat (ds : List Char) (c : Char) :
    digitsValue (ds ++ [c]) = 10 * digitsValue ds + (c.toNat - 48) := by
  simp [digitsValue]

@[simp] theorem exponentValue_concat (ds : List Char) (c : Char) :
    exponentValue (ds ++ [c]) =
      if exponentValue ds < 65536 then 10 * exponentValue ds + (c.toNat - 48) else exponentValue ds := by
  rw [exponentValue, List.foldl_append]
  rfl

theorem digitsValue_append (ds es : List Char) :
    digitsValue (ds ++ es) = digitsValue ds * 10 ^ es.length + digitsValue es := by
  induction es using List.reverseRecOn with
  | nil => simp [digitsValue]
  | append_singleton es c ih =>
    rw [← List.append_assoc, digitsValue_concat, digitsValue_concat, ih, List.length_append,
      List.length_singleton, pow_succ]
    ring

theorem digitsValue_lt {ds : List Char} (h : ∀ c ∈ ds, c.isDigit = true) :
    digitsValue ds < 10 ^ ds.length := by
  induction ds using List.reverseRecOn with
  | nil => simp [digitsValue]
  | append_singleton ds c ih =>
    have hlt := ih fun d hd => h d (List.mem_append_left _ hd)
    have hdigit : c.toNat ≤ 57 := by
      have hc := h c (by simp)
      simp only [Char.isDigit, Bool.and_eq_true, decide_eq_true_eq] at hc
      exact hc.2
    rw [digitsValue_concat, List.length_append, List.length_singleton, pow_succ]
    omega

theorem exponentValue_cases (ds : List Char) :
    exponentValue ds = digitsValue ds ∨ (65536 ≤ exponentValue ds ∧ 65536 ≤ digitsValue ds) := by
  induction ds using List.reverseRecOn with
  | nil => exact .inl rfl
  | append_singleton ds c ih =>
    rw [digitsValue_concat, exponentValue_concat]
    split <;> omega

def signText : Option Bool → List Char
  | none => []
  | some false => ['+']
  | some true => ['-']

structure Power where
  mark : Char
  sign : Option Bool
  digits : List Char
  isMark : mark = 'e' ∨ mark = 'E'
  nonempty : digits ≠ []
  isDigit : ∀ c ∈ digits, c.isDigit = true

namespace Power

def text (p : Power) : List Char := p.mark :: (signText p.sign ++ p.digits)

def value (p : Power) : ℤ := Double.signed (p.sign.getD false) (digitsValue p.digits)

def reading (p : Power) : ℤ := Double.signed (p.sign.getD false) (exponentValue p.digits)

end Power

/-- Maybe a sign, digits, maybe a point and digits, at least one of all these digits, and maybe a power
of ten. -/
structure Parts where
  sign : Option Bool
  whole : List Char
  fraction : Option (List Char)
  power : Option Power
  nonempty : whole ++ fraction.getD [] ≠ []
  isDigit : ∀ c ∈ whole ++ fraction.getD [], c.isDigit = true

namespace Parts

def rest (p : Parts) : List Char := p.fraction.elim [] ('.' :: ·) ++ p.power.elim [] Power.text

def text (p : Parts) : List Char := signText p.sign ++ (p.whole ++ p.rest)

def negative (p : Parts) : Bool := p.sign.getD false

def magnitude (p : Parts) : ℚ :=
  (digitsValue p.whole + digitsValue (p.fraction.getD []) / 10 ^ (p.fraction.getD []).length) *
    10 ^ p.power.elim 0 Power.value

def decimal (p : Parts) : Decimal :=
  ⟨digitsValue (p.whole ++ p.fraction.getD []),
    p.power.elim 0 Power.reading - (p.fraction.getD []).length⟩

end Parts

theorem exists_sign (s : List Char) :
    ∃ sign? : Option Bool, s = signText sign? ++ (sign s).2 ∧ sign?.getD false = (sign s).1 := by
  unfold sign
  split
  · exact ⟨some false, rfl, rfl⟩
  · exact ⟨some true, rfl, rfl⟩
  · exact ⟨none, rfl, rfl⟩

theorem sign_signText (sign? : Option Bool) {s : List Char} (hplus : s.head? ≠ some '+')
    (hminus : s.head? ≠ some '-') : sign (signText sign? ++ s) = (sign?.getD false, s) := by
  match sign? with
  | some false => rfl
  | some true => rfl
  | none =>
    change sign s = (false, s)
    unfold sign
    split
    · exact absurd rfl hplus
    · exact absurd rfl hminus
    · rfl

theorem sign_of_isDigit (sign? : Option Bool) {s : List Char} (h : ∀ c ∈ s.head?, c.isDigit = true) :
    sign (signText sign? ++ s) = (sign?.getD false, s) :=
  sign_signText sign? (fun hs => absurd (h _ hs) (by decide)) fun hs => absurd (h _ hs) (by decide)

theorem span_digits {ds s : List Char} (hds : ∀ c ∈ ds, c.isDigit = true)
    (hs : ∀ c ∈ s.head?, c.isDigit = false) : (ds ++ s).span Char.isDigit = (ds, s) := by
  rw [List.span_eq_takeWhile_dropWhile, List.takeWhile_append_of_pos hds, List.dropWhile_append_of_pos hds]
  cases s with
  | nil => simp
  | cons c s => simp [hs c rfl]

theorem readPower_eq_some {s : List Char} {n : ℤ} :
    readPower s = some n ↔ ∃ (sign? : Option Bool) (ds : List Char), s = signText sign? ++ ds ∧ ds ≠ [] ∧
      (∀ c ∈ ds, c.isDigit = true) ∧ Double.signed (sign?.getD false) (exponentValue ds) = n := by
  have hread : readPower s = if (sign s).2.isEmpty || !(sign s).2.all Char.isDigit then none
      else some (Double.signed (sign s).1 (exponentValue (sign s).2)) := rfl
  constructor
  · intro h
    obtain ⟨sign?, hs, hsign⟩ := exists_sign s
    rw [hread, Option.ite_none_left_eq_some] at h
    simp only [Bool.or_eq_true, Bool.not_eq_true', not_or, Bool.not_eq_false, List.isEmpty_iff,
      List.all_eq_true] at h
    exact ⟨sign?, _, hs, h.1.1, h.1.2, by rw [hsign]; exact Option.some.inj h.2⟩
  · rintro ⟨sign?, ds, rfl, hnil, hds, rfl⟩
    rw [hread, sign_of_isDigit sign? fun c hc => hds c (List.mem_of_mem_head? hc)]
    simp [hnil, List.all_eq_true.2 hds]

theorem readExponent_eq_some {s : List Char} {n : ℤ} :
    readExponent s = some n ↔
      ∃ power? : Option Power, power?.elim [] Power.text = s ∧ power?.elim 0 Power.reading = n := by
  constructor
  · intro h
    cases s with
    | nil => exact ⟨none, rfl, Option.some.inj h⟩
    | cons c s =>
      rw [readExponent, Option.ite_none_right_eq_some, readPower_eq_some] at h
      obtain ⟨hmark, sign?, ds, rfl, hnil, hds, hn⟩ := h
      exact ⟨some ⟨c, sign?, ds, hmark, hnil, hds⟩, rfl, hn⟩
  · rintro ⟨_ | p, rfl, rfl⟩
    · rfl
    · change readExponent (p.mark :: _) = some p.reading
      rw [readExponent, if_pos p.isMark, readPower_eq_some]
      exact ⟨p.sign, p.digits, rfl, p.nonempty, p.isDigit, rfl⟩

theorem head_power {power? : Option Power} {c : Char} (h : c ∈ (power?.elim [] Power.text).head?) :
    c = 'e' ∨ c = 'E' := by
  cases power? with
  | none => cases h
  | some p =>
    cases h
    exact p.isMark

theorem fractionDigits_eq (s : List Char) :
    ∃ fraction? : Option (List Char), fraction?.getD [] = (fractionDigits s).1 ∧
      s = fraction?.elim [] ('.' :: ·) ++ (fractionDigits s).2 ∧
      ∀ c ∈ (fractionDigits s).1, c.isDigit = true := by
  unfold fractionDigits
  split
  next s =>
    rw [List.span_eq_takeWhile_dropWhile]
    refine ⟨some (s.takeWhile Char.isDigit), rfl, ?_, fun c hc => List.mem_takeWhile_imp hc⟩
    exact congrArg ('.' :: ·) List.takeWhile_append_dropWhile.symm
  · exact ⟨none, rfl, rfl, nofun⟩

theorem fractionDigits_text {fraction? : Option (List Char)} (h : ∀ c ∈ fraction?.getD [], c.isDigit = true)
    (power? : Option Power) :
    fractionDigits (fraction?.elim [] ('.' :: ·) ++ power?.elim [] Power.text) =
      (fraction?.getD [], power?.elim [] Power.text) := by
  cases fraction? with
  | none =>
    change fractionDigits (power?.elim [] Power.text) = ([], power?.elim [] Power.text)
    unfold fractionDigits
    split
    next hs =>
      have hpoint : '.' ∈ (power?.elim [] Power.text).head? := by
        rw [hs]
        rfl
      exact absurd (head_power hpoint) (by decide)
    · rfl
  | some ds =>
    refine span_digits h fun c hc => ?_
    rcases head_power hc with rfl | rfl <;> rfl

namespace Parts

theorem head_rest {p : Parts} {c : Char} (h : c ∈ p.rest.head?) : c = '.' ∨ c = 'e' ∨ c = 'E' := by
  rw [rest] at h
  cases hfraction : p.fraction with
  | none =>
    rw [hfraction] at h
    exact .inr (head_power h)
  | some ds =>
    rw [hfraction] at h
    cases h
    exact .inl rfl

theorem head_unsigned {p : Parts} {c : Char} (h : c ∈ (p.whole ++ p.rest).head?) :
    c.isDigit = true ∨ c = '.' := by
  cases hwhole : p.whole with
  | cons d ds =>
    rw [hwhole] at h
    cases h
    exact .inl (p.isDigit c (by simp [hwhole]))
  | nil =>
    have hnonempty := p.nonempty
    rw [hwhole, List.nil_append] at h hnonempty
    rw [rest] at h
    cases hfraction : p.fraction with
    | none => exact absurd (by rw [hfraction]; rfl) hnonempty
    | some ds =>
      rw [hfraction] at h
      cases h
      exact .inr rfl

end Parts

theorem read_eq (s : List Char) :
    read s = if ((sign s).2.span Char.isDigit).1.isEmpty &&
        (fractionDigits ((sign s).2.span Char.isDigit).2).1.isEmpty then none
      else
        match readExponent (fractionDigits ((sign s).2.span Char.isDigit).2).2 with
        | none => none
        | some e => some ((sign s).1, ⟨digitsValue (((sign s).2.span Char.isDigit).1 ++
            (fractionDigits ((sign s).2.span Char.isDigit).2).1),
            e - (fractionDigits ((sign s).2.span Char.isDigit).2).1.length⟩) := rfl

theorem read_text (p : Parts) : read p.text = some (p.negative, p.decimal) := by
  have hsign : sign p.text = (p.negative, p.whole ++ p.rest) := by
    refine sign_signText p.sign (fun h => ?_) fun h => ?_ <;>
      exact absurd (Parts.head_unsigned h) (by decide)
  have hspan : (p.whole ++ p.rest).span Char.isDigit = (p.whole, p.rest) := by
    refine span_digits (fun c hc => p.isDigit c (List.mem_append_left _ hc)) fun c hc => ?_
    rcases Parts.head_rest hc with rfl | rfl | rfl <;> rfl
  have hfraction : fractionDigits p.rest = (p.fraction.getD [], p.power.elim [] Power.text) :=
    fractionDigits_text (fun c hc => p.isDigit c (List.mem_append_right _ hc)) p.power
  have hexponent : readExponent (p.power.elim [] Power.text) = some (p.power.elim 0 Power.reading) :=
    readExponent_eq_some.2 ⟨p.power, rfl, rfl⟩
  have hnonempty : ¬(p.whole.isEmpty && (p.fraction.getD []).isEmpty) = true := by
    rw [Bool.and_eq_true, List.isEmpty_iff, List.isEmpty_iff, ← List.append_eq_nil_iff]
    exact p.nonempty
  rw [read_eq, hsign, hspan, hfraction, if_neg hnonempty, hexponent]
  rfl

theorem exists_of_read {s : List Char} {r : Bool × Decimal} (h : read s = some r) :
    ∃ p : Parts, p.text = s := by
  obtain ⟨sign?, hs, -⟩ := exists_sign s
  rw [read_eq, List.span_eq_takeWhile_dropWhile] at h
  generalize (sign s).2 = unsigned at h hs
  obtain ⟨fraction?, hfraction, hrest, hdigits⟩ := fractionDigits_eq (unsigned.dropWhile Char.isDigit)
  rw [Option.ite_none_left_eq_some, ← hfraction, Bool.and_eq_true, List.isEmpty_iff, List.isEmpty_iff,
    ← List.append_eq_nil_iff] at h
  obtain ⟨hnonempty, h⟩ := h
  cases hexponent : readExponent (fractionDigits (unsigned.dropWhile Char.isDigit)).2 with
  | none =>
    rw [hexponent] at h
    cases h
  | some e =>
    obtain ⟨power?, hpower, -⟩ := readExponent_eq_some.1 hexponent
    refine ⟨⟨sign?, unsigned.takeWhile Char.isDigit, fraction?, power?, hnonempty, fun c hc => ?_⟩, ?_⟩
    · rcases List.mem_append.1 hc with hc | hc
      · exact List.mem_takeWhile_imp hc
      · exact hdigits c (hfraction ▸ hc)
    · change signText sign? ++ (unsigned.takeWhile Char.isDigit ++
        (fraction?.elim [] ('.' :: ·) ++ power?.elim [] Power.text)) = s
      rw [hpower, ← hrest, List.takeWhile_append_dropWhile, ← hs]

/-- A text is read as a number exactly if it is a numeral. -/
theorem read_eq_some {s : List Char} {r : Bool × Decimal} :
    read s = some r ↔ ∃ p : Parts, p.text = s ∧ (p.negative, p.decimal) = r := by
  constructor
  · intro h
    obtain ⟨p, rfl⟩ := exists_of_read h
    exact ⟨p, rfl, Option.some.inj ((read_text p).symm.trans h)⟩
  · rintro ⟨p, rfl, rfl⟩
    exact read_text p

namespace Parts

theorem magnitude_nonneg (p : Parts) : 0 ≤ p.magnitude := by
  unfold magnitude
  positivity

theorem magnitude_eq (p : Parts) :
    p.magnitude = digitsValue (p.whole ++ p.fraction.getD []) *
      10 ^ (p.power.elim 0 Power.value - (p.fraction.getD []).length) := by
  rw [magnitude, digitsValue_append, zpow_sub₀ (by norm_num), zpow_natCast]
  push_cast
  field_simp

theorem length_digits_le (p : Parts) : (p.whole ++ p.fraction.getD []).length ≤ p.text.length := by
  rw [text, rest]
  cases p.fraction <;> simp only [Option.getD_none, Option.getD_some, Option.elim_none, Option.elim_some,
    List.length_append, List.length_cons, List.length_nil] <;> omega

theorem rounds_of_large {digits length n n' : ℕ} (negative : Bool) {x : Double} {k : ℤ}
    (hdigits : digits < 10 ^ length) (hlength : length ≤ 65000) (hk : 0 ≤ k) (hk' : k ≤ length)
    (hn : 65536 ≤ n) (hn' : 65536 ≤ n')
    (h : Rounds false (digits * 10 ^ (Double.signed negative n - k)) x) :
    Rounds false (digits * 10 ^ (Double.signed negative n' - k)) x := by
  rcases eq_or_ne digits 0 with rfl | hne
  · simpa using h
  · cases negative with
    | false =>
      have hover : ∀ m : ℕ, 65536 ≤ m → overflow ≤ digits * 10 ^ ((m : ℤ) - k) := fun m hm =>
        Decimal.overflow_le hne (by omega)
      exact h.of_overflow (hover n hn) (hover n' hn')
    | true =>
      have htiny : ∀ m : ℕ, 65536 ≤ m → Double.Scaled (digits * 10 ^ (-(m : ℤ) - k)) (-1074) 0 := fun m hm =>
        Decimal.scaled_of_digits hdigits (by omega)
      exact h.of_scaled (by positivity) (htiny n hn) (htiny n' hn')

/-- A numeral of ordinary length is rounded to the nearest double. -/
theorem rounds_decimal (p : Parts) (h : p.text.length ≤ 65000) :
    Rounds false p.magnitude p.decimal.toDouble := by
  have hread := Decimal.rounds_toDouble p.decimal
  have hlength := p.length_digits_le
  have hdigits := digitsValue_lt p.isDigit
  have hfraction : (p.fraction.getD []).length ≤ (p.whole ++ p.fraction.getD []).length := by simp
  rw [magnitude_eq]
  cases hpower : p.power with
  | none => simpa [decimal, hpower] using hread
  | some power =>
    have hdecimal : p.decimal =
      ⟨digitsValue (p.whole ++ p.fraction.getD []), power.reading - (p.fraction.getD []).length⟩ := by
      rw [decimal, hpower]
      rfl
    rw [hdecimal] at hread ⊢
    rcases exponentValue_cases power.digits with heq | ⟨hlarge, hlarge'⟩
    · have hreading : power.reading = power.value := by rw [Power.reading, heq, Power.value]
      rw [hreading] at hread ⊢
      exact hread
    · exact rounds_of_large _ hdigits (by omega) (by omega) (by omega) hlarge hlarge' hread

end Parts

end Loon.Numeral
