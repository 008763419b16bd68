import Loon.Proofs.Number.Numeral
import Loon.Proofs.Tokens

namespace Loon.Numeral

open Double (Rounds)

/-- The reader of doubles on its own: numerals of any size, and three words in any case. -/
def float? (s : List Char) : Option Double :=
  let word := Token.lower (sign s).2
  if word = ['i', 'n', 'f'] ∨ word = ['i', 'n', 'f', 'i', 'n', 'i', 't', 'y'] then
    some (Double.infinity.withSign (sign s).1)
  else if word = ['n', 'a', 'n'] then some (Double.withSign (sign s).1 ⟨0x7ff8000000000000⟩)
  else (read s).map fun (negative, d) => d.toDouble.withSign negative

def isCommon (c : Char) : Bool := c.isDigit || ['+', '-', '.', 'e', 'E'].contains c

def looksNumeric (s : List Char) : Bool := s.any Char.isDigit && s.all isCommon

theorem toLower_of_isDigit {c : Char} (h : c.isDigit = true) : c.toLower = c := by
  simp only [Char.isDigit, Bool.and_eq_true, decide_eq_true_eq, ge_iff_le, UInt32.le_iff_toNat_le] at h
  have hdigit : c.val.toNat ≤ 57 := h.2
  refine dif_neg fun hupper => ?_
  have hletter : 65 ≤ c.val.toNat := UInt32.le_iff_toNat_le.1 hupper.1
  omega

theorem lower_ne_of_all {s : List Char} (h : ∀ c ∈ s, isCommon c = true) {letter : Char} {word : List Char}
    (hletter : letter ∈ ['i', 'n', 't', 'f']) : Token.lower s ≠ letter :: word := by
  rintro hword
  cases s with
  | nil => cases hword
  | cons c s =>
    have hlower : c.toLower = letter := (List.cons.inj hword).1
    have hc := h c List.mem_cons_self
    rw [isCommon, Bool.or_eq_true, List.contains_iff_mem] at hc
    rcases hc with hc | hc
    · rw [toLower_of_isDigit hc] at hlower
      subst hlower
      simp only [List.mem_cons, List.not_mem_nil, or_false] at hletter
      rcases hletter with rfl | rfl | rfl | rfl <;> exact absurd hc (by decide)
    · subst hlower
      simp only [List.mem_cons, List.not_mem_nil, or_false] at hc
      rcases hc with rfl | rfl | rfl | rfl | rfl <;> exact absurd hletter (by decide)

theorem lt_of_isCommon {c : Char} (h : isCommon c = true) : c.toNat < 128 := by
  rw [isCommon, Bool.or_eq_true, List.contains_iff_mem] at h
  rcases h with h | h
  · simp only [Char.isDigit, Bool.and_eq_true, decide_eq_true_eq, UInt32.le_iff_toNat_le] at h
    have hdigit : c.toNat ≤ 57 := h.2
    omega
  · simp only [List.mem_cons, List.not_mem_nil, or_false] at h
    rcases h with rfl | rfl | rfl | rfl | rfl <;> decide

theorem isCommon_of_isDigit {c : Char} (h : c.isDigit = true) : isCommon c = true := by
  rw [isCommon, h, Bool.true_or]

theorem isCommon_of_mem_sign {sign? : Option Bool} {c : Char} (h : c ∈ signText sign?) :
    isCommon c = true := by
  match sign? with
  | none => cases h
  | some false => rw [List.mem_singleton.1 h]; rfl
  | some true => rw [List.mem_singleton.1 h]; rfl

theorem Power.isCommon_of_mem {p : Power} {c : Char} (h : c ∈ p.text) : isCommon c = true := by
  rw [text, List.mem_cons, List.mem_append] at h
  rcases h with rfl | h | h
  · rcases p.isMark with hmark | hmark <;> rw [hmark] <;> rfl
  · exact isCommon_of_mem_sign h
  · exact isCommon_of_isDigit (p.isDigit c h)

namespace Parts

theorem isCommon_of_mem {p : Parts} {c : Char} (h : c ∈ p.text) : isCommon c = true := by
  simp only [text, rest, List.mem_append] at h
  rcases h with hsign | hwhole | hfraction | hpower
  · exact isCommon_of_mem_sign hsign
  · exact isCommon_of_isDigit (p.isDigit c (List.mem_append_left _ hwhole))
  · have hdigit := p.isDigit
    cases hsome : p.fraction with
    | none =>
      rw [hsome] at hfraction
      cases hfraction
    | some ds =>
      rw [hsome] at hfraction hdigit
      rcases List.mem_cons.1 hfraction with rfl | hds
      · rfl
      · exact isCommon_of_isDigit (hdigit c (List.mem_append_right _ hds))
  · cases hsome : p.power with
    | none =>
      rw [hsome] at hpower
      cases hpower
    | some power =>
      rw [hsome] at hpower
      exact power.isCommon_of_mem hpower

theorem mem_text_of_digit {p : Parts} {c : Char} (h : c ∈ p.whole ++ p.fraction.getD []) :
    c ∈ p.text := by
  simp only [text, rest, List.mem_append]
  rcases List.mem_append.1 h with hwhole | hfraction
  · exact .inr (.inl hwhole)
  · refine .inr (.inr (.inl ?_))
    cases hsome : p.fraction with
    | none =>
      rw [hsome] at hfraction
      cases hfraction
    | some ds =>
      rw [hsome] at hfraction
      exact List.mem_cons_of_mem _ hfraction

theorem looksNumeric_text (p : Parts) : looksNumeric p.text = true := by
  obtain ⟨c, hc⟩ := List.exists_mem_of_ne_nil _ p.nonempty
  rw [looksNumeric, Bool.and_eq_true, List.any_eq_true, List.all_eq_true]
  exact ⟨⟨c, mem_text_of_digit hc, p.isDigit c hc⟩, fun _ => isCommon_of_mem⟩

end Parts

theorem looksNumeric_of_read {s : List Char} {r : Bool × Decimal} (h : read s = some r) :
    looksNumeric s = true := by
  obtain ⟨p, rfl, -⟩ := read_eq_some.1 h
  exact p.looksNumeric_text

theorem float?_of_looksNumeric {s : List Char} (h : looksNumeric s = true) :
    float? s = (read s).map fun (negative, d) => d.toDouble.withSign negative := by
  rw [looksNumeric, Bool.and_eq_true, List.all_eq_true] at h
  have hcommon : ∀ c ∈ (sign s).2, isCommon c = true := by
    obtain ⟨sign?, hs, -⟩ := exists_sign s
    exact fun c hc => h.2 c (by rw [hs]; exact List.mem_append_right _ hc)
  have hword : ∀ {letter word}, letter ∈ ['i', 'n', 't', 'f'] → Token.lower (sign s).2 ≠ letter :: word :=
    fun hletter => lower_ne_of_all hcommon hletter
  rw [float?, if_neg (not_or.2 ⟨hword (by simp), hword (by simp)⟩), if_neg (hword (by simp))]

/-- Numerals are read in three steps: the characters are sifted, the reader of doubles reads, and what is not
finite is left out. -/
theorem toDouble?_eq (s : List Char) :
    toDouble? s = if looksNumeric s then (float? s).filter Double.isFinite else none := by
  rw [toDouble?]
  cases hread : read s with
  | none =>
    by_cases h : looksNumeric s = true
    · rw [if_pos h, float?_of_looksNumeric h, hread]
      rfl
    · rw [if_neg h]
  | some r =>
    obtain ⟨negative, d⟩ := r
    have h := looksNumeric_of_read hread
    rw [if_pos h, float?_of_looksNumeric h, hread]
    simp [Option.filter_some]

/-- The promise of the reader of doubles at a text: a numeral is accepted, and rounded to the nearest
double. -/
def ReadsNearest (s : List Char) : Prop :=
  ∀ p : Parts, p.text = s → ∃ x, float? s = some x ∧ Rounds p.negative p.magnitude x

/-- It is kept at all texts of ordinary length. In longer ones not all digits of an exponent need count. -/
theorem readsNearest_of_length_le {s : List Char} (h : s.length ≤ 65000) : ReadsNearest s := by
  rintro p rfl
  refine ⟨p.decimal.toDouble.withSign p.negative, ?_, (p.rounds_decimal h).withSign p.negative⟩
  rw [float?_of_looksNumeric p.looksNumeric_text, read_eq_some.2 ⟨p, rfl, rfl⟩]
  rfl

/-- That `s` is a numeral and `x` the double nearest to what it writes. -/
def Writes (s : List Char) (x : Double) : Prop :=
  ∃ p : Parts, p.text = s ∧ Rounds p.negative p.magnitude x

theorem toDouble?_eq_some {s : List Char} (h : ReadsNearest s) {x : Double} :
    toDouble? s = some x ↔ x.isFinite = true ∧ Writes s x := by
  rw [toDouble?_eq, Option.ite_none_right_eq_some, Option.filter_eq_some_iff]
  constructor
  · rintro ⟨hlooks, hfloat, hfinite⟩
    have hread := hfloat
    rw [float?_of_looksNumeric hlooks, Option.map_eq_some_iff] at hread
    obtain ⟨r, hread, -⟩ := hread
    obtain ⟨p, rfl, -⟩ := read_eq_some.1 hread
    obtain ⟨y, hy, hrounds⟩ := h p rfl
    rw [hfloat] at hy
    cases hy
    exact ⟨hfinite, p, rfl, hrounds⟩
  · rintro ⟨hfinite, p, rfl, hrounds⟩
    obtain ⟨y, hy, hrounds'⟩ := h p rfl
    obtain rfl := hrounds.unique p.magnitude_nonneg hrounds'
    exact ⟨p.looksNumeric_text, hy, hfinite⟩

end Loon.Numeral

namespace Loon.Token

variable {s : List Char}

theorem not_marked_of_all (h : ∀ c ∈ s, Numeral.isCommon c = true) : ¬Marked s := by
  rintro (⟨inner, rfl⟩ | ⟨mark, inner, hmark, rfl⟩ | ⟨b, hb⟩)
  · exact absurd (h '[' List.mem_cons_self) (by decide)
  · have hcommon := h mark List.mem_cons_self
    rcases hmark with rfl | rfl <;> exact absurd hcommon (by decide)
  · cases b
    · exact Numeral.lower_ne_of_all h (by simp) hb
    · exact Numeral.lower_ne_of_all h (by simp) hb

theorem isCommon_of_writes {x : Double} (h : Numeral.Writes s x) : ∀ c ∈ s, Numeral.isCommon c = true := by
  obtain ⟨p, rfl, -⟩ := h
  exact fun _ => Numeral.Parts.isCommon_of_mem

theorem toDouble?_of_value {x : Double} (h : value s = .number x) :
    Numeral.toDouble? (Text.trim s) = some x := by
  have hreads := reads_value s
  rw [h] at hreads
  cases hreads with
  | number hx => exact hx

theorem value_eq_number (h : Numeral.ReadsNearest (Text.trim s)) {x : Double} :
    value s = .number x ↔ x.isFinite = true ∧ Numeral.Writes (Text.trim s) x := by
  rw [← Numeral.toDouble?_eq_some h]
  constructor
  · exact toDouble?_of_value
  · intro hx
    have hmarked := not_marked_of_all (isCommon_of_writes ((Numeral.toDouble?_eq_some h).1 hx).2)
    rcases (reads_value s).of_not_marked hmarked with ⟨y, hy, hvalue⟩ | ⟨hnone, -⟩
    · rw [hvalue, Option.some.inj (hy.symm.trans hx)]
    · cases hnone.symm.trans hx

theorem value_eq_string (hmarked : ¬Marked (Text.trim s)) (hnumber : ∀ x, value s ≠ .number x) :
    value s = .string (String.ofList (Text.trim s)) := by
  rcases (reads_value s).of_not_marked hmarked with ⟨x, -, hvalue⟩ | ⟨-, hvalue⟩
  · exact absurd hvalue (hnumber x)
  · exact hvalue

end Loon.Token

namespace Loon.Value

def otherTokens : List String :=
  ["inf", "NaN", "infinity", "1e999", "1.2.3", "1e", ".", "+", "1_000", "\u0661\u0662", "\uff11\uff12"]

/-- Which tokens are numbers, and which are then strings. The promise of the reader is needed beyond 65,000
characters only. -/
theorem ofToken_exact (token : String)
    (h : 65000 < (Text.trim token.toList).length → Numeral.ReadsNearest (Text.trim token.toList)) :
    (∀ x, ofToken token = .number x ↔ x.isFinite = true ∧ Numeral.Writes (Text.trim token.toList) x) ∧
      (¬Token.Marked (Text.trim token.toList) →
        (∀ x, x.isFinite = true → ¬Numeral.Writes (Text.trim token.toList) x) →
        ofToken token = .string (String.ofList (Text.trim token.toList))) ∧
      (¬Token.Marked (Text.trim token.toList) → (∃ c ∈ Text.trim token.toList, 128 ≤ c.toNat) →
        ofToken token = .string (String.ofList (Text.trim token.toList))) ∧
      ∀ word ∈ otherTokens, ofToken word = .string word := by
  have hreads : Numeral.ReadsNearest (Text.trim token.toList) := by
    rcases Nat.lt_or_ge 65000 (Text.trim token.toList).length with hlong | hshort
    · exact h hlong
    · exact Numeral.readsNearest_of_length_le hshort
  have hnumber : ∀ x, ofToken token = .number x ↔
      x.isFinite = true ∧ Numeral.Writes (Text.trim token.toList) x := fun x => Token.value_eq_number hreads
  refine ⟨hnumber, fun hmarked hnone => ?_, fun hmarked hforeign => ?_, ?_⟩
  · exact Token.value_eq_string hmarked fun x hx => hnone x ((hnumber x).1 hx).1 ((hnumber x).1 hx).2
  · obtain ⟨c, hc, hlarge⟩ := hforeign
    refine Token.value_eq_string hmarked fun x hx => ?_
    have hsmall := Numeral.lt_of_isCommon (Token.isCommon_of_writes ((hnumber x).1 hx).2 c hc)
    omega
  · simp only [otherTokens, List.forall_mem_cons, List.not_mem_nil, false_imp_iff, implies_true, and_true]
    exact ⟨rfl, rfl, rfl, rfl, rfl, rfl, rfl, rfl, rfl, rfl, rfl⟩

theorem ofToken_exact_blanks :
    Numeral.Writes ['-', '1', '2', '.', '5', 'e', '-', '3'] ⟨0xbf8999999999999a⟩ ∧
      ∀ x : Double, x.isFinite = true → ¬Numeral.Writes ['1', 'e', '9', '9', '9'] x := by
  constructor
  · have hnumber : ofToken "  -12.5e-3\t" = .number ⟨0xbf8999999999999a⟩ := rfl
    exact (((ofToken_exact "  -12.5e-3\t" fun h => absurd h (by decide)).1 _).1 hnumber).2
  · intro x hfinite hwrites
    have hstring : ofToken "1e999" = .string "1e999" := rfl
    have hnumber := ((ofToken_exact "1e999" fun h => absurd h (by decide)).1 x).2 ⟨hfinite, hwrites⟩
    rw [hstring] at hnumber
    cases hnumber

end Loon.Value
