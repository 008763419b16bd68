import Loon.Data
import Loon.Proofs.Number.Whole
import Loon.Proofs.Resolution.Related

namespace Loon

namespace Data

variable {x y : Double} {n : ℤ}

def kind : Data → Kind
  | .string _ => .string
  | .integer _ => .number
  | .float _ => .number
  | .bool _ => .boolean
  | .null => .null
  | .array _ => .list
  | .object _ => .mapping

@[simp] theorem kind_ofDouble (x : Double) : (ofDouble x).kind = .number := by
  rw [ofDouble]
  cases x.toInteger? <;> rfl

theorem ofDouble_eq_integer :
    ofDouble x = .integer n ↔ x.isFinite = true ∧ x.value = n ∧ |x.value| ≤ 2 ^ 53 - 1 := by
  rw [← Double.toInteger?_eq_some, ofDouble]
  cases x.toInteger? <;> simp

theorem ofDouble_eq_float
    (h : ¬∃ n : ℤ, x.isFinite = true ∧ x.value = n ∧ |x.value| ≤ 2 ^ 53 - 1) :
    ofDouble x = .float x := by
  rw [ofDouble]
  cases hx : x.toInteger? with
  | none => rfl
  | some n => exact absurd ⟨n, Double.toInteger?_eq_some.1 hx⟩ h

theorem ofDouble_of_isZero (h : x.isZero = true) : ofDouble x = .integer 0 := by
  obtain ⟨hfinite, hvalue⟩ := Double.isZero_iff.1 h
  rw [ofDouble_eq_integer, hvalue]
  exact ⟨hfinite, Int.cast_zero.symm, by norm_num⟩

theorem ofDouble_eq_ofDouble_iff : ofDouble x = ofDouble y ↔ x.SameValue y := by
  constructor
  · intro h
    cases hy : ofDouble y with
    | integer n =>
      obtain ⟨hfinite, hvalue, -⟩ := ofDouble_eq_integer.1 (h.trans hy)
      obtain ⟨hfinite', hvalue', -⟩ := ofDouble_eq_integer.1 hy
      exact .inr ⟨hfinite, hfinite', hvalue.trans hvalue'.symm⟩
    | float z =>
      have hx := h.trans hy
      rw [ofDouble] at hx hy
      split at hx
      · cases hx
      · split at hy
        · cases hy
        · exact .inl (Data.float.inj (hx.trans hy.symm))
    | _ =>
      have hkind := kind_ofDouble y
      rw [hy] at hkind
      cases hkind
  · intro h
    rcases Double.sameValue_iff.1 h with rfl | ⟨hx, hy⟩
    · rfl
    · rw [ofDouble_of_isZero hx, ofDouble_of_isZero hy]

theorem ofDouble_eq (x : Double) :
    ofDouble x =
      if x.isFinite = true ∧ x.value = Double.towardZero x.value ∧ |x.value| ≤ 2 ^ 53 - 1 then
        .integer x.toInt64
      else .float x := by
  split
  next h =>
    have hinteger := Double.toInteger?_eq_some.2 h
    rw [Double.toInt64_of_toInteger? hinteger]
    exact ofDouble_eq_integer.2 h
  next h =>
    apply ofDouble_eq_float
    rintro ⟨n, hfinite, hvalue, hle⟩
    apply h
    refine ⟨hfinite, ?_, hle⟩
    rw [hvalue, Double.towardZero_intCast]

end Data

namespace Value

/-- The same keys in the same order at every mapping and the same items in order at every list, equal strings
and truth values, null for null, and numbers of the same value. -/
inductive SameShape : Value → Value → Prop
  | string (text) : SameShape (.string text) (.string text)
  | number {x y} : x.SameValue y → SameShape (.number x) (.number y)
  | bool (b) : SameShape (.bool b) (.bool b)
  | null : SameShape .null .null
  | mapping {as bs} : Mapping.Related SameShape as bs → SameShape (.mapping as) (.mapping bs)
  | list {as bs} : List.Forall₂ SameShape as bs → SameShape (.list as) (.list bs)

theorem kind_toData {v : Value} (h : v.placeholders = []) : v.toData.kind = v.kind := by
  cases v with
  | placeholder p => cases h
  | number x => exact Data.kind_ofDouble x
  | _ => rfl

theorem kind_eq_of_toData {a b : Value} (ha : a.placeholders = []) (hb : b.placeholders = [])
    (h : a.toData = b.toData) : a.kind = b.kind := by
  rw [← kind_toData ha, h, kind_toData hb]

mutual

-- The kinds are compared by the caller, so that only the cases of equal constructors are left here.
theorem sameShape_of_toData :
    ∀ {a b : Value}, a.placeholders = [] → b.placeholders = [] → a.kind = b.kind →
      a.toData = b.toData → SameShape a b
  | .string _, .string _, _, _, _, h => by
    cases h
    exact .string _
  | .number _, .number _, _, _, _, h => .number (Data.ofDouble_eq_ofDouble_iff.1 h)
  | .bool _, .bool _, _, _, _, h => by
    cases h
    exact .bool _
  | .null, .null, _, _, _, _ => .null
  | .mapping _, .mapping _, ha, hb, _, h => .mapping (related_of_toDataEntries ha hb (Data.object.inj h))
  | .list _, .list _, ha, hb, _, h => .list (forall₂_of_toDataItems ha hb (Data.array.inj h))

theorem related_of_toDataEntries :
    ∀ {as bs : List (String × Value)}, placeholdersOfEntries as = [] → placeholdersOfEntries bs = [] →
      toDataEntries as = toDataEntries bs → Mapping.Related SameShape as bs
  | [], [], _, _, _ => .nil
  | (key, _) :: _, (_, _) :: _, ha, hb, h => by
    obtain ⟨hentry, hrest⟩ := List.cons.inj h
    obtain ⟨rfl, hdata⟩ := Prod.mk.inj hentry
    obtain ⟨ha, has⟩ := List.append_eq_nil_iff.1 ha
    obtain ⟨hb, hbs⟩ := List.append_eq_nil_iff.1 hb
    exact .cons key (sameShape_of_toData ha hb (kind_eq_of_toData ha hb hdata) hdata)
      (related_of_toDataEntries has hbs hrest)

theorem forall₂_of_toDataItems :
    ∀ {as bs : List Value}, placeholdersOfItems as = [] → placeholdersOfItems bs = [] →
      toDataItems as = toDataItems bs → List.Forall₂ SameShape as bs
  | [], [], _, _, _ => .nil
  | _ :: _, _ :: _, ha, hb, h => by
    obtain ⟨hdata, hrest⟩ := List.cons.inj h
    obtain ⟨ha, has⟩ := List.append_eq_nil_iff.1 ha
    obtain ⟨hb, hbs⟩ := List.append_eq_nil_iff.1 hb
    exact .cons (sameShape_of_toData ha hb (kind_eq_of_toData ha hb hdata) hdata)
      (forall₂_of_toDataItems has hbs hrest)

end

mutual

theorem SameShape.toData : ∀ {a b : Value}, SameShape a b → a.toData = b.toData
  | _, _, .string _ => rfl
  | _, _, .number h => Data.ofDouble_eq_ofDouble_iff.2 h
  | _, _, .bool _ => rfl
  | _, _, .null => rfl
  | .mapping _, .mapping _, .mapping h => congrArg Data.object (toDataEntries_of_related h)
  | .list _, .list _, .list h => congrArg Data.array (toDataItems_of_forall₂ h)

theorem toDataEntries_of_related :
    ∀ {as bs : List (String × Value)}, Mapping.Related SameShape as bs →
      toDataEntries as = toDataEntries bs
  | [], [], .nil => rfl
  | _ :: _, _ :: _, .cons key h hrest => by
    rw [toDataEntries, toDataEntries, h.toData, toDataEntries_of_related hrest]

theorem toDataItems_of_forall₂ :
    ∀ {as bs : List Value}, List.Forall₂ SameShape as bs → toDataItems as = toDataItems bs
  | [], [], .nil => rfl
  | _ :: _, _ :: _, .cons h hrest => by
    rw [toDataItems, toDataItems, h.toData, toDataItems_of_forall₂ hrest]

end

/-- Values become the same data exactly if they are of the same shape, where numbers of the same value may
differ in the sign of zero only. A number becomes the integer of its exact value, if it has one within the
bounds; there the conversion to sixty-four bits is exact. Every other number keeps its bits. -/
theorem toData_exact {a b : Value} (ha : a.placeholders = []) (hb : b.placeholders = []) :
    (a.toData = b.toData ↔ SameShape a b) ∧
      (∀ x y : Double, x.SameValue y ↔ x = y ∨ x.isZero = true ∧ y.isZero = true) ∧
      (∀ (x : Double) (n : ℤ), (number x).toData = .integer n ↔
        x.isFinite = true ∧ x.value = n ∧ |x.value| ≤ 2 ^ 53 - 1) ∧
      (∀ x : Double, (¬∃ n : ℤ, x.isFinite = true ∧ x.value = n ∧ |x.value| ≤ 2 ^ 53 - 1) →
        (number x).toData = .float x) ∧
      ∀ x : Double, (number x).toData =
        if x.isFinite = true ∧ x.value = Double.towardZero x.value ∧ |x.value| ≤ 2 ^ 53 - 1 then
          .integer x.toInt64
        else .float x := by
  refine ⟨⟨fun h => ?_, SameShape.toData⟩, fun _ _ => Double.sameValue_iff,
    fun _ _ => Data.ofDouble_eq_integer, fun _ => Data.ofDouble_eq_float, Data.ofDouble_eq⟩
  exact sameShape_of_toData ha hb (kind_eq_of_toData ha hb h) h

theorem toData_exact_zeros :
    let a : Value := .mapping [("k", .list [.number ⟨0⟩, .null]), ("b", .bool true)]
    let b : Value := .mapping [("k", .list [.number ⟨0x8000000000000000⟩, .null]), ("b", .bool true)]
    let turned : Value := .mapping [("b", .bool true), ("k", .list [.number ⟨0⟩, .null])]
    let greatest : Double := ⟨0x433fffffffffffff⟩
    let nan : Double := ⟨0x7ff8000000000001⟩
    a.placeholders = [] ∧ b.placeholders = [] ∧ turned.placeholders = [] ∧ SameShape a b ∧
      ¬SameShape a turned ∧ greatest.value = 9007199254740991 ∧ (number nan).toData = .float nan := by
  intro a b turned greatest nan
  have ha : a.placeholders = [] := rfl
  have hb : b.placeholders = [] := rfl
  have hturned : turned.placeholders = [] := rfl
  have hdata : a.toData = b.toData := by
    simp only [a, b, toData, toDataEntries, toDataItems,
      Data.ofDouble_of_isZero (x := ⟨0⟩) rfl, Data.ofDouble_of_isZero (x := ⟨0x8000000000000000⟩) rfl]
  obtain ⟨hshape, -, hinteger, hfloat, -⟩ := toData_exact ha hb
  have hgreatest : (number greatest).toData = .integer 9007199254740991 := by
    have hinteger : greatest.toInteger? = some 9007199254740991 := by decide +kernel
    rw [toData, Data.ofDouble, hinteger]
  refine ⟨ha, hb, hturned, hshape.1 hdata, fun h => ?_, ((hinteger _ _).1 hgreatest).2.1, hfloat nan ?_⟩
  · have hdata := (toData_exact ha hturned).1.2 h
    simp [a, turned, toData, toDataEntries] at hdata
  · rintro ⟨n, hfinite, -⟩
    exact absurd hfinite (by decide)

end Value

end Loon
