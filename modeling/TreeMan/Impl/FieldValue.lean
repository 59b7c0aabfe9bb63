import Mathlib

/-!
# Field values and field operations (`index/field.rs`)

`FieldValue` is the dynamically typed value that queries carry: twelve
integer variants, two float variants (`OrderedFloat<f64>`,
`OrderedFloat<f32>`), `Decimal`, `String` and `bool`. Each Rust integer type
is the interval of `Int` it ranges over (`IntRange`; `usize` and `isize` are
64 bits wide).

Floats and `rust_decimal::Decimal` are taken as they are given by `Numerics`:
three linearly ordered types and the conversions `TypeConvert` calls
(`v as f64`, `Decimal::from`, `from_f64_retain`, `to_f64`, ...). Nothing below
depends on what these are, so every result holds for IEEE floats and for
`rust_decimal` alike.

The comparisons `eq`, `gt` and `gte` are the hand-written ones of
`FieldValue`: a derived-equality shortcut, a table of fast paths
(`eqFast`, `gtFast`, `gteFast`), the string and bool rules, then the
integer, decimal and float paths in that order. `FieldOperation.evaluate` is
built on them. On two integers that lie in a common integer type they are
the integer comparisons (`eq_of_intValue`, `gt_of_intValue`,
`gte_of_intValue`), on strings the lexicographic order, and on bools
`gt` is always false (`gt_bool`).
-/

namespace TreeMan

/-- What the model needs of `OrderedFloat<f64>`, `OrderedFloat<f32>` and
`rust_decimal::Decimal`: their orders and the conversions of `TypeConvert`. -/
structure Numerics where
  F64 : Type
  F32 : Type
  Decimal : Type
  ordF64 : LinearOrder F64
  ordF32 : LinearOrder F32
  ordDecimal : LinearOrder Decimal
  /-- `v as f64` for an integer `v`. -/
  f64OfInt : Int → F64
  /-- `v as f32` for an integer `v`. -/
  f32OfInt : Int → F32
  /-- `v.0 as f64` for an `f32`. -/
  f64OfF32 : F32 → F64
  /-- `v.0 as f32` for an `f64`. -/
  f32OfF64 : F64 → F32
  /-- `Decimal::from` for the integers of at most 64 bits. -/
  decimalOfInt : Int → Decimal
  /-- `Decimal::from_u128`, `from_i128`, `from_usize`, `from_isize`. -/
  decimalOfWide : Int → Option Decimal
  /-- `Decimal::from_f64_retain`. -/
  decimalOfF64 : F64 → Option Decimal
  /-- `Decimal::from_f32_retain`. -/
  decimalOfF32 : F32 → Option Decimal
  /-- `Decimal::to_f64`. -/
  decimalToF64 : Decimal → Option F64
  /-- `Decimal::to_f32`. -/
  decimalToF32 : Decimal → Option F32

attribute [instance] Numerics.ordF64 Numerics.ordF32 Numerics.ordDecimal

/-- A platform whose floats and decimals are exact rationals and whose
conversions are all exact. It is not IEEE or `rust_decimal` arithmetic:
statements about fixed inputs in which no float or decimal occurs use it to
fix the platform. -/
def Numerics.exactRat : Numerics where
  F64 := ℚ
  F32 := ℚ
  Decimal := ℚ
  ordF64 := inferInstance
  ordF32 := inferInstance
  ordDecimal := inferInstance
  f64OfInt := Int.cast
  f32OfInt := Int.cast
  f64OfF32 := id
  f32OfF64 := id
  decimalOfInt := Int.cast
  decimalOfWide := fun x => some x
  decimalOfF64 := some
  decimalOfF32 := some
  decimalToF64 := some
  decimalToF32 := some

/-- The integers `lo..=hi`. -/
abbrev IntRange (lo hi : Int) := {x : Int // lo ≤ x ∧ x ≤ hi}

/-- `u128`. -/
abbrev U128 := IntRange 0 (2 ^ 128 - 1)
/-- `i128`. -/
abbrev I128 := IntRange (-2 ^ 127) (2 ^ 127 - 1)
/-- `u64`. -/
abbrev U64 := IntRange 0 (2 ^ 64 - 1)
/-- `i64`. -/
abbrev I64 := IntRange (-2 ^ 63) (2 ^ 63 - 1)
/-- `u32`. -/
abbrev U32 := IntRange 0 (2 ^ 32 - 1)
/-- `i32`. -/
abbrev I32 := IntRange (-2 ^ 31) (2 ^ 31 - 1)
/-- `u16`. -/
abbrev U16 := IntRange 0 (2 ^ 16 - 1)
/-- `i16`. -/
abbrev I16 := IntRange (-2 ^ 15) (2 ^ 15 - 1)
/-- `u8`. -/
abbrev U8 := IntRange 0 (2 ^ 8 - 1)
/-- `i8`. -/
abbrev I8 := IntRange (-2 ^ 7) (2 ^ 7 - 1)
/-- `usize` on a 64-bit target. -/
abbrev Usize := IntRange 0 (2 ^ 64 - 1)
/-- `isize` on a 64-bit target. -/
abbrev Isize := IntRange (-2 ^ 63) (2 ^ 63 - 1)

variable {N : Numerics}

/-- `TypeFamily`. -/
inductive TypeFamily
  | integer
  | float
  | decimal
  | string
  | bool
  deriving DecidableEq, Repr

/-- `FieldValue`. A Rust `String` is its list of characters, whose
lexicographic order is the byte order of UTF-8. -/
inductive FieldValue (N : Numerics)
  | u128 (v : U128)
  | i128 (v : I128)
  | u64 (v : U64)
  | i64 (v : I64)
  | u32 (v : U32)
  | i32 (v : I32)
  | u16 (v : U16)
  | i16 (v : I16)
  | u8 (v : U8)
  | i8 (v : I8)
  | usize (v : Usize)
  | isize (v : Isize)
  | f64 (v : N.F64)
  | f32 (v : N.F32)
  | decimal (v : N.Decimal)
  | string (v : List Char)
  | bool (v : Bool)
  deriving DecidableEq

namespace FieldValue

/-- `type_family`. -/
def typeFamily : FieldValue N → TypeFamily
  | u128 _ | i128 _ | u64 _ | i64 _ | u32 _ | i32 _ | u16 _ | i16 _ | u8 _ | i8 _
  | usize _ | isize _ => .integer
  | f64 _ | f32 _ => .float
  | decimal _ => .decimal
  | string _ => .string
  | bool _ => .bool

/-- The integer an integer variant holds. -/
def intValue? : FieldValue N → Option Int
  | u128 v => some v.1
  | i128 v => some v.1
  | u64 v => some v.1
  | i64 v => some v.1
  | u32 v => some v.1
  | i32 v => some v.1
  | u16 v => some v.1
  | i16 v => some v.1
  | u8 v => some v.1
  | i8 v => some v.1
  | usize v => some v.1
  | isize v => some v.1
  | _ => none

/-- The position of the variant in the declaration, which the derived `Ord`
compares first. -/
def variantIndex : FieldValue N → Nat
  | u128 _ => 0 | i128 _ => 1 | u64 _ => 2 | i64 _ => 3 | u32 _ => 4 | i32 _ => 5
  | u16 _ => 6 | i16 _ => 7 | u8 _ => 8 | i8 _ => 9 | usize _ => 10 | isize _ => 11
  | f64 _ => 12 | f32 _ => 13 | decimal _ => 14 | string _ => 15 | bool _ => 16

/-- The derived `Ord` (and `PartialOrd`, which agrees with it): the variant
first, then the payload by its own order. -/
def cmp : FieldValue N → FieldValue N → Ordering
  | u128 a, u128 b => compare a.1 b.1
  | i128 a, i128 b => compare a.1 b.1
  | u64 a, u64 b => compare a.1 b.1
  | i64 a, i64 b => compare a.1 b.1
  | u32 a, u32 b => compare a.1 b.1
  | i32 a, i32 b => compare a.1 b.1
  | u16 a, u16 b => compare a.1 b.1
  | i16 a, i16 b => compare a.1 b.1
  | u8 a, u8 b => compare a.1 b.1
  | i8 a, i8 b => compare a.1 b.1
  | usize a, usize b => compare a.1 b.1
  | isize a, isize b => compare a.1 b.1
  | f64 a, f64 b => compare a b
  | f32 a, f32 b => compare a b
  | decimal a, decimal b => compare a b
  | string a, string b => compareOfLessAndEq a b
  | bool a, bool b => compare a b
  | a, b => compare a.variantIndex b.variantIndex

/-! ### `TypeConvert` -/

/-- The twelve integer conversions `try_to_u128` ... `try_to_isize` all have
one shape: an integer variant whose value lies in the target's range
converts (by a widening cast, a guarded `as` or `try_into`), and nothing
else does. -/
def tryToInt (lo hi : Int) (v : FieldValue N) : Option (IntRange lo hi) :=
  match v.intValue? with
  | some x => if h : lo ≤ x ∧ x ≤ hi then some ⟨x, h⟩ else none
  | none => none

/-- `try_to_u128`. -/
def tryToU128 : FieldValue N → Option U128 := tryToInt 0 (2 ^ 128 - 1)
/-- `try_to_i128`. -/
def tryToI128 : FieldValue N → Option I128 := tryToInt (-2 ^ 127) (2 ^ 127 - 1)
/-- `try_to_u64`. -/
def tryToU64 : FieldValue N → Option U64 := tryToInt 0 (2 ^ 64 - 1)
/-- `try_to_i64`. -/
def tryToI64 : FieldValue N → Option I64 := tryToInt (-2 ^ 63) (2 ^ 63 - 1)
/-- `try_to_u32`. -/
def tryToU32 : FieldValue N → Option U32 := tryToInt 0 (2 ^ 32 - 1)
/-- `try_to_i32`. -/
def tryToI32 : FieldValue N → Option I32 := tryToInt (-2 ^ 31) (2 ^ 31 - 1)
/-- `try_to_u16`. -/
def tryToU16 : FieldValue N → Option U16 := tryToInt 0 (2 ^ 16 - 1)
/-- `try_to_i16`. -/
def tryToI16 : FieldValue N → Option I16 := tryToInt (-2 ^ 15) (2 ^ 15 - 1)
/-- `try_to_u8`. -/
def tryToU8 : FieldValue N → Option U8 := tryToInt 0 (2 ^ 8 - 1)
/-- `try_to_i8`. -/
def tryToI8 : FieldValue N → Option I8 := tryToInt (-2 ^ 7) (2 ^ 7 - 1)
/-- `try_to_usize`. -/
def tryToUsize : FieldValue N → Option Usize := tryToInt 0 (2 ^ 64 - 1)
/-- `try_to_isize`. -/
def tryToIsize : FieldValue N → Option Isize := tryToInt (-2 ^ 63) (2 ^ 63 - 1)

/-- `try_to_f64`. -/
def tryToF64 : FieldValue N → Option N.F64
  | f64 v => some v
  | f32 v => some (N.f64OfF32 v)
  | decimal v => N.decimalToF64 v
  | v => v.intValue?.map N.f64OfInt

/-- `try_to_f32`. -/
def tryToF32 : FieldValue N → Option N.F32
  | f32 v => some v
  | f64 v => some (N.f32OfF64 v)
  | decimal v => N.decimalToF32 v
  | v => v.intValue?.map N.f32OfInt

/-- `try_to_decimal`: `Decimal::from` for the integers of at most 64 bits,
the fallible `from_u128` ... `from_isize` for the others. -/
def tryToDecimal : FieldValue N → Option N.Decimal
  | decimal v => some v
  | u128 v => N.decimalOfWide v.1
  | i128 v => N.decimalOfWide v.1
  | usize v => N.decimalOfWide v.1
  | isize v => N.decimalOfWide v.1
  | f64 v => N.decimalOfF64 v
  | f32 v => N.decimalOfF32 v
  | v => v.intValue?.map N.decimalOfInt

/-- `try_to_string`. -/
def tryToString : FieldValue N → Option (List Char)
  | string v => some v
  | _ => none

/-- `try_to_bool`. -/
def tryToBool : FieldValue N → Option Bool
  | bool v => some v
  | _ => none

/-! ### Comparisons -/

/-- `if let (Some(a), Some(b)) = (x, y) { return f(a, b) }`, going on with
`k` otherwise. -/
def bothThen {α β : Type} (x y : Option α) (f : α → α → β) (k : β) : β :=
  match x, y with
  | some a, some b => f a b
  | _, _ => k

/-- The fast paths of `eq`; `some r` returns `r`. -/
def eqFast : FieldValue N → FieldValue N → Option Bool
  | u64 a, i32 b => some (0 ≤ b.1 && a.1 == b.1)
  | i32 a, u64 b => some (0 ≤ a.1 && a.1 == b.1)
  | u64 a, i64 b => some (0 ≤ b.1 && a.1 == b.1)
  | i64 a, u64 b => some (0 ≤ a.1 && a.1 == b.1)
  | u64 a, u64 b => some (a.1 == b.1)
  | i32 a, i32 b => some (a.1 == b.1)
  | i64 a, i64 b => some (a.1 == b.1)
  | u32 a, u32 b => some (a.1 == b.1)
  | _, _ => none

/-- Whether a value is of the string or the bool family, which `eq` never
matches across values. -/
def isStringOrBool (v : FieldValue N) : Bool :=
  v.typeFamily == .string || v.typeFamily == .bool

/-- `FieldValue::eq`. After the fast paths and the string and bool
families, two integers go through `u128` and `i128`, and then every pair
through the decimal path and the float path (`tail`). -/
def eq (a b : FieldValue N) : Bool :=
  if a = b then true
  else match eqFast a b with
  | some r => r
  | none =>
    if a.isStringOrBool || b.isStringOrBool then false
    else
      let tail := bothThen a.tryToDecimal b.tryToDecimal (· == ·) <|
        bothThen a.tryToF64 b.tryToF64 (· == ·) false
      if a.typeFamily = .integer ∧ b.typeFamily = .integer then
        bothThen a.tryToU128 b.tryToU128 (fun x y => x.1 == y.1) <|
          bothThen a.tryToI128 b.tryToI128 (fun x y => x.1 == y.1) tail
      else tail

/-- The fast paths of `gt`; `some r` returns `r`. -/
def gtFast : FieldValue N → FieldValue N → Option Bool
  | u64 a, i32 b => some (b.1 < 0 || a.1 > b.1)
  | i32 a, u64 b => some (0 ≤ a.1 && a.1 > b.1)
  | u64 a, i64 b => some (b.1 < 0 || a.1 > b.1)
  | i64 a, u64 b => some (0 ≤ a.1 && a.1 > b.1)
  | u64 a, u64 b => some (a.1 > b.1)
  | i32 a, i32 b => some (a.1 > b.1)
  | i64 a, i64 b => some (a.1 > b.1)
  | u32 a, u32 b => some (a.1 > b.1)
  | u16 a, u16 b => some (a.1 > b.1)
  | i16 a, i16 b => some (a.1 > b.1)
  | u8 a, u8 b => some (a.1 > b.1)
  | i8 a, i8 b => some (a.1 > b.1)
  | _, _ => none

/-- `FieldValue::gt`. Strings compare by the derived order, which puts every
string above the numeric variants and below `bool`; a bool is never greater
than anything that is not a string. -/
def gt (a b : FieldValue N) : Bool :=
  if a = b then false
  else match gtFast a b with
  | some r => r
  | none =>
    if a.typeFamily = .string ∨ b.typeFamily = .string then a.cmp b == .gt
    else if a.typeFamily = .bool ∨ b.typeFamily = .bool then false
    else if a.eq b then false
    else
      let tail := bothThen a.tryToDecimal b.tryToDecimal (fun x y => decide (x > y)) <|
        bothThen a.tryToF64 b.tryToF64 (fun x y => decide (x > y)) (a.cmp b == .gt)
      if a.typeFamily = .integer ∧ b.typeFamily = .integer then
        bothThen a.tryToU128 b.tryToU128 (fun x y => x.1 > y.1) <|
          bothThen a.tryToI128 b.tryToI128 (fun x y => x.1 > y.1) tail
      else tail

/-- The fast paths of `gte`; `some r` returns `r`. -/
def gteFast : FieldValue N → FieldValue N → Option Bool
  | u64 a, i32 b => some (b.1 < 0 || a.1 ≥ b.1)
  | i32 a, u64 b => some (0 ≤ a.1 && a.1 ≥ b.1)
  | u64 a, i64 b => some (b.1 < 0 || a.1 ≥ b.1)
  | i64 a, u64 b => some (0 ≤ a.1 && a.1 ≥ b.1)
  | u64 a, u64 b => some (a.1 ≥ b.1)
  | i32 a, i32 b => some (a.1 ≥ b.1)
  | i64 a, i64 b => some (a.1 ≥ b.1)
  | u32 a, u32 b => some (a.1 ≥ b.1)
  | _, _ => none

/-- `FieldValue::gte`. -/
def gte (a b : FieldValue N) : Bool :=
  if a = b then true
  else match gteFast a b with
  | some r => r
  | none => a.eq b || a.gt b

/-- `FieldValue::lt`. -/
def lt (a b : FieldValue N) : Bool := !a.gte b

/-- `FieldValue::lte`. -/
def lte (a b : FieldValue N) : Bool := !a.gt b

end FieldValue

/-- `FieldOperation`; `inValues` and `notInValues` are `In` and `NotIn`. -/
inductive FieldOperation (N : Numerics)
  | eq (v : FieldValue N)
  | notEq (v : FieldValue N)
  | gt (v : FieldValue N)
  | gte (v : FieldValue N)
  | lt (v : FieldValue N)
  | lte (v : FieldValue N)
  | inValues (vs : List (FieldValue N))
  | notInValues (vs : List (FieldValue N))
  | range (start stop : FieldValue N)

/-- `FieldOperation::evaluate`. -/
def FieldOperation.evaluate : FieldOperation N → FieldValue N → Bool
  | .eq t, v => v.eq t
  | .notEq t, v => !v.eq t
  | .gt t, v => v.gt t
  | .gte t, v => v.gte t
  | .lt t, v => v.lt t
  | .lte t, v => v.lte t
  | .inValues ts, v => ts.any (fun t => v.eq t)
  | .notInValues ts, v => !ts.any (fun t => v.eq t)
  | .range s e, v => v.gte s && v.lte e

namespace FieldValue

/-! ### How the comparisons read on integers, strings and bools -/

@[simp] theorem bothThen_some_some {α β : Type} (a b : α) (f : α → α → β) (k : β) :
    bothThen (some a) (some b) f k = f a b := rfl

@[simp] theorem bothThen_none_left {α β : Type} (y : Option α) (f : α → α → β) (k : β) :
    bothThen none y f k = k := rfl

@[simp] theorem bothThen_none_right {α β : Type} (x : Option α) (f : α → α → β) (k : β) :
    bothThen x none f k = k := by
  cases x <;> rfl

theorem intValue?_bounds {v : FieldValue N} {x : Int} (h : v.intValue? = some x) :
    -2 ^ 127 ≤ x ∧ x ≤ 2 ^ 128 - 1 := by
  cases v <;> simp only [intValue?, reduceCtorEq, Option.some.injEq] at h <;> subst h <;>
    rename_i v <;> (obtain ⟨h1, h2⟩ := v.2; constructor <;> omega)

theorem typeFamily_of_intValue? {v : FieldValue N} {x : Int} (h : v.intValue? = some x) :
    v.typeFamily = .integer := by
  cases v <;> simp_all [intValue?, typeFamily]

theorem isStringOrBool_of_intValue? {v : FieldValue N} {x : Int} (h : v.intValue? = some x) :
    v.isStringOrBool = false := by
  simp [isStringOrBool, typeFamily_of_intValue? h]

theorem tryToInt_of_intValue? {lo hi x : Int} {v : FieldValue N} (h : v.intValue? = some x)
    (hr : lo ≤ x ∧ x ≤ hi) : v.tryToInt lo hi = some ⟨x, hr⟩ := by
  simp [tryToInt, h, hr]

theorem tryToInt_eq_none {lo hi x : Int} {v : FieldValue N} (h : v.intValue? = some x)
    (hr : ¬(lo ≤ x ∧ x ≤ hi)) : v.tryToInt lo hi = none := by
  simp [tryToInt, h, hr]

/-- A conversion to an integer type succeeds exactly on the integers in its
range. -/
theorem tryToInt_eq_some {lo hi : Int} {v : FieldValue N} {x : IntRange lo hi} :
    v.tryToInt lo hi = some x ↔ v.intValue? = some x.1 := by
  unfold tryToInt
  cases h : v.intValue? with
  | none => simp
  | some y =>
    by_cases hr : lo ≤ y ∧ y ≤ hi
    · simp only [dif_pos hr, Option.some.injEq]
      exact ⟨fun e => by rw [← e], fun e => Subtype.ext e⟩
    · simp only [dif_neg hr, reduceCtorEq, Option.some.injEq, false_iff]
      rintro rfl
      exact hr x.2

/-- The fast paths of `eq` only fire on two integers, and then compare them. -/
theorem eqFast_spec {a b : FieldValue N} {r : Bool} (h : eqFast a b = some r) :
    ∃ x y, a.intValue? = some x ∧ b.intValue? = some y ∧ r = decide (x = y) := by
  unfold eqFast at h
  split at h <;> simp only [Option.some.injEq, reduceCtorEq] at h <;> subst h <;>
    refine ⟨_, _, rfl, rfl, ?_⟩
  all_goals
    rename_i a b
    have := a.2
    have := b.2
    first
      | rfl
      | (rw [Bool.eq_iff_iff]; simp only [Bool.and_eq_true, decide_eq_true_eq, beq_iff_eq]; omega)

theorem gtFast_spec {a b : FieldValue N} {r : Bool} (h : gtFast a b = some r) :
    ∃ x y, a.intValue? = some x ∧ b.intValue? = some y ∧ r = decide (y < x) := by
  unfold gtFast at h
  split at h <;> simp only [Option.some.injEq, reduceCtorEq] at h <;> subst h <;>
    refine ⟨_, _, rfl, rfl, ?_⟩
  all_goals
    rename_i a b
    have := a.2
    have := b.2
    first
      | rfl
      | (rw [Bool.eq_iff_iff]; simp only [Bool.and_eq_true, Bool.or_eq_true, decide_eq_true_eq]; omega)

theorem gteFast_spec {a b : FieldValue N} {r : Bool} (h : gteFast a b = some r) :
    ∃ x y, a.intValue? = some x ∧ b.intValue? = some y ∧ r = decide (y ≤ x) := by
  unfold gteFast at h
  split at h <;> simp only [Option.some.injEq, reduceCtorEq] at h <;> subst h <;>
    refine ⟨_, _, rfl, rfl, ?_⟩
  all_goals
    rename_i a b
    have := a.2
    have := b.2
    first
      | rfl
      | (rw [Bool.eq_iff_iff]; simp only [Bool.and_eq_true, Bool.or_eq_true, decide_eq_true_eq]; omega)

section Integers

variable {a b : FieldValue N} {x y : Int}

/-- What a fast path returns on two integers, read at their values. -/
theorem fast_result_of_intValue? {P : Int → Int → Prop} [DecidableRel P] {r : Bool}
    (ha : a.intValue? = some x) (hb : b.intValue? = some y)
    (h : ∃ x' y', a.intValue? = some x' ∧ b.intValue? = some y' ∧ r = decide (P x' y')) :
    r = decide (P x y) := by
  obtain ⟨x', y', ha', hb', rfl⟩ := h
  obtain rfl : x' = x := Option.some.inj (ha'.symm.trans ha)
  obtain rfl : y' = y := Option.some.inj (hb'.symm.trans hb)
  rfl

/-- Two integers that are both non-negative, or both fit `i128`, which is
the case of any two values of one integer type. -/
def CommonRange (x y : Int) : Prop := (0 ≤ x ∧ 0 ≤ y) ∨ (x ≤ 2 ^ 127 - 1 ∧ y ≤ 2 ^ 127 - 1)

/-- The integer paths of `eq` and `gt`, which reach the `u128` or the `i128`
comparison on two integers of a common range: when one of the two is
negative the `u128` path does not apply. -/
theorem bothThen_int_paths {β : Type} (ha : a.intValue? = some x) (hb : b.intValue? = some y)
    (hxy : CommonRange x y) (f : Int → Int → β) (k : β) :
    bothThen a.tryToU128 b.tryToU128 (fun p q => f p.1 q.1)
      (bothThen a.tryToI128 b.tryToI128 (fun p q => f p.1 q.1) k) = f x y := by
  have hxa := intValue?_bounds ha
  have hyb := intValue?_bounds hb
  by_cases hu : 0 ≤ x ∧ 0 ≤ y
  · have hua : a.tryToU128 = some ⟨x, by omega⟩ := tryToInt_of_intValue? ha _
    have hub : b.tryToU128 = some ⟨y, by omega⟩ := tryToInt_of_intValue? hb _
    rw [hua, hub, bothThen_some_some]
  · have hi : x ≤ 2 ^ 127 - 1 ∧ y ≤ 2 ^ 127 - 1 := hxy.resolve_left hu
    have hu' : bothThen a.tryToU128 b.tryToU128 (fun p q => f p.1 q.1)
        (bothThen a.tryToI128 b.tryToI128 (fun p q => f p.1 q.1) k) =
        bothThen a.tryToI128 b.tryToI128 (fun p q => f p.1 q.1) k := by
      by_cases hx0 : 0 ≤ x
      · have hub : b.tryToU128 = none := tryToInt_eq_none hb (by omega)
        rw [hub, bothThen_none_right]
      · have hua : a.tryToU128 = none := tryToInt_eq_none ha (by omega)
        rw [hua, bothThen_none_left]
    have hia : a.tryToI128 = some ⟨x, by omega⟩ := tryToInt_of_intValue? ha _
    have hib : b.tryToI128 = some ⟨y, by omega⟩ := tryToInt_of_intValue? hb _
    rw [hu', hia, hib, bothThen_some_some]

theorem eq_of_intValue? (ha : a.intValue? = some x) (hb : b.intValue? = some y)
    (hxy : CommonRange x y) : a.eq b = decide (x = y) := by
  unfold eq
  by_cases hab : a = b
  · subst hab
    rw [ha, Option.some.injEq] at hb
    simp [hb]
  rw [if_neg hab]
  cases hf : eqFast a b with
  | some r =>
    have hr := fast_result_of_intValue? ha hb (eqFast_spec hf)
    exact hr
  | none =>
    simp only [isStringOrBool_of_intValue? ha, isStringOrBool_of_intValue? hb, Bool.or_self,
      Bool.false_eq_true, if_false, typeFamily_of_intValue? ha, typeFamily_of_intValue? hb,
      and_self, if_true]
    rw [bothThen_int_paths ha hb hxy (fun p q => p == q)]
    by_cases h : x = y <;> simp [h]

theorem gt_of_intValue? (ha : a.intValue? = some x) (hb : b.intValue? = some y)
    (hxy : CommonRange x y) : a.gt b = decide (y < x) := by
  unfold gt
  by_cases hab : a = b
  · subst hab
    rw [ha, Option.some.injEq] at hb
    simp [hb]
  rw [if_neg hab]
  cases hf : gtFast a b with
  | some r =>
    have hr := fast_result_of_intValue? ha hb (gtFast_spec hf)
    exact hr
  | none =>
    have hfa := typeFamily_of_intValue? ha
    have hfb := typeFamily_of_intValue? hb
    simp only [hfa, hfb, reduceCtorEq, or_self, if_false, and_self, if_true,
      eq_of_intValue? ha hb hxy]
    rw [bothThen_int_paths ha hb hxy (fun p q => decide (q < p))]
    by_cases h : x = y
    · simp [h]
    · simp [h]

theorem gte_of_intValue? (ha : a.intValue? = some x) (hb : b.intValue? = some y)
    (hxy : CommonRange x y) : a.gte b = decide (y ≤ x) := by
  unfold gte
  by_cases hab : a = b
  · subst hab
    rw [ha, Option.some.injEq] at hb
    simp [hb]
  rw [if_neg hab]
  cases hf : gteFast a b with
  | some r =>
    have hr := fast_result_of_intValue? ha hb (gteFast_spec hf)
    exact hr
  | none =>
    rw [eq_of_intValue? ha hb hxy, gt_of_intValue? ha hb hxy]
    by_cases h : x = y
    · simp [h]
    · simp only [h, decide_false, Bool.false_or, decide_eq_decide]
      omega

end Integers

/-! ### Strings and bools -/

theorem eqFast_eq_none_of_isStringOrBool {a b : FieldValue N}
    (h : a.isStringOrBool = true ∨ b.isStringOrBool = true) : eqFast a b = none := by
  cases hf : eqFast a b with
  | none => rfl
  | some r =>
    obtain ⟨x, y, ha, hb, -⟩ := eqFast_spec hf
    rw [isStringOrBool_of_intValue? ha, isStringOrBool_of_intValue? hb] at h
    simp at h

/-- A string or a bool equals only itself. -/
theorem eq_of_isStringOrBool {a b : FieldValue N}
    (h : a.isStringOrBool = true ∨ b.isStringOrBool = true) : a.eq b = decide (a = b) := by
  unfold eq
  by_cases hab : a = b
  · simp [hab]
  · rw [if_neg hab, eqFast_eq_none_of_isStringOrBool h]
    have : (a.isStringOrBool || b.isStringOrBool) = true := by simpa using h
    simp [this, hab]

@[simp] theorem isStringOrBool_string (s : List Char) : (string s : FieldValue N).isStringOrBool := by
  simp [isStringOrBool, typeFamily]

@[simp] theorem isStringOrBool_bool (v : Bool) : (bool v : FieldValue N).isStringOrBool := by
  simp [isStringOrBool, typeFamily]

theorem gtFast_string (s t : List Char) : gtFast (string s : FieldValue N) (string t) = none := rfl

theorem gteFast_string (s t : List Char) : gteFast (string s : FieldValue N) (string t) = none := rfl

/-- Strings compare lexicographically. -/
theorem gt_string (s t : List Char) : (string s : FieldValue N).gt (string t) = decide (t < s) := by
  unfold gt
  by_cases h : s = t
  · subst h
    simp
  · have hne : (string s : FieldValue N) ≠ string t := fun e => h (by cases e; rfl)
    simp only [hne, if_false, gtFast_string, typeFamily, true_or, if_true, cmp]
    unfold compareOfLessAndEq
    by_cases h1 : s < t
    · simp [h1, lt_asymm h1]
    · have h2 : t < s := lt_of_le_of_ne (not_lt.mp h1) (Ne.symm h)
      simp [h1, h, h2]

theorem gte_string (s t : List Char) :
    (string s : FieldValue N).gte (string t) = decide (t ≤ s) := by
  unfold gte
  by_cases h : s = t
  · subst h
    simp
  · have hne : (string s : FieldValue N) ≠ string t := fun e => h (by cases e; rfl)
    rw [if_neg hne, gteFast_string, eq_of_isStringOrBool (by simp), gt_string]
    simp [hne, le_iff_lt_or_eq, h, eq_comm]

/-- A bool is never greater than a bool. -/
theorem gt_bool (v w : Bool) : (bool v : FieldValue N).gt (bool w) = false := by
  unfold gt
  split_ifs <;> first | rfl | simp_all [typeFamily]

theorem gte_bool (v w : Bool) : (bool v : FieldValue N).gte (bool w) = decide (v = w) := by
  unfold gte
  by_cases h : v = w
  · subst h
    simp
  · have hne : (bool v : FieldValue N) ≠ bool w := fun e => h (by cases e; rfl)
    rw [if_neg hne, show gteFast (bool v : FieldValue N) (bool w) = none from rfl]
    dsimp only
    rw [eq_of_isStringOrBool (by simp), gt_bool]
    simp [hne, h]

/-! ### Decimals

A decimal on the left meets no fast path and no string or bool, so each
comparison falls through to the decimal path, which compares the decimals
the two sides convert to. -/

section Decimals

variable {k c : N.Decimal} {v : FieldValue N}

@[simp] theorem typeFamily_decimal (k : N.Decimal) : (decimal k).typeFamily = .decimal := rfl

@[simp] theorem tryToDecimal_decimal (k : N.Decimal) : (decimal k).tryToDecimal = some k := rfl

theorem typeFamily_of_tryToDecimal (h : v.tryToDecimal = some c) :
    v.typeFamily ≠ .string ∧ v.typeFamily ≠ .bool := by
  cases v <;> simp_all [tryToDecimal, typeFamily, intValue?]

@[simp] theorem isStringOrBool_decimal (k : N.Decimal) : (decimal k).isStringOrBool = false := rfl

theorem isStringOrBool_of_tryToDecimal (h : v.tryToDecimal = some c) : v.isStringOrBool = false := by
  obtain ⟨hs, hb⟩ := typeFamily_of_tryToDecimal h
  simp [isStringOrBool, hs, hb]

/-- A decimal equals a value that converts to a decimal when the decimals
are equal. -/
theorem eq_decimal (hc : v.tryToDecimal = some c) : (decimal k).eq v = decide (k = c) := by
  unfold eq
  by_cases hv : decimal k = v
  · subst hv
    simp_all
  have hfast : eqFast (decimal k) v = none := by cases v <;> rfl
  simp [hv, hfast, isStringOrBool_of_tryToDecimal hc, hc, beq_eq_decide]

theorem gt_decimal (hc : v.tryToDecimal = some c) : (decimal k).gt v = decide (c < k) := by
  unfold gt
  by_cases hv : decimal k = v
  · subst hv
    simp_all
  have hfast : gtFast (decimal k) v = none := by cases v <;> rfl
  obtain ⟨hs, hb⟩ := typeFamily_of_tryToDecimal hc
  rw [if_neg hv, hfast]
  by_cases hkc : k = c
  · simp [hs, hb, eq_decimal hc, hkc]
  · simp [hs, hb, eq_decimal hc, hkc, hc]

theorem gte_decimal (hc : v.tryToDecimal = some c) : (decimal k).gte v = decide (c ≤ k) := by
  unfold gte
  by_cases hv : decimal k = v
  · subst hv
    simp_all
  have hfast : gteFast (decimal k) v = none := by cases v <;> rfl
  simp [hv, hfast, eq_decimal hc, gt_decimal hc, le_iff_lt_or_eq, eq_comm, or_comm]

end Decimals

end FieldValue

/-! ### The key types of an index

`define_index_field_enum!` is invoked with one row per key type: the
variant, the Rust type, the `FieldValue` variant and the conversion method.
`FieldType` is that table. -/

/-- The key types of a field index. -/
inductive FieldType
  | u128
  | i128
  | u64
  | i64
  | u32
  | i32
  | u16
  | i16
  | u8
  | i8
  | usize
  | isize
  | f64
  | f32
  | decimal
  | string
  | bool
  deriving DecidableEq, Repr

namespace FieldType

/-- The Rust type of the keys. -/
def Carrier (N : Numerics) : FieldType → Type
  | u128 => U128
  | i128 => I128
  | u64 => U64
  | i64 => I64
  | u32 => U32
  | i32 => I32
  | u16 => U16
  | i16 => I16
  | u8 => U8
  | i8 => I8
  | usize => Usize
  | isize => Isize
  | f64 => N.F64
  | f32 => N.F32
  | decimal => N.Decimal
  | string => List Char
  | bool => Bool

/-- Each key type's own `Ord`. -/
instance instLinearOrderCarrier (N : Numerics) : (t : FieldType) → LinearOrder (t.Carrier N)
  | u128 => inferInstanceAs (LinearOrder U128)
  | i128 => inferInstanceAs (LinearOrder I128)
  | u64 => inferInstanceAs (LinearOrder U64)
  | i64 => inferInstanceAs (LinearOrder I64)
  | u32 => inferInstanceAs (LinearOrder U32)
  | i32 => inferInstanceAs (LinearOrder I32)
  | u16 => inferInstanceAs (LinearOrder U16)
  | i16 => inferInstanceAs (LinearOrder I16)
  | u8 => inferInstanceAs (LinearOrder U8)
  | i8 => inferInstanceAs (LinearOrder I8)
  | usize => inferInstanceAs (LinearOrder Usize)
  | isize => inferInstanceAs (LinearOrder Isize)
  | f64 => N.ordF64
  | f32 => N.ordF32
  | decimal => N.ordDecimal
  | string => inferInstanceAs (LinearOrder (List Char))
  | bool => inferInstanceAs (LinearOrder Bool)

/-- `FieldValue::from` on a key. -/
def toValue : (t : FieldType) → t.Carrier N → FieldValue N
  | u128, v => .u128 v
  | i128, v => .i128 v
  | u64, v => .u64 v
  | i64, v => .i64 v
  | u32, v => .u32 v
  | i32, v => .i32 v
  | u16, v => .u16 v
  | i16, v => .i16 v
  | u8, v => .u8 v
  | i8, v => .i8 v
  | usize, v => .usize v
  | isize, v => .isize v
  | f64, v => .f64 v
  | f32, v => .f32 v
  | decimal, v => .decimal v
  | string, v => .string v
  | bool, v => .bool v

/-- `$convert_method`, the conversion of a query value to the key type. -/
def convert : (t : FieldType) → FieldValue N → Option (t.Carrier N)
  | u128 => FieldValue.tryToU128
  | i128 => FieldValue.tryToI128
  | u64 => FieldValue.tryToU64
  | i64 => FieldValue.tryToI64
  | u32 => FieldValue.tryToU32
  | i32 => FieldValue.tryToI32
  | u16 => FieldValue.tryToU16
  | i16 => FieldValue.tryToI16
  | u8 => FieldValue.tryToU8
  | i8 => FieldValue.tryToI8
  | usize => FieldValue.tryToUsize
  | isize => FieldValue.tryToIsize
  | f64 => FieldValue.tryToF64
  | f32 => FieldValue.tryToF32
  | decimal => FieldValue.tryToDecimal
  | string => FieldValue.tryToString
  | bool => FieldValue.tryToBool

/-- `stringify!($type)`, the type name in error messages. -/
def typeName : FieldType → String
  | u128 => "u128"
  | i128 => "i128"
  | u64 => "u64"
  | i64 => "i64"
  | u32 => "u32"
  | i32 => "i32"
  | u16 => "u16"
  | i16 => "i16"
  | u8 => "u8"
  | i8 => "i8"
  | usize => "usize"
  | isize => "isize"
  | f64 => "F64"
  | f32 => "F32"
  | decimal => "Decimal"
  | string => "String"
  | bool => "bool"

/-- The integer key types. -/
def IsInteger (t : FieldType) : Prop := t ≠ f64 ∧ t ≠ f32 ∧ t ≠ decimal ∧ t ≠ string ∧ t ≠ bool

end FieldType

end TreeMan
